import LuaBytecode.Token.Scanner
import Mathlib.Data.List.Infix

namespace LuaBytecode

variable {c : UInt8} {level : Nat} {rest done : Bytes}

def longBracket (c : Char) (level : Nat) : Bytes :=
  byte c :: (List.replicate level (byte '=') ++ [byte c])

lemma longBracket_append (c : Char) (level : Nat) (rest : Bytes) : longBracket c level ++ rest =
    byte c :: (List.replicate level (byte '=') ++ byte c :: rest) := by
  simp [longBracket]

lemma length_longBracket (c : Char) (level : Nat) : (longBracket c level).length = level + 2 := by
  simp [longBracket]

def dropBreak : Bytes → Bytes
  | 0x0d :: 0x0a :: rest | 0x0a :: 0x0d :: rest | 0x0d :: rest | 0x0a :: rest => rest
  | s => s

def unifyBreaks : Bytes → Bytes
  | [] => []
  | 0x0d :: 0x0a :: rest | 0x0a :: 0x0d :: rest | 0x0d :: rest | 0x0a :: rest =>
    0x0a :: unifyBreaks rest
  | c :: rest => c :: unifyBreaks rest

/-- The first closing bracket of a level in a text, by what stands before and behind it. -/
structure ClosesFirst (level : Nat) (text before after : Bytes) : Prop where
  split : text = before ++ longBracket ']' level ++ after
  first : ∀ b a, text = b ++ longBracket ']' level ++ a → before.length ≤ b.length

namespace ClosesFirst

variable {text before after : Bytes}

lemma nil (h : ClosesFirst level text [] after) : text = longBracket ']' level ++ after := h.split

lemma tail {d : UInt8} (h : ClosesFirst level (c :: text) (d :: before) after) :
    d = c ∧ ClosesFirst level text before after := by
  obtain ⟨hd, ht⟩ := List.cons_eq_cons.mp h.split
  refine ⟨hd.symm, ht, fun b a hb => ?_⟩
  exact Nat.le_of_succ_le_succ (h.first (c :: b) a (by rw [hb]; rfl))

lemma eq_nil (h : ClosesFirst level (longBracket ']' level ++ text) before after) :
    before = [] ∧ after = text := by
  have hl := h.first [] text rfl
  have hn := List.eq_nil_of_length_eq_zero (Nat.le_zero.mp hl)
  subst hn
  exact ⟨rfl, (List.append_cancel_left h.split).symm⟩

lemma cons (hno : ¬∃ a, c :: text = longBracket ']' level ++ a)
    (h : ClosesFirst level text before after) :
    ClosesFirst level (c :: text) (c :: before) after := by
  refine ⟨by rw [h.split]; rfl, fun b a hb => ?_⟩
  cases b with
  | nil => exact absurd ⟨a, hb⟩ hno
  | cons d b => exact Nat.succ_le_succ (h.first b a (List.cons_eq_cons.mp hb).2)

end ClosesFirst

lemma exists_closesFirst {text : Bytes} (h : longBracket ']' level <:+: text) :
    ∃ before after, ClosesFirst level text before after := by
  induction text with
  | nil => simp [longBracket] at h
  | cons c text ih =>
    by_cases hp : ∃ a, c :: text = longBracket ']' level ++ a
    · obtain ⟨a, ha⟩ := hp
      exact ⟨[], a, ha, fun _ _ _ => Nat.zero_le _⟩
    · rcases List.infix_cons_iff.mp h with ⟨a, ha⟩ | h
      · exact absurd ⟨a, ha.symm⟩ hp
      · obtain ⟨before, after, hf⟩ := ih h
        exact ⟨c :: before, after, hf.cons hp⟩

lemma lineBreakSize_pos (c : UInt8) (rest : Bytes) : 0 < lineBreakSize c rest := by
  unfold lineBreakSize
  repeat' split
  all_goals exact Nat.succ_pos _

lemma dropBreak_of_break (hc : isLineBreak c = true) (rest : Bytes) :
    dropBreak (c :: rest) = rest.drop (lineBreakSize c rest - 1) ∧
      unifyBreaks (c :: rest) =
        byte '\n' :: unifyBreaks (rest.drop (lineBreakSize c rest - 1)) := by
  cases rest with
  | nil => rcases isLineBreak_iff.mp hc with rfl | rfl <;> exact ⟨rfl, rfl⟩
  | cons d rest =>
    by_cases hd : isLineBreak d = true
    · rcases isLineBreak_iff.mp hc with rfl | rfl <;>
        rcases isLineBreak_iff.mp hd with rfl | rfl <;> exact ⟨rfl, rfl⟩
    · simp only [isLineBreak_iff, not_or] at hd
      change d ≠ 0x0a ∧ d ≠ 0x0d at hd
      rcases isLineBreak_iff.mp hc with rfl | rfl <;>
        simp [dropBreak, unifyBreaks, lineBreakSize, isLineBreak, hd, byte]

lemma dropBreak_of_not_break (hc : isLineBreak c = false) (rest : Bytes) :
    dropBreak (c :: rest) = c :: rest ∧ unifyBreaks (c :: rest) = c :: unifyBreaks rest := by
  rw [← Bool.not_eq_true, isLineBreak_iff, not_or] at hc
  change c ≠ 0x0a ∧ c ≠ 0x0d at hc
  simp [dropBreak, unifyBreaks, hc]

namespace Lexeme

variable {text before after : Bytes}

lemma longCloses_iff : (c = byte ']' && longCloses level rest) = true ↔
      ∃ after, c :: rest = longBracket ']' level ++ after := by
  have ht : ∀ (level : Nat) (rest : Bytes), longCloses level rest = true ↔
      ∃ after, rest = List.replicate level (byte '=') ++ byte ']' :: after := by
    intro level
    induction level with
    | zero => intro rest; cases rest <;> simp [longCloses]
    | succ level ih => intro rest; cases rest <;> simp [longCloses, ih, List.replicate_succ]
  simp [longBracket, ht]

lemma longOpen_opening (level k : Nat) (rest : Bytes) :
    longOpen k (List.replicate level (byte '=') ++ byte '[' :: rest) = (k + level, true) := by
  induction level generalizing k with
  | zero => simp [longOpen, byte]
  | succ level ih => simp [List.replicate_succ, longOpen, ih, Nat.add_right_comm, Nat.add_assoc]

lemma eq_of_longOpen {k n : Nat} (h : longOpen k text = (n, true)) : ∃ level after,
    n = k + level ∧ text = List.replicate level (byte '=') ++ byte '[' :: after := by
  induction text generalizing k with
  | nil => simp [longOpen] at h
  | cons c text ih =>
    by_cases hc : c = byte '='
    · rw [longOpen, if_pos hc] at h
      obtain ⟨level, after, rfl, rfl⟩ := ih h
      exact ⟨level + 1, after, by omega, by rw [hc]; rfl⟩
    · rw [longOpen, if_neg hc, Prod.mk.injEq, decide_eq_true_eq] at h
      exact ⟨0, text, h.1.symm, by rw [h.2]; rfl⟩

lemma lineBreakSize_closing (h : ClosesFirst level text before after) :
    lineBreakSize c text = lineBreakSize c before ∧ lineBreakSize c text - 1 ≤ before.length := by
  cases before with
  | nil => simp [h.nil, longBracket, lineBreakSize, isLineBreak, byte]
  | cons d before =>
    rw [h.split]
    simp only [List.cons_append, lineBreakSize, true_and]
    split <;> simp

lemma longBody_closed {skip size : Nat} (h : ClosesFirst level text before after)
    (hs : skip ≤ before.length) : longBody level skip done size text =
      (some (done.reverse ++ unifyBreaks (before.drop skip)),
        size + before.length + level + 2) := by
  fun_induction longBody level skip done size text generalizing before with
  | case1 => simpa [longBracket] using h.split
  | case2 skip done size c rest ih =>
    cases before with
    | nil => simp at hs
    | cons d before =>
      rw [ih h.tail.2 (Nat.le_of_succ_le_succ hs)]
      simp
      omega
  | case3 done size c rest hcl =>
    obtain ⟨after', heq⟩ := longCloses_iff.mp hcl
    rw [heq] at h
    simp [h.eq_nil, unifyBreaks]
  | case4 done size c rest hcl hc ih =>
    cases before with
    | nil => exact absurd (longCloses_iff.mpr ⟨after, h.nil⟩) hcl
    | cons d before =>
      obtain ⟨rfl, ht⟩ := h.tail
      obtain ⟨hsi, hle⟩ := lineBreakSize_closing (c := d) ht
      rw [ih ht hle, hsi, List.drop_zero, (dropBreak_of_break hc before).2]
      simp
      omega
  | case5 done size c rest hcl hc ih =>
    cases before with
    | nil => exact absurd (longCloses_iff.mpr ⟨after, h.nil⟩) hcl
    | cons d before =>
      obtain ⟨rfl, ht⟩ := h.tail
      rw [ih ht (Nat.zero_le _), List.drop_zero, List.drop_zero,
        (dropBreak_of_not_break (Bool.eq_false_iff.mpr hc) before).2]
      simp
      omega

lemma longBody_open {skip size : Nat} (h : ¬longBracket ']' level <:+: text) :
    longBody level skip done size text = (none, size + text.length) := by
  fun_induction longBody level skip done size text with
  | case1 => rfl
  | case2 skip done size c rest ih | case4 done size c rest _ _ ih
  | case5 done size c rest _ _ ih =>
    rw [ih fun hin => h (List.infix_cons hin), List.length_cons]
    congr 1
    omega
  | case3 done size c rest hc =>
    obtain ⟨after, heq⟩ := longCloses_iff.mp hc
    exact absurd ⟨[], after, by rw [heq]; rfl⟩ h

lemma leadingBreak_closing (h : ClosesFirst level text before after) :
    leadingBreak text ≤ before.length ∧ before.drop (leadingBreak text) = dropBreak before := by
  cases before with
  | nil => simp [h.nil, longBracket, leadingBreak, dropBreak, isLineBreak, byte]
  | cons c before =>
    obtain ⟨d, text, rfl⟩ : ∃ d text', text = d :: text' := ⟨_, _, h.split⟩
    obtain ⟨rfl, ht⟩ := h.tail
    obtain ⟨hs, hle⟩ := lineBreakSize_closing (c := c) ht
    rw [leadingBreak]
    split
    · next hc =>
      have hp : 0 < lineBreakSize c text := lineBreakSize_pos c text
      obtain ⟨k, hk⟩ := Nat.exists_eq_succ_of_ne_zero hp.ne'
      rw [(dropBreak_of_break hc before).1, ← hs, hk]
      exact ⟨by simpa [hk] using hle, rfl⟩
    · next hc => simp [(dropBreak_of_not_break (Bool.eq_false_iff.mpr hc) before).1]

lemma long_closed (kind : TokenKind) (opened : Nat) (h : ClosesFirst level text before after) :
    long kind level opened text = ⟨opened + before.length + level + 2,
      .token kind (unifyBreaks (dropBreak before)) true⟩ := by
  obtain ⟨hle, hd⟩ := leadingBreak_closing h
  rw [long, longBody_closed h hle, hd]
  rfl

lemma long_open (kind : TokenKind) (opened : Nat) (h : ¬longBracket ']' level <:+: text) :
    long kind level opened text =
      ⟨opened + text.length, .fault (opened + text.length) .endInLongBracket⟩ := by
  rw [long, longBody_open h]

lemma drop_opening (level : Nat) (rest : Bytes) :
    (List.replicate level (byte '=') ++ byte '[' :: rest).drop (level + 1) = rest := by
  simp [List.drop_append]

lemma read_longBracket (level : Nat) (rest : Bytes) :
    read (byte '[') (List.replicate level (byte '=') ++ byte '[' :: rest) =
      long .string level (level + 2) rest := by
  simp only [read, plain, longOpen_opening, drop_opening, Nat.zero_add]
  rfl

lemma comment_longBracket (level : Nat) (rest : Bytes) :
    comment (byte '[' :: (List.replicate level (byte '=') ++ byte '[' :: rest)) =
      long .comment level (level + 4) rest := by
  simp only [comment, longOpen_opening, drop_opening, Nat.zero_add, if_true]

lemma comment_short (h : ¬∃ level after, text = longBracket '[' level ++ after) : comment text =
      let value := text.takeWhile fun c => !isLineBreak c
      ⟨value.length + 2, .token .comment value false⟩ := by
  cases text with
  | nil => rfl
  | cons c text =>
    by_cases hc : c = byte '['
    · subst hc
      simp only [comment, if_true]
      split
      · next heq =>
        obtain ⟨level, after, -, rfl⟩ := eq_of_longOpen heq
        exact absurd ⟨level, after, (longBracket_append ..).symm⟩ h
      · rfl
    · rw [comment, if_neg hc]
      rfl

end Lexeme

namespace Cursor

def TakesLong (kind : TokenKind) (opening : Bytes) (level : Nat) (rest : Bytes) (p : Position) :
    Prop :=
  (∃ before after, ClosesFirst level rest before after ∧
    let stop := p.advance (opening ++ before ++ longBracket ']' level)
    next ⟨opening ++ rest, p⟩ =
      (.token ⟨kind, ⟨p, stop⟩, unifyBreaks (dropBreak before), true⟩, ⟨after, stop⟩)) ∨
  (¬longBracket ']' level <:+: rest ∧
    let stop := p.advance (opening ++ rest)
    next ⟨opening ++ rest, p⟩ = (.fault ⟨p, stop⟩ ⟨stop, .endInLongBracket⟩, ⟨[], stop⟩))

lemma takesLong_of_read {kind : TokenKind} {opening tail : Bytes} {b : UInt8} (p : Position)
    (ho : opening ++ rest = b :: tail) (hb : isSpace b = false)
    (hr : Lexeme.read b tail = Lexeme.long kind level opening.length rest) :
    TakesLong kind opening level rest p := by
  by_cases h : longBracket ']' level <:+: rest
  · obtain ⟨before, after, hf⟩ := exists_closesFirst h
    refine .inl ⟨before, after, hf, ?_⟩
    have hsi : opening.length + before.length + level + 2 =
        (opening ++ before ++ longBracket ']' level).length := by
      rw [List.length_append, List.length_append, length_longBracket, ← Nat.add_assoc]
    have hs : b :: tail = opening ++ before ++ longBracket ']' level ++ after := by
      rw [← ho, hf.split, List.append_assoc, List.append_assoc, List.append_assoc]
    rw [Lexeme.long_closed kind _ hf, hsi] at hr
    rw [ho, next_eq_token hb hr, hs, skip_append]
  · refine .inr ⟨h, ?_⟩
    have hsk : skip ⟨opening ++ rest, p⟩ (opening.length + rest.length) =
        ⟨[], p.advance (opening ++ rest)⟩ := by
      simpa using skip_append (opening ++ rest) [] p
    rw [Lexeme.long_open kind _ h] at hr
    rw [ho, next_eq_fault hb hr, ← ho, hsk]

/-- Long brackets end at the first closing bracket of their level, and what opens none behind two
dashes is a comment up to the end of the line. -/
theorem next_longBracket (level : Nat) (rest : Bytes) (p : Position) :
    TakesLong .string (longBracket '[' level) level rest p ∧
      TakesLong .comment (byte '-' :: byte '-' :: longBracket '[' level) level rest p ∧
      ((∃ n after, byte '[' :: rest = longBracket '[' n ++ after) ∨
        let line := (byte '[' :: rest).takeWhile fun c => !isLineBreak c
        let stop := p.advance (byte '-' :: byte '-' :: line)
        next ⟨byte '-' :: byte '-' :: byte '[' :: rest, p⟩ =
          (.token ⟨.comment, ⟨p, stop⟩, line, false⟩,
            ⟨(byte '[' :: rest).dropWhile fun c => !isLineBreak c, stop⟩)) := by
  refine ⟨?_, ?_, ?_⟩
  · refine takesLong_of_read p (longBracket_append '[' level rest) (by decide) ?_
    rw [length_longBracket]
    exact Lexeme.read_longBracket level rest
  · have hopening : byte '-' :: byte '-' :: longBracket '[' level ++ rest = byte '-' :: byte '-' ::
        byte '[' :: (List.replicate level (byte '=') ++ byte '[' :: rest) := by
      rw [List.cons_append, List.cons_append, longBracket_append]
    refine takesLong_of_read p hopening (by decide) ?_
    rw [List.length_cons, List.length_cons, length_longBracket]
    exact Lexeme.comment_longBracket level rest
  · by_cases h : ∃ n after, byte '[' :: rest = longBracket '[' n ++ after
    · exact .inl h
    · right
      have hread : Lexeme.read (byte '-') (byte '-' :: byte '[' :: rest) = _ :=
        Lexeme.comment_short h
      have hsplit : byte '-' :: byte '-' :: byte '[' :: rest =
          (byte '-' :: byte '-' :: (byte '[' :: rest).takeWhile fun c => !isLineBreak c) ++
            (byte '[' :: rest).dropWhile fun c => !isLineBreak c := by
        rw [List.cons_append, List.cons_append, List.takeWhile_append_dropWhile]
      have hskip := skip_append (byte '-' :: byte '-' ::
        (byte '[' :: rest).takeWhile fun c => !isLineBreak c)
        ((byte '[' :: rest).dropWhile fun c => !isLineBreak c) p
      rw [← hsplit] at hskip
      rw [next_eq_token (by decide) hread]
      exact congrArg (fun after : Cursor =>
        (Scanned.token ⟨.comment, ⟨p, after.pos⟩, _, false⟩, after)) hskip

end Cursor

end LuaBytecode
