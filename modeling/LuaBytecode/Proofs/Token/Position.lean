import LuaBytecode.Proofs.Number.Numeral
import LuaBytecode.Proofs.Token.LongBracket
import LuaBytecode.Proofs.Token.Partition
import Mathlib.Logic.Relation

namespace LuaBytecode

variable {c c' : Cursor} {cause : EscapeError} {n : Nat} {b : UInt8} {rest s : Bytes}
  {calls : List Call}

def Position.Before (p q : Position) : Prop :=
  p.line < q.line ∨ p.line = q.line ∧ p.column < q.column

lemma Position.Before.trans {p q r : Position} (h : p.Before q) (h' : q.Before r) : p.Before r := by
  unfold Before at *
  omega

lemma Position.before_nextColumn (p : Position) (b : UInt8) : p.Before (p.nextColumn b) := by
  unfold Before nextColumn
  split
  · refine .inr ⟨rfl, ?_⟩
    simp only
    omega
  · exact .inr ⟨rfl, Int.lt_succ _⟩

lemma lineBreakSize_cases (b : UInt8) (rest : Bytes) :
    lineBreakSize b rest = 1 ∧ (∀ d ∈ rest.head?, isLineBreak d = true → d = b) ∨
      lineBreakSize b rest = 2 ∧ ∃ d after, rest = d :: after ∧ isLineBreak d = true ∧ d ≠ b := by
  cases rest with
  | nil => exact .inl ⟨rfl, by simp⟩
  | cons d after =>
    by_cases hd : isLineBreak d = true ∧ d ≠ b
    · exact .inr ⟨by simp [lineBreakSize, hd], d, after, rfl, hd⟩
    · exact .inl ⟨by simpa [lineBreakSize] using hd, by simpa using hd⟩

namespace Cursor

inductive Step : Cursor → Cursor → Prop
  | byte {b : UInt8} {rest : Bytes} {p : Position} (h : isLineBreak b = false) :
      Step ⟨b :: rest, p⟩ ⟨rest, p.nextColumn b⟩
  | lineBreak {b : UInt8} {rest : Bytes} {p : Position} (h : isLineBreak b = true) :
      Step ⟨b :: rest, p⟩ ⟨rest.drop (lineBreakSize b rest - 1), p.nextLine⟩

abbrev Reads : Cursor → Cursor → Prop := Relation.ReflTransGen Step

lemma step_unique : Relator.RightUnique Step := by
  intro c a b ha hb
  cases ha <;> cases hb <;> simp_all

def IsPair (a b : UInt8) : Prop := isLineBreak a = true ∧ isLineBreak b = true ∧ a ≠ b

structure Takes (k : Nat) (c c' : Cursor) : Prop where
  pos : 0 < k
  le : k ≤ c.rest.length
  rest : c'.rest = c.rest.drop k
  before : c.pos.Before c'.pos
  skip : ∀ m, c.skip (k + m) = c'.skip m

lemma takes_byte (hb : isLineBreak b = false) (rest : Bytes) (p : Position) :
    Takes 1 ⟨b :: rest, p⟩ ⟨rest, p.nextColumn b⟩ := by
  refine ⟨Nat.one_pos, by simp, rfl, p.before_nextColumn b, fun m => ?_⟩
  simp [Cursor.skip, Nat.add_comm 1, Position.advance, Position.advanceFrom, hb]

lemma takes_lineBreak (hb : isLineBreak b = true) (rest : Bytes) (p : Position) :
    Takes (lineBreakSize b rest) ⟨b :: rest, p⟩
      ⟨rest.drop (lineBreakSize b rest - 1), p.nextLine⟩ := by
  have hbe : p.Before p.nextLine := .inl (Int.lt_succ _)
  rcases lineBreakSize_cases b rest with ⟨hs, hh⟩ | ⟨hs, d, after, rfl, hd, hne⟩
  · rw [hs]
    refine ⟨Nat.one_pos, by simp, rfl, hbe, fun m => ?_⟩
    have ht : lineBreakSize b (rest.take m) = 1 := by
      rcases lineBreakSize_cases b (rest.take m) with ⟨h, -⟩ | ⟨-, d, after, heq, hd, hne⟩
      · exact h
      · have hm : rest.head? = some d := by
          cases rest <;> cases m <;> simp_all
        exact absurd (hh d hm hd) hne
    simp [Cursor.skip, Nat.add_comm 1, Position.advance, Position.advanceFrom, hb, ht]
  · rw [hs]
    refine ⟨Nat.two_pos, by simp, rfl, hbe, fun m => ?_⟩
    have ht : lineBreakSize b (d :: after.take m) = 2 := by simp [lineBreakSize, hd, hne]
    simp [Cursor.skip, Nat.add_comm 2, Position.advance, Position.advanceFrom, hb, ht]

lemma Step.takes (h : Step c c') : ∃ k, Takes k c c' := by
  cases h with
  | byte hb => exact ⟨1, takes_byte hb _ _⟩
  | lineBreak hb => exact ⟨_, takes_lineBreak hb _ _⟩

lemma skip_zero (c : Cursor) : c.skip 0 = c := rfl

lemma Takes.eq_skip {k : Nat} (h : Takes k c c') : c.skip k = c' := h.skip 0

lemma Takes.trans {j k : Nat} {a b c : Cursor} (h : Takes j a b) (h' : Takes k b c) :
    Takes (j + k) a c where
  pos := Nat.add_pos_left h.pos k
  le := by
    have hle := h'.le
    rw [h.rest, List.length_drop] at hle
    have := h.le
    omega
  rest := by rw [h'.rest, h.rest, List.drop_drop]
  before := h.before.trans h'.before
  skip m := by rw [Nat.add_assoc, h.skip, h'.skip]

lemma Reads.takes {c c' : Cursor} (h : Reads c c') : c = c' ∨ ∃ k, Takes k c c' := by
  induction h with
  | refl => exact .inl rfl
  | tail _ hs ih =>
    obtain ⟨k, hk⟩ := hs.takes
    rcases ih with rfl | ⟨j, hj⟩
    · exact .inr ⟨k, hk⟩
    · exact .inr ⟨j + k, hj.trans hk⟩

def IsSeam (text : Bytes) (n : Nat) : Prop :=
  ∀ a ∈ (text.take n).getLast?, ∀ b ∈ (text.drop n).head?, ¬IsPair a b

lemma IsSeam.drop {text : Bytes} {k m : Nat} (h : IsSeam text (k + m)) :
    IsSeam (text.drop k) m := by
  intro a ha b hb
  refine h a ?_ b (by rwa [List.drop_drop] at hb)
  rw [List.take_add, List.getLast?_append, Option.mem_def.mp ha]
  rfl

lemma reads_skip (h : IsSeam c.rest n) : Reads c (c.skip n) := by
  induction n using Nat.strongRecOn generalizing c with
  | ind n ih =>
    have hgo : ∀ {k c'}, Step c c' → Takes k c c' → k ≤ n → Reads c (c.skip n) := by
      intro k c' hst hk hle
      obtain ⟨m, rfl⟩ := Nat.exists_eq_add_of_le hle
      have hp := hk.pos
      rw [hk.skip]
      exact .head hst (ih m (by omega) (hk.rest ▸ h.drop))
    obtain ⟨_ | ⟨b, rest⟩, p⟩ := c
    · simpa [skip, Position.advance, Position.advanceFrom] using .refl
    · by_cases hn : n = 0
      · subst hn
        exact .refl
      · cases hb : isLineBreak b with
        | false => exact hgo (.byte hb) (takes_byte hb rest p) (by omega)
        | true =>
          refine hgo (.lineBreak hb) (takes_lineBreak hb rest p) ?_
          rcases lineBreakSize_cases b rest with ⟨hs, -⟩ | ⟨hs, d, after, rfl, hd, hne⟩
          · omega
          · -- A single byte of the pair would leave the seam inside it.
            have ho : n ≠ 1 := by
              rintro rfl
              exact h b rfl d rfl ⟨hb, hd, hne.symm⟩
            omega

lemma Reads.skip_add (h : Reads c (c.skip n)) (hn : n ≤ c.rest.length) (m : Nat) :
    c.skip (n + m) = (c.skip n).skip m := by
  have hl : (c.skip n).rest.length = c.rest.length - n := List.length_drop
  rcases h.takes with heq | ⟨k, hk⟩
  · have hz : n = 0 := by
      rw [← heq] at hl
      omega
    subst hz
    rw [skip_zero, Nat.zero_add]
  · have hkn : k = n := by
      have hle := hk.le
      rw [hk.rest, List.length_drop] at hl
      omega
    rw [← hkn, hk.eq_skip] at *
    exact hk.skip m

section

variable {text : Bytes} {a : UInt8}

lemma isSeam_of_last (h : ∀ a ∈ (text.take n).getLast?, isLineBreak a = false) : IsSeam text n :=
  fun a ha _ _ hp => Bool.false_ne_true ((h a ha).symm.trans hp.1)

lemma isSeam_of_next (h : ∀ b ∈ (text.drop n).head?, isLineBreak b = false) : IsSeam text n :=
  fun _ _ b hb hp => Bool.false_ne_true ((h b hb).symm.trans hp.2.1)

lemma isSeam_of_all (h : ∀ a ∈ text.take n, isLineBreak a = false) : IsSeam text n :=
  isSeam_of_last fun a ha => h a (List.mem_of_getLast? ha)

lemma isSeam_succ (h : text.drop n = a :: rest) (ha : isLineBreak a = false) :
    IsSeam text (n + 1) := by
  refine isSeam_of_last fun b hb => ?_
  rw [List.take_add, h, List.getLast?_append] at hb
  simpa [← Option.mem_some.mp hb] using ha

end

lemma Reads.lineBreak {c : Cursor} {n : Nat} {a : UInt8} {rest : Bytes} (h : Reads c (c.skip n))
    (hr : c.rest.drop n = a :: rest) (ha : isLineBreak a = true) :
    Reads c (c.skip (n + lineBreakSize a rest)) := by
  have hn : n ≤ c.rest.length := by
    have hl := congrArg List.length hr
    simp at hl
    omega
  have hc : c.skip n = ⟨a :: rest, (c.skip n).pos⟩ := by rw [← hr]; rfl
  rw [h.skip_add hn, hc, (takes_lineBreak ha rest _).eq_skip]
  rw [hc] at h
  exact h.tail (.lineBreak ha)

end Cursor

namespace Lexeme

open Cursor

variable {text : Bytes}

lemma isSeam_of_unbroken {w : Bytes} (h : w <+: text) (hw : ∀ a ∈ w, isLineBreak a = false) :
    IsSeam text w.length :=
  isSeam_of_all (List.prefix_iff_eq_take.mp h ▸ hw)

lemma isSeam_numeralSize {mark : UInt8 → Bool} (hn : mark (byte '\n') = false)
    (hr : mark (byte '\r') = false) (afterMark : Bool) (front s : Bytes)
    (hf : ∀ a ∈ front, isLineBreak a = false) :
    IsSeam (front ++ s) (numeralSize mark afterMark front.length s) := by
  induction s generalizing front afterMark with
  | nil => exact isSeam_of_unbroken (List.prefix_append _ _) hf
  | cons c s ih =>
    have hgo : ∀ afterMark, isLineBreak c = false →
        IsSeam (front ++ c :: s) (numeralSize mark afterMark (front.length + 1) s) := by
      intro afterMark hc
      have hm := ih afterMark (front ++ [c])
        (List.forall_mem_append.2 ⟨hf, List.forall_mem_singleton.2 hc⟩)
      rwa [List.append_assoc, List.length_append] at hm
    unfold numeralSize
    split
    · next h =>
      exact hgo _ (isLineBreak_of_class (f := fun c => c = byte '+' || c = byte '-') rfl rfl
        (Bool.and_eq_true_iff.mp h).2)
    split
    · next h => exact hgo _ (isLineBreak_of_class hn hr h)
    split
    · next h =>
      exact hgo _ (isLineBreak_of_class (f := fun c => isHexDigit c || c = byte '.') rfl rfl h)
    · exact isSeam_of_unbroken (List.prefix_append _ _) hf

lemma reads_shortStringEnd {quote : UInt8} (hq : isLineBreak quote = false) (mode : StringMode)
    (size : Nat) (s : Bytes) (hs : c.rest.drop size = s)
    (hre : mode = .plain ∨ mode = .escaped → c.Reads (c.skip size))
    (hi : mode = .inLineBreak → c.Reads (c.skip (size + 1))) :
    c.Reads (c.skip (shortStringEnd quote mode size s).2) := by
  have hr : ∀ {size : Nat} {b : UInt8} {rest : Bytes}, c.rest.drop size = b :: rest →
      c.rest.drop (size + 1) = rest := by
    intro size b rest h
    rw [← List.drop_drop, h]
    rfl
  have hsu : ∀ {size : Nat} {b : UInt8} {rest : Bytes}, c.rest.drop size = b :: rest →
      isLineBreak b = false → c.Reads (c.skip (size + 1)) :=
    fun h hb => reads_skip (isSeam_succ h hb)
  fun_induction shortStringEnd quote mode size s with
  | case1 mode size => exact reads_skip (isSeam_of_next (by simp [hs]))
  | case2 size b rest ih => exact ih (hr hs) (fun _ => hi rfl) (by simp)
  | case3 size b rest mode ih =>
    have hbr := fun hb => (hre (.inr rfl)).lineBreak hs hb
    by_cases hp : isLineBreak b = true ∧ lineBreakSize b rest = 2
    · have hz : b ≠ byte 'z' := by
        rintro rfl
        cases hp.1
      have hm : mode = .inLineBreak := by simp [mode, hz, hp]
      have ht := hbr hp.1
      rw [hp.2] at ht
      exact ih (hr hs) (by simp [hm]) fun _ => ht
    · have hm : mode ≠ .inLineBreak := by
        simp only [mode, Bool.and_eq_true, decide_eq_true_eq, if_neg hp]
        split <;> simp
      refine ih (hr hs) (fun _ => ?_) fun h => absurd h hm
      cases hb : isLineBreak b with
      | false => exact hsu hs hb
      | true =>
        rcases lineBreakSize_cases b rest with ⟨hsi, -⟩ | ⟨hsi, -⟩
        · rw [← hsi]
          exact hbr hb
        · exact absurd ⟨hb, hsi⟩ hp
  | case4 mode size b rest _ _ hsp ih => exact ih (hr hs) (by simp) (by simp)
  | case5 mode size rest _ _ _ => exact hsu hs hq
  | case6 mode size b rest hn he hsp _ hb =>
    refine (hre ?_).lineBreak hs hb
    have : isSpace b = true := by
      rcases isLineBreak_iff.mp hb with rfl | rfl <;> rfl
    cases mode <;> simp_all
  | case7 mode size rest _ _ _ _ hb ih => exact ih (hr hs) (fun _ => hsu hs (by decide)) (by simp)
  | case8 mode size b rest _ _ _ _ hb _ ih =>
    exact ih (hr hs) (fun _ => hsu hs (by simpa using hb)) (by simp)

lemma isSeam_numeral (hb : isLineBreak b = false) :
    IsSeam (b :: rest) (numeral (b :: rest)).size := by
  simp only [numeral]
  split
  · next rest' hc =>
    rw [Numeral.cutHexMark?_eq_some_iff] at hc
    have ht : IsSeam (b :: rest) (numeralSize isHexMark false 2 rest') := by
      rcases hc with heq | heq <;> rw [heq] <;>
        exact isSeam_numeralSize rfl rfl false [_, _] rest'
          (List.forall_mem_cons.2 ⟨rfl, List.forall_mem_singleton.2 rfl⟩)
    split <;> exact ht
  · have ho : IsSeam (b :: rest) (numeralSize isDecimalMark false 1 rest) :=
      isSeam_numeralSize rfl rfl false [b] rest (by simpa using hb)
    split <;> exact ho

lemma isSeam_long (kind : TokenKind) (level : Nat) (opening body : Bytes) :
    IsSeam (opening ++ body) (long kind level opening.length body).size := by
  by_cases h : longBracket ']' level <:+: body
  · obtain ⟨before, after, hf⟩ := exists_closesFirst h
    have hs : opening ++ body =
        opening ++ before ++ byte ']' :: List.replicate level (byte '=') ++ byte ']' :: after := by
      rw [hf.split]
      simp [longBracket]
    rw [long_closed kind _ hf, hs]
    refine isSeam_succ (List.drop_left' ?_) (by decide)
    simp [Nat.add_assoc]
  · rw [long_open kind _ h]
    exact isSeam_of_next (by simp)

lemma isSeam_sign (hb : isLineBreak b = false) : IsSeam (b :: rest) (sign b rest).size := by
  unfold sign
  split
  · next s hs =>
    have ha : signs.all (fun s => s.all fun a => !isLineBreak a) = true := by decide
    have hu := List.all_eq_true.mp ha s (List.mem_of_find?_eq_some hs)
    have hst : Bytes.startsWith (b :: rest) s = true := List.find?_some hs
    obtain ⟨rest', hc⟩ := Option.isSome_iff_exists.mp hst
    refine isSeam_of_unbroken ⟨rest', ?_⟩ (by simpa using hu)
    exact (Bytes.cut?_eq_some_iff.mp hc).symm
  · exact isSeam_of_unbroken (w := [b]) (by simp) (by simpa using hb)

lemma isSeam_comment (body : Bytes) :
    IsSeam (byte '-' :: byte '-' :: body) (comment body).size := by
  by_cases h : ∃ level after, body = longBracket '[' level ++ after
  · obtain ⟨level, after, rfl⟩ := h
    have hs := isSeam_long .comment level (byte '-' :: byte '-' :: longBracket '[' level) after
    rw [List.length_cons, List.length_cons, length_longBracket] at hs
    rw [longBracket_append, comment_longBracket, ← longBracket_append]
    exact hs
  · rw [comment_short h]
    refine isSeam_of_unbroken (w := byte '-' :: byte '-' :: body.takeWhile fun c => !isLineBreak c)
      (by simpa using List.takeWhile_prefix _) ?_
    intro a ha
    rcases List.mem_cons.mp ha with rfl | ha
    · rfl
    rcases List.mem_cons.mp ha with rfl | ha
    · rfl
    · simpa using List.mem_takeWhile_imp ha

lemma size_shortString (quote : UInt8) (body : Bytes) :
    (shortString quote body).size = (shortStringEnd quote .plain 1 body).2 := by
  unfold shortString
  split
  · next heq => rw [heq]
  · next heq => rw [heq]
  · next heq =>
    rw [heq]
    simp only
    split <;> rfl

lemma reads_read (hb : isSpace b = false) (rest : Bytes) (p : Position) :
    Reads ⟨b :: rest, p⟩ (skip ⟨b :: rest, p⟩ (read b rest).size) := by
  have hbr : isLineBreak b = false :=
    isLineBreak_of_class (f := fun b => !isSpace b) rfl rfl (by simpa using hb)
  unfold read
  split
  · next hc =>
    simp only [Bool.and_eq_true, decide_eq_true_eq] at hc
    obtain ⟨body, hbo⟩ := Option.isSome_iff_exists.mp hc.2
    rw [Bytes.cut?_eq_some_iff] at hbo
    subst hbo
    rw [hc.1]
    exact reads_skip (isSeam_comment body)
  unfold plain
  split
  · refine reads_skip (isSeam_of_unbroken (w := b :: rest.takeWhile isNamePart)
      (by simpa using List.takeWhile_prefix _) ?_)
    refine List.forall_mem_cons.2 ⟨hbr, fun a ha => ?_⟩
    exact isLineBreak_of_class rfl rfl (List.mem_takeWhile_imp ha)
  split
  · exact reads_skip (isSeam_numeral hbr)
  split
  · have he := reads_shortStringEnd (c := ⟨b :: rest, p⟩) hbr .plain 1 rest rfl
      (fun _ => reads_skip (isSeam_succ (n := 0) rfl hbr)) (by simp)
    rw [size_shortString]
    exact he
  split
  · next hc =>
    subst hc
    split
    · next level heq =>
      obtain ⟨level, after, hl, rfl⟩ := eq_of_longOpen heq
      rw [Nat.zero_add] at hl
      subst hl
      have hs := isSeam_long .string level (longBracket '[' level) after
      rw [length_longBracket, longBracket_append] at hs
      rw [drop_opening]
      exact reads_skip hs
    · exact reads_skip (isSeam_sign hbr)
    · exact reads_skip (isSeam_of_unbroken (w := [byte '[']) (by simp)
        (List.forall_mem_singleton.2 rfl))
  · exact reads_skip (isSeam_sign hbr)

lemma drop_of_shortStringEnd_closed {quote : UInt8} {mode : StringMode} {size : Nat}
    (h : shortStringEnd quote mode size s = (.closed, n)) :
    size < n ∧ ∃ after, s.drop (n - size - 1) = quote :: after := by
  fun_induction shortStringEnd quote mode size s with
  | case1 | case6 => cases h
  | case5 mode size rest =>
    cases h
    exact ⟨Nat.lt_succ_self _, rest, by simp⟩
  | case2 size _ _ ih | case3 size _ _ _ ih | case4 _ size _ _ _ _ _ ih
  | case7 _ size _ _ _ _ _ _ ih | case8 _ size _ _ _ _ _ _ _ _ ih =>
    obtain ⟨hlt, after, ha⟩ := ih h
    refine ⟨by omega, after, ?_⟩
    rw [show n - size - 1 = n - (size + 1) - 1 + 1 by omega]
    exact ha

end Lexeme

lemma Escape.decodeFrom_error {skip offset : Nat} {done : Bytes} {e : EscapeError}
    (h : decodeFrom skip offset done s = .error (n, e)) :
    offset ≤ n ∧ ∃ tail, s.drop (n - offset) = byte '\\' :: tail ∧ read tail = .error e := by
  fun_induction decodeFrom skip offset done s with
  | case1 => cases h
  | case3 offset done rest e' he =>
    cases h
    exact ⟨.refl, rest, by simp, he⟩
  | case2 _ offset _ _ _ ih | case4 offset _ _ _ _ _ ih | case5 offset _ _ _ _ ih =>
    obtain ⟨hle, tail, ht, he⟩ := ih h
    refine ⟨by omega, tail, ?_, he⟩
    rw [show n - offset = n - (offset + 1) + 1 by omega]
    exact ht

lemma Lexeme.read_escape {before : Nat} (h : (read b rest).result = .fault before (.escape cause)) :
    (b = byte '\'' ∨ b = byte '"') ∧
      ∃ raw after n, rest = raw ++ b :: after ∧ unescape raw = .error (n, cause) ∧
        before = n + 1 := by
  unfold read at h
  split at h
  · revert h
    simp only [comment, Lexeme.long, shortComment]
    repeat' split
    all_goals rintro ⟨⟩
  unfold plain at h
  split at h
  · cases h
  split at h
  · revert h
    simp only [numeral]
    repeat' split
    all_goals rintro ⟨⟩
  split at h
  · next hb =>
    refine ⟨by simpa using hb, ?_⟩
    simp only [shortString] at h
    split at h
    · cases h
    · cases h
    · next size hc =>
      split at h
      · cases h
      · next n cause' hr =>
        cases h
        obtain ⟨hlt, after, ha⟩ := drop_of_shortStringEnd_closed hc
        refine ⟨_, after, n, ?_, hr, rfl⟩
        rw [← ha, Nat.sub_sub, List.take_append_drop]
  · revert h
    simp only [Lexeme.long, sign]
    repeat' split
    all_goals rintro ⟨⟩

namespace Cursor

lemma skipSpaces_eq (c : Cursor) : c.skipSpaces = c.skip (c.rest.takeWhile isSpace).length := by
  obtain ⟨rest, p⟩ := c
  have hsp : rest.takeWhile isSpace ++ rest.dropWhile isSpace = rest :=
    List.takeWhile_append_dropWhile
  have hs := skip_append (rest.takeWhile isSpace) (rest.dropWhile isSpace) p
  rw [hsp] at hs
  exact hs.symm

lemma not_isSpace_of_skipSpaces (h : c.skipSpaces.rest = b :: rest) : isSpace b = false := by
  have hh := List.head?_dropWhile_not isSpace c.rest
  rw [show c.rest.dropWhile isSpace = b :: rest from h] at hh
  simpa using hh

lemma reads_skipSpaces (c : Cursor) : c.Reads c.skipSpaces := by
  have hr : c.rest.drop (c.rest.takeWhile isSpace).length = c.skipSpaces.rest := by
    rw [skipSpaces_eq]
    rfl
  rw [skipSpaces_eq]
  refine reads_skip (isSeam_of_next fun b hb => ?_)
  obtain ⟨rest, hb⟩ := List.head?_eq_some_iff.mp hb
  exact isLineBreak_of_class (f := fun b => !isSpace b) rfl rfl
    (by rw [not_isSpace_of_skipSpaces (hr ▸ hb)]; rfl)

lemma reads_next (c : Cursor) : c.Reads c.next.2 := by
  refine c.reads_skipSpaces.trans ?_
  simp only [next]
  split
  · exact .refl
  · next b rest hre =>
    have hr := Lexeme.reads_read (not_isSpace_of_skipSpaces hre) rest c.skipSpaces.pos
    have hc : c.skipSpaces = ⟨b :: rest, c.skipSpaces.pos⟩ := by rw [← hre]
    rw [← hc] at hr
    rw [element_snd]
    exact hr

/-- A string starts behind the spaces, and the escape behind the first `n` bytes of its body cannot
be read. -/
def FailsToEscape (c : Cursor) (n : Nat) (cause : EscapeError) : Prop :=
  ∃ quote raw after tail, (quote = byte '\'' ∨ quote = byte '"') ∧
    c.skipSpaces.rest = quote :: (raw ++ quote :: after) ∧ unescape raw = .error (n, cause) ∧
    raw.drop n = byte '\\' :: tail ∧ Escape.read tail = .error cause

lemma FailsToEscape.backslash (h : c.FailsToEscape n cause) :
    ∃ tail, c.skipSpaces.rest.drop (n + 1) = byte '\\' :: tail := by
  obtain ⟨quote, raw, after, tail, -, hr, -, ht, -⟩ := h
  have hn : n ≤ raw.length := by
    by_contra hlt
    rw [List.drop_of_length_le (by omega)] at ht
    cases ht
  refine ⟨tail ++ quote :: after, ?_⟩
  rw [hr, List.drop_succ_cons, List.drop_append_of_le_length hn, ht]
  rfl

lemma next_escape {span : Span} {pos : Position} (h : c.next.1 = .fault span ⟨pos, .escape cause⟩) :
    ∃ n, c.FailsToEscape n cause ∧ pos = (c.skipSpaces.skip (n + 1)).pos := by
  simp only [next, element] at h
  split at h
  · cases h
  · next b rest hrest =>
    split at h
    · cases h
    · next before cause' hre =>
      cases h
      obtain ⟨hb, raw, after, n, rfl, hr, rfl⟩ := Lexeme.read_escape hre
      obtain ⟨-, tail, ht, he⟩ := Escape.decodeFrom_error hr
      exact ⟨n, ⟨b, raw, after, tail, hb, hrest, hr, ht, he⟩, rfl⟩

lemma Reads.eq_skip {c c' : Cursor} (h : Reads c c') :
    c' = c.skip (c.rest.length - c'.rest.length) := by
  rcases h.takes with rfl | ⟨k, hk⟩
  · rw [Nat.sub_self, skip_zero]
  · have hle := hk.le
    rw [hk.rest, List.length_drop, show c.rest.length - (c.rest.length - k) = k by omega,
      hk.eq_skip]

lemma Reads.length_le {c c' : Cursor} (h : Reads c c') : c'.rest.length ≤ c.rest.length := by
  rw [h.eq_skip]
  exact (List.drop_suffix _ _).length_le

lemma Reads.before {c a b : Cursor} (ha : Reads c a) (hb : Reads c b)
    (hlt : b.rest.length < a.rest.length) : a.pos.Before b.pos := by
  rcases ha.total_of_right_unique step_unique hb with h | h
  · rcases Reads.takes h with rfl | ⟨k, hk⟩
    · exact absurd hlt (Nat.lt_irrefl _)
    · exact hk.before
  · exact absurd hlt (Nat.not_lt.mpr (Reads.length_le h))

end Cursor

namespace Scanner

inductive Call where
  | next
  | peek
  | mark
  | restore
  | release
  deriving DecidableEq, Repr

def call (s : Scanner) : Call → Option Scanner
  | .next => some s.next.2
  | .peek => s.afterPeek?
  | .mark => some s.mark
  | .restore => s.restore?
  | .release => s.release?

def run? (src : Bytes) (calls : List Call) : Option Scanner := calls.foldlM call (ofSource src)

def Stands (src : Bytes) (s : Scanner) : Prop :=
  ∀ c ∈ s.cursor :: s.marks, (Cursor.ofSource src).Reads c

variable {src : Bytes} {s s' : Scanner}

lemma Stands.call {k : Call} (h : s.Stands src) (hk : s.call k = some s') : s'.Stands src := by
  have hcu := h s.cursor (by simp)
  cases k with
  | next =>
    rw [Scanner.call, next_eq] at hk
    cases hk
    exact List.forall_mem_cons.2 ⟨hcu.trans s.cursor.reads_next, fun c hc => h c (.tail _ hc)⟩
  | peek =>
    rw [Scanner.call, afterPeek?_eq] at hk
    cases hk
    exact h
  | mark =>
    cases hk
    exact List.forall_mem_cons.2 ⟨hcu, h⟩
  | restore =>
    simp only [Scanner.call, restore?] at hk
    split at hk
    · cases hk
    · cases hk
      exact fun c hc => h c (by simp_all)
  | release =>
    simp only [Scanner.call, release?] at hk
    split at hk
    · cases hk
    · cases hk
      exact fun c hc => h c (by simp_all; tauto)

lemma Stands.run (h : s.Stands src) (hr : calls.foldlM Scanner.call s = some s') :
    s'.Stands src := by
  induction calls generalizing s with
  | nil =>
    cases hr
    exact h
  | cons k calls ih =>
    obtain ⟨s1, hk, hr⟩ := Option.bind_eq_some_iff.mp hr
    exact ih (h.call hk) hr

lemma stands_of_run? (h : run? src calls = some s) : s.Stands src :=
  Stands.run (s := ofSource src) (fun c hc => by cases List.mem_singleton.mp hc; exact .refl) h

/-- The position is that of the bytes that are read, it grows with their number, and an escape that
cannot be read is reported at its backslash. -/
theorem pos_of_run? {calls : List Call} (h : run? src calls = some s) :
    s.cursor = ⟨src.drop (s.offset src), Position.first.advance (src.take (s.offset src))⟩ ∧
      (∀ calls' s', run? src calls' = some s' → s.offset src < s'.offset src →
        s.cursor.pos.Before s'.cursor.pos) ∧
      ∀ span pos cause, s.next.1 = .fault span ⟨pos, .escape cause⟩ →
        ∃ n, s.cursor.FailsToEscape n cause ∧
          let k := s.start src + 1 + n
          pos = Position.first.advance (src.take k) ∧
            (Cursor.ofSource src).Reads ⟨src.drop k, pos⟩ := by
  have hreads := stands_of_run? h s.cursor (.head _)
  refine ⟨hreads.eq_skip, ?_, ?_⟩
  · intro calls' s' h' hlt
    refine hreads.before (stands_of_run? h' s'.cursor (.head _)) ?_
    unfold offset at hlt
    omega
  · intro span pos cause hfault
    rw [next_eq] at hfault
    obtain ⟨n, hfails, rfl⟩ := Cursor.next_escape hfault
    obtain ⟨tail, htail⟩ := hfails.backslash
    refine ⟨n, hfails, ?_⟩
    have hstart := hreads.trans s.cursor.reads_skipSpaces
    have hslash : (Cursor.ofSource src).Reads (s.cursor.skipSpaces.skip (n + 1)) := by
      refine hstart.trans (Cursor.reads_skip (Cursor.isSeam_of_next ?_))
      rw [htail]
      rintro _ ⟨⟩
      rfl
    have hk : src.length - (s.cursor.skipSpaces.skip (n + 1)).rest.length =
        s.start src + 1 + n := by
      have hlength : (s.cursor.skipSpaces.skip (n + 1)).rest.length =
          s.cursor.skipSpaces.rest.length - (n + 1) := List.length_drop
      have hpos := congrArg List.length htail
      have hle : s.cursor.skipSpaces.rest.length ≤ src.length := Cursor.Reads.length_le hstart
      rw [List.length_drop, List.length_cons] at hpos
      rw [hlength, start]
      omega
    have hskip := Cursor.Reads.eq_skip hslash
    rw [show (Cursor.ofSource src).rest = src from rfl, hk] at hskip
    rw [hskip] at hslash ⊢
    exact ⟨rfl, hslash⟩

def strayEscape : Bytes := "\t'\\\r\n\\q' x"

theorem pos_of_run?_strayEscape : ∃ s t, run? strayEscape [.mark, .next, .restore] = some s ∧
    run? strayEscape [.peek, .next] = some t ∧ s.cursor.pos.Before t.cursor.pos ∧
    ∃ n, s.cursor.FailsToEscape n .unknown ∧
      (⟨2, 1⟩ : Position) =
        Position.first.advance (strayEscape.take (s.start strayEscape + 1 + n)) := by
  have hs : run? strayEscape [.mark, .next, .restore] = some (ofSource strayEscape) := rfl
  obtain ⟨-, hbefore, hescape⟩ := pos_of_run? hs
  refine ⟨_, _, hs, rfl, hbefore [.peek, .next] _ rfl (by decide), ?_⟩
  obtain ⟨n, hfails, hpos, -⟩ := hescape _ _ _ rfl
  exact ⟨n, hfails, hpos⟩

end Scanner

end LuaBytecode
