import LuaBytecode.Grammar.Stream
import LuaBytecode.Proofs.Tree.Children
import Mathlib.Data.List.TakeWhile
import Mathlib.Order.Basic

namespace LuaBytecode

variable {es : List Scanned} {s : Bytes} {p : Position} {c : Cursor}

instance : Preorder Position where
  le p q := p.line < q.line ∨ p.line = q.line ∧ p.column ≤ q.column
  le_refl _ := .inr ⟨rfl, Int.le_refl _⟩
  le_trans p q r h h' := by omega

lemma Position.le_nextColumn (p : Position) (b : UInt8) : p ≤ p.nextColumn b := by
  unfold nextColumn
  split
  · refine .inr ⟨rfl, ?_⟩
    simp only
    omega
  · exact .inr ⟨rfl, Int.le_of_lt (Int.lt_succ _)⟩

lemma Position.le_advance (p : Position) (text : Bytes) : p ≤ p.advance text := by
  have hf : ∀ skip, p ≤ p.advanceFrom skip text := by
    induction text generalizing p with
    | nil => exact fun _ => le_rfl
    | cons b rest ih =>
      rintro (_ | skip)
      · rw [advanceFrom]
        split
        · exact le_trans (.inl (Int.lt_succ _)) (ih p.nextLine _)
        · exact le_trans (p.le_nextColumn b) (ih (p.nextColumn b) 0)
      · exact ih p skip
  exact hf 0

namespace Token

def Proper (t : Token) : Prop :=
  match t.kind with
  | .number => (parseNumeral? t.value).isSome
  | .string => (stringValue t.value t.long).isOk
  | .name => isHidden t.value = false ∧ (stringValue t.value false).isOk
  | .nil => t.value = "nil"
  | .boolean => t.value = "true" ∨ t.value = "false"
  | .eof | .error => False
  | _ => True

inductive InOrder : Position → List Token → Prop
  | last {p t} : p ≤ t.span.start → t.span.start ≤ t.span.stop → t.kind = .eof ∨ t.kind = .error →
      InOrder p [t]
  | cons {p t ts} : p ≤ t.span.start → t.span.start ≤ t.span.stop → t.Proper →
      InOrder t.span.stop ts → InOrder p (t :: ts)

variable {q : Position} {t : Token} {ts : List Token}

lemma Proper.kind (h : t.Proper) : t.kind ≠ .eof ∧ t.kind ≠ .error := by
  constructor <;> intro hk <;> simp [Proper, hk] at h

lemma InOrder.head (h : InOrder p (t :: ts)) :
    p ≤ t.span.start ∧ t.span.start ≤ t.span.stop ∧
      (t.kind = .eof ∨ t.kind = .error ∨ t.Proper) := by
  cases h with
  | last hp hs hk => exact ⟨hp, hs, hk.imp_right .inl⟩
  | cons hp hs hpr _ => exact ⟨hp, hs, .inr (.inr hpr)⟩

lemma InOrder.of_le (hle : p ≤ q) (h : InOrder q ts) : InOrder p ts := by
  cases h with
  | last hq hs hk => exact .last (hle.trans hq) hs hk
  | cons hq hs hp hts => exact .cons (hle.trans hq) hs hp hts

lemma InOrder.ended (h : InOrder p ts) : ∃ init last, ts = init ++ [last] ∧
    (last.kind = .eof ∨ last.kind = .error) ∧ ∀ t ∈ init, t.Proper := by
  induction h with
  | @last _ t _ _ hk => exact ⟨[], t, rfl, hk, nofun⟩
  | @cons _ t _ _ _ hp _ ih =>
    obtain ⟨init, last, rfl, hk, hi⟩ := ih
    exact ⟨t :: init, last, rfl, hk, List.forall_mem_cons.mpr ⟨hp, hi⟩⟩

end Token

namespace Lexeme

lemma le_numeralSize (mark : UInt8 → Bool) (afterMark : Bool) (size : Nat) (s : Bytes) :
    size ≤ numeralSize mark afterMark size s := by
  fun_induction numeralSize mark afterMark size s with
  | case1 => exact .refl
  | case2 _ _ _ _ _ ih | case3 _ _ _ _ _ _ ih | case4 _ _ _ _ _ _ _ ih => omega
  | case5 => exact .refl

lemma le_shortStringEnd (quote : UInt8) (mode : StringMode) (size : Nat) (s : Bytes) :
    size ≤ (shortStringEnd quote mode size s).2 := by
  fun_induction shortStringEnd quote mode size s <;> omega

lemma le_longBody (level skip : Nat) (done : Bytes) (size : Nat) (s : Bytes) :
    size ≤ (longBody level skip done size s).2 := by
  fun_induction longBody level skip done size s <;> omega

lemma length_pos_of_mem_signs (h : s ∈ signs) : 0 < s.length := by
  have ha : ∀ s ∈ signs, 0 < s.length := by decide
  exact ha s h

lemma size_sign_pos (c : UInt8) (rest : Bytes) : 0 < (sign c rest).size := by
  unfold sign
  split
  · next s hs => exact length_pos_of_mem_signs (List.mem_of_find?_eq_some hs)
  · exact Nat.one_pos

lemma size_long_pos {kind : TokenKind} {level opened : Nat} {body : Bytes} (h : 0 < opened) :
    0 < (long kind level opened body).size := by
  have hle := le_longBody level (leadingBreak body) [] opened body
  unfold long
  split <;> next heq => rw [heq] at hle; exact Nat.lt_of_lt_of_le h hle

lemma size_comment_pos (body : Bytes) : 0 < (comment body).size := by
  unfold comment
  split
  · split
    · split
      · exact size_long_pos (by omega)
      · exact Nat.succ_pos _
    · exact Nat.succ_pos _
  · exact Nat.succ_pos _

lemma size_shortString_pos (quote : UInt8) (body : Bytes) : 0 < (shortString quote body).size := by
  have hle := le_shortStringEnd quote .plain 1 body
  unfold shortString
  split
  · next heq => rw [heq] at hle; exact hle
  · next heq => rw [heq] at hle; exact hle
  · next heq =>
    rw [heq] at hle
    simp only
    split <;> exact hle

lemma size_numeral_pos (text : Bytes) : 0 < (numeral text).size := by
  simp only [numeral]
  split
  · next rest _ =>
    have hle := le_numeralSize isHexMark false 2 rest
    split <;> exact Nat.lt_of_lt_of_le Nat.two_pos hle
  · have hle := le_numeralSize isDecimalMark false 1 (text.drop 1)
    split <;> exact hle

lemma size_read_pos (c : UInt8) (rest : Bytes) : 0 < (read c rest).size := by
  unfold read
  split
  · exact size_comment_pos _
  unfold plain
  split
  · exact Nat.succ_pos _
  · split
    · exact size_numeral_pos _
    · split
      · exact size_shortString_pos _ _
      · split
        · split
          · exact size_long_pos (by omega)
          · exact size_sign_pos _ _
          · exact Nat.one_pos
        · exact size_sign_pos _ _

end Lexeme

lemma unescape_plain (h : ∀ b ∈ s, b ≠ byte '\\') : unescape s = .ok s := by
  have hf : ∀ offset done, Escape.decodeFrom 0 offset done s = .ok (done.reverse ++ s) := by
    induction s with
    | nil => simp [Escape.decodeFrom]
    | cons b s ih =>
      obtain ⟨hb, hs⟩ := List.forall_mem_cons.mp h
      intro offset done
      rw [Escape.decodeFrom, if_neg hb, ih hs]
      simp
  exact hf 0 []

lemma wordKind_proper {word : Bytes} (h : ∀ b ∈ word, isNamePart b = true) (span : Span) :
    Token.Proper ⟨wordKind word, span, word, false⟩ := by
  have hp : (stringValue word false).isOk = true := by
    rw [stringValue, unescape_plain]
    · rfl
    · rintro b hb rfl
      exact Bool.false_ne_true (h _ hb)
  have hh : isHidden word = false := by
    refine decide_eq_false fun hhe => ?_
    exact Bool.false_ne_true (h _ (List.mem_of_mem_head? hhe))
  unfold wordKind
  split
  · next hn => exact beq_iff_eq.mp hn
  · split
    · next hbo => simpa [Token.Proper] using hbo
    · split
      · trivial
      · exact ⟨hh, hp⟩

lemma Lexeme.read_proper {c : UInt8} {rest value : Bytes} {kind : TokenKind} {long : Bool}
    (h : (read c rest).result = .token kind value long) (span : Span) :
    Token.Proper ⟨kind, span, value, long⟩ := by
  unfold read at h
  split at h
  · revert h
    simp only [comment, Lexeme.long, shortComment]
    repeat' split
    all_goals rintro ⟨⟩
    all_goals trivial
  unfold plain at h
  split at h
  · next hc =>
    cases h
    refine wordKind_proper (List.forall_mem_cons.mpr ⟨?_, fun b hb => ?_⟩) span
    · simp only [isNameStart, Bool.or_eq_true] at hc
      simp only [isNamePart, Bool.or_eq_true]
      exact hc.imp_left .inl
    · exact List.mem_takeWhile_imp hb
  · revert h
    simp only [numeral, shortString, Lexeme.long, sign]
    repeat' split
    all_goals rintro ⟨⟩
    all_goals first
      | trivial
      | assumption
      | simp [Token.Proper, stringValue, *, Except.mapError, Except.isOk, Except.toBool]

lemma Lexeme.read_ne_noMark {c : UInt8} {rest : Bytes} {before : Nat} {cause : LexicalCause}
    (h : (read c rest).result = .fault before cause) : cause ≠ .noMark := by
  revert h
  simp only [read, comment, plain, numeral, shortString, Lexeme.long, shortComment, sign]
  repeat' split
  all_goals rintro ⟨⟩
  all_goals exact LexicalCause.noConfusion

def Scanned.goesOn : Scanned → Bool
  | .token t => t.kind ≠ .eof
  | .fault .. => true

def Scanned.isComment : Scanned → Bool
  | .token t => t.kind = .comment
  | .fault .. => false

namespace Cursor

variable {t : Token}

lemma next_lt (h : c.next.1.goesOn = true) : c.next.2.rest.length < c.rest.length := by
  have hs : c.skipSpaces.rest.length ≤ c.rest.length := (List.dropWhile_sublist _).length_le
  revert h
  simp only [next]
  split
  · simp [Scanned.goesOn]
  · next b rest hr =>
    have hp := Lexeme.size_read_pos b rest
    rw [hr, List.length_cons] at hs
    intro _
    simp only [element_snd, skip, hr, List.length_drop, List.length_cons]
    omega

lemma next_token (h : c.next.1 = .token t) :
    c.pos ≤ t.span.start ∧ t.span.start ≤ t.span.stop ∧ t.span.stop = c.next.2.pos ∧
      (t.kind ≠ .eof → t.Proper) := by
  have hs : c.pos ≤ c.skipSpaces.pos := Position.le_advance _ _
  simp only [next, element] at h ⊢
  split at h
  · cases h
    exact ⟨hs, le_rfl, rfl, fun hk => absurd rfl hk⟩
  · split at h <;> cases h
    next hr => exact ⟨hs, Position.le_advance _ _, rfl, fun _ => Lexeme.read_proper hr _⟩

lemma next_fault {span : Span} {e : LexicalError} (h : c.next.1 = .fault span e) :
    c.pos ≤ span.stop ∧ e.cause ≠ .noMark := by
  simp only [next, element] at h
  split at h
  · cases h
  · split at h <;> cases h
    next hr => exact ⟨(Position.le_advance _ _).trans (Position.le_advance _ _),
      Lexeme.read_ne_noMark hr⟩

inductive Scans : Cursor → List Scanned → Prop
  | last {c : Cursor} {t : Token} : c.next.1 = .token t → t.kind = .eof → Scans c [.token t]
  | cons {c : Cursor} {es : List Scanned} : c.next.1.goesOn = true → Scans c.next.2 es →
      Scans c (c.next.1 :: es)

lemma exists_scans {s : Scanner} {fuel : Nat} (h : s.cursor.rest.length < fuel)
    (done : List Scanned) :
    ∃ es, s.elementsFrom fuel done = done.reverse ++ es ∧ s.cursor.Scans es := by
  induction fuel generalizing s done with
  | zero => cases h
  | succ fuel ih =>
    obtain ⟨c, marks⟩ := s
    have hm : c.next.1.goesOn = true → ∃ es, Scanner.elementsFrom fuel (c.next.1 :: done)
        ⟨c.next.2, marks⟩ = done.reverse ++ es ∧ c.Scans es := by
      intro hg
      have hlt := next_lt hg
      dsimp only at h
      obtain ⟨es, heq, hes⟩ := ih (s := ⟨c.next.2, marks⟩) (by dsimp only; omega) (c.next.1 :: done)
      exact ⟨c.next.1 :: es, by simp [heq], .cons hg hes⟩
    simp only [Scanner.elementsFrom, Scanner.next_eq]
    split
    · next t ht =>
      split
      · next hk => exact ⟨[.token t], by simp [ht], .last ht hk⟩
      · next hk => exact hm (by simp [ht, Scanned.goesOn, hk])
    · next ht => exact hm (by simp [ht, Scanned.goesOn])

lemma scans_elements (src : Bytes) : (ofSource src).Scans (elements src) := by
  obtain ⟨es, heq, hes⟩ := exists_scans (s := .ofSource src) (Nat.lt_succ_self src.length) []
  rw [elements, heq]
  exact hes

lemma Scans.length_le (h : c.Scans es) : es.length ≤ c.rest.length + 1 := by
  induction h with
  | last => simp
  | cons hg _ ih =>
    have hlt := next_lt hg
    rw [List.length_cons]
    omega

end Cursor

namespace TokenStream

lemma collect_inOrder (h : c.Scans es) (hp : p ≤ c.pos) (done : List Token) :
    ∃ ts, (collect done es).1 = done.reverse ++ ts ∧
      Token.InOrder p ts ∧ ts.length ≤ es.length ∧ ((∃ t ∈ ts, t.kind = .error) ∨
        es.filter (fun s => !s.isComment) = ts.map .token) := by
  induction h generalizing p done with
  | @last c t ht hk =>
    obtain ⟨hs, hsp, -⟩ := Cursor.next_token ht
    refine ⟨[t], by simp [collect, hk], .last (hp.trans hs) hsp (.inl hk), by simp, .inr ?_⟩
    simp [Scanned.isComment, hk]
  | @cons c es hg _ ih =>
    cases hn : c.next.1 with
    | fault span e =>
      refine ⟨[{ kind := .error, span := .at span.stop }], by simp [collect], ?_, by simp, ?_⟩
      · exact .last (hp.trans (Cursor.next_fault hn).1) le_rfl (.inr rfl)
      · exact .inl ⟨_, List.mem_singleton_self _, rfl⟩
    | token t =>
      obtain ⟨hs, hsp, hst, hpr⟩ := Cursor.next_token hn
      have hk : t.kind ≠ .eof := by simpa [hn, Scanned.goesOn] using hg
      by_cases hc : t.kind = .comment
      · obtain ⟨ts, heq, hts, hle, hl⟩ := ih (hp.trans (hs.trans (hsp.trans hst.le))) done
        refine ⟨ts, by simp [collect, hc, heq], hts, Nat.le_succ_of_le hle, ?_⟩
        simpa [Scanned.isComment, hc] using hl
      · obtain ⟨ts, heq, hts, hle, hl⟩ := ih hst.le (t :: done)
        refine ⟨t :: ts, by simp [collect, hc, heq], ?_, Nat.succ_le_succ hle, ?_⟩
        · exact .cons (hp.trans hs) hsp (hpr hk) hts
        · refine hl.imp (fun ⟨t', ht', hk'⟩ => ⟨t', .tail _ ht', hk'⟩) fun hf => ?_
          rw [List.filter_cons_of_pos (by simp [Scanned.isComment, hc]), hf, List.map_cons]

lemma collect_cause {c : Cursor} {es : List Scanned} (h : c.Scans es) (done : List Token)
    {e : LexicalError} (he : (collect done es).2 = some e) : e.cause ≠ .noMark := by
  induction h generalizing done with
  | @last c t _ hk => simp [collect, hk] at he
  | @cons c es _ _ ih =>
    cases hn : c.next.1 with
    | fault span e' =>
      rw [hn] at he
      cases he
      exact (Cursor.next_fault hn).2
    | token t =>
      rw [hn, collect] at he
      split at he
      · exact ih done he
      · exact ih (t :: done) he

lemma ofSource_failure {src : Bytes} {e : LexicalError} (h : (ofSource src).failure = some e) :
    e.cause ≠ .noMark := by
  refine collect_cause (Cursor.scans_elements src) [] ?_
  unfold ofSource at h
  split at h <;> next hc => rw [hc]; exact h

lemma ofSource_inOrder (src : Bytes) : ∃ ts, (ofSource src).current :: (ofSource src).rest = ts ∧
    Token.InOrder .first ts ∧ ts.length ≤ src.length + 1 ∧ ((∃ t ∈ ts, t.kind = .error) ∨
      (elements src).filter (fun s => !s.isComment) = ts.map .token) := by
  have hs := Cursor.scans_elements src
  obtain ⟨ts, heq, hts, hle, hl⟩ := collect_inOrder hs (p := .first) le_rfl []
  refine ⟨ts, ?_, hts, hle.trans hs.length_le, hl⟩
  unfold ofSource
  split <;> next hc =>
    rw [hc] at heq
    subst heq
    first | rfl | cases hts

end TokenStream

end LuaBytecode
