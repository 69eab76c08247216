import LuaBytecode.Proofs.Grammar.Stream
import Mathlib.Data.Nat.Find

namespace LuaBytecode

variable {c : Cursor} {b : UInt8} {i j k : Nat}

lemma Lexeme.read_ne_eof {c : UInt8} {rest value : Bytes} {kind : TokenKind} {long : Bool}
    (h : (read c rest).result = .token kind value long) : kind ≠ .eof :=
  (read_proper h default).kind.1

namespace Cursor

def atEnd (c : Cursor) : Prop := c.skipSpaces.rest = []

lemma rest_eq_spaces_append (c : Cursor) : c.rest = c.rest.takeWhile isSpace ++ c.skipSpaces.rest :=
  List.takeWhile_append_dropWhile.symm

lemma next_of_atEnd (h : c.atEnd) : c.next.1.goesOn = false ∧ c.next.2 = c.skipSpaces := by
  rw [atEnd] at h
  simp [next, h, Scanned.goesOn]

lemma next_of_not_atEnd (h : ¬c.atEnd) :
    c.next.1.goesOn = true ∧ ∃ k, 0 < k ∧ c.next.2.rest = c.skipSpaces.rest.drop k := by
  cases hr : c.skipSpaces.rest with
  | nil => exact absurd hr h
  | cons b rest =>
    simp only [next, hr]
    refine ⟨?_, _, Lexeme.size_read_pos b rest, by rw [element_snd, skip, hr]⟩
    unfold element
    dsimp only
    split
    · next hre => simpa [Scanned.goesOn] using Lexeme.read_ne_eof hre
    · rfl

lemma atEnd_next (h : c.atEnd) : c.next.2.atEnd := by
  rw [(next_of_atEnd h).2, atEnd, skipSpaces, h]
  rfl

lemma rest_next_suffix (c : Cursor) : c.next.2.rest <:+ c.skipSpaces.rest := by
  by_cases h : c.atEnd
  · have heq : c.next.2.rest = c.skipSpaces.rest := by rw [(next_of_atEnd h).2]
    exact heq ▸ List.suffix_refl _
  · obtain ⟨-, k, -, hk⟩ := next_of_not_atEnd h
    rw [hk]
    exact List.drop_suffix k _

lemma rest_skipSpaces_suffix (c : Cursor) : c.skipSpaces.rest <:+ c.rest := List.dropWhile_suffix _

end Cursor

namespace Scanner

def after (s : Scanner) : Nat → Scanner
  | 0 => s
  | n + 1 => (s.after n).next.2

def offset (src : Bytes) (s : Scanner) : Nat := src.length - s.cursor.rest.length

def start (src : Bytes) (s : Scanner) : Nat := src.length - s.cursor.skipSpaces.rest.length

/-- The first `n` calls take an element each, from where it starts up to what is read after the
call, and share out the source in this way. -/
structure Partitions (src : Bytes) (s : Scanner) (n : Nat) : Prop where
  goesOn : ∀ i, (s.after i).next.1.goesOn = true ↔ i < n
  marks : ∀ i, (s.after i).marks = s.marks
  unread : ∀ i, (s.after i).cursor.rest = src.drop ((s.after i).offset src)
  takes : ∀ i < n, (s.after i).offset src ≤ (s.after i).start src ∧
    (s.after i).start src < (s.after (i + 1)).offset src
  disjoint : ∀ i j, i < j → j < n → (s.after (i + 1)).offset src ≤ (s.after j).start src
  spaces : ∀ k b, src[k]? = some b →
    (∀ i < n, ¬((s.after i).start src ≤ k ∧ k < (s.after (i + 1)).offset src)) → isSpace b = true

lemma marks_after (s : Scanner) (i : Nat) : (s.after i).marks = s.marks := by
  induction i with
  | zero => rfl
  | succ i ih =>
    rw [after, next_eq]
    exact ih

lemma cursor_next (s : Scanner) : s.next.2.cursor = s.cursor.next.2 := by rw [next_eq]

variable {src : Bytes} {s : Scanner}

lemma rest_after_suffix (h : s.cursor.rest <:+ src) (i : Nat) :
    (s.after i).cursor.rest <:+ src := by
  induction i with
  | zero => exact h
  | succ i ih =>
    have hn := (s.after i).cursor.rest_next_suffix
    rw [after, cursor_next]
    exact (hn.trans (Cursor.rest_skipSpaces_suffix _)).trans ih

lemma offset_le_start (s : Scanner) : s.offset src ≤ s.start src := by
  have hle := s.cursor.rest_skipSpaces_suffix.length_le
  rw [offset, start]
  omega

lemma start_le_offset_next (s : Scanner) : s.start src ≤ s.next.2.offset src := by
  have hle := s.cursor.rest_next_suffix.length_le
  rw [start, offset, cursor_next]
  omega

lemma start_lt_offset_next (h : s.cursor.rest <:+ src) (hm : ¬s.cursor.atEnd) :
    s.start src < s.next.2.offset src := by
  obtain ⟨-, k, hk, hr⟩ := Cursor.next_of_not_atEnd hm
  have hl := h.length_le
  have hs := s.cursor.rest_skipSpaces_suffix.length_le
  have hp : 0 < s.cursor.skipSpaces.rest.length := List.length_pos_iff.mpr hm
  have hd : s.cursor.next.2.rest.length = s.cursor.skipSpaces.rest.length - k := by
    rw [hr, List.length_drop]
  rw [start, offset, cursor_next]
  omega

lemma offset_after_mono (s : Scanner) (h : i ≤ j) :
    (s.after i).offset src ≤ (s.after j).offset src := by
  induction h with
  | refl => exact .refl
  | step _ ih =>
    exact (ih.trans (offset_le_start _)).trans (start_le_offset_next _)

lemma isSpace_before_start (h : s.cursor.rest <:+ src) (hb : src[k]? = some b)
    (hl : s.offset src ≤ k) (hh : k < s.start src) : isSpace b = true := by
  have hs := congrArg List.length s.cursor.rest_eq_spaces_append
  rw [List.length_append] at hs
  rw [start] at hh
  have hin : k - s.offset src < (s.cursor.rest.takeWhile isSpace).length := by
    rw [offset] at hl ⊢
    omega
  have hr : s.cursor.rest[k - s.offset src]? = some b := by
    have hd : s.cursor.rest = src.drop (s.offset src) := List.suffix_iff_eq_drop.mp h
    rw [hd, List.getElem?_drop, Nat.add_sub_cancel' hl, hb]
  rw [s.cursor.rest_eq_spaces_append, List.getElem?_append_left hin] at hr
  exact List.mem_takeWhile_imp (List.mem_of_getElem? hr)

lemma atEnd_after_mono (s : Scanner) (h : i ≤ j) (hi : (s.after i).cursor.atEnd) :
    (s.after j).cursor.atEnd := by
  induction h with
  | refl => exact hi
  | step _ ih =>
    rw [after, cursor_next]
    exact Cursor.atEnd_next ih

lemma goesOn_next_iff (s : Scanner) : s.next.1.goesOn = true ↔ ¬s.cursor.atEnd := by
  rw [next_eq]
  by_cases h : s.cursor.atEnd
  · simp [(Cursor.next_of_atEnd h).1, h]
  · simp [(Cursor.next_of_not_atEnd h).1, h]

lemma le_offset_after (h : s.cursor.rest <:+ src) (n : Nat)
    (hm : ∀ i < n, ¬(s.after i).cursor.atEnd) : n ≤ (s.after n).offset src := by
  induction n with
  | zero => exact Nat.zero_le _
  | succ n ih =>
    have hn := ih fun i hi => hm i (Nat.lt_succ_of_lt hi)
    have hs : (s.after n).offset src ≤ (s.after n).start src := offset_le_start _
    have ht := start_lt_offset_next (rest_after_suffix h n) (hm n (Nat.lt_succ_self n))
    exact Nat.lt_of_le_of_lt (hn.trans hs) ht

lemma exists_first_atEnd (h : s.cursor.rest <:+ src) :
    ∃ n ≤ src.length, ∀ i, (s.after i).cursor.atEnd ↔ n ≤ i := by
  classical
  have hex : ∃ i, (s.after i).cursor.atEnd := by
    by_contra hn
    have hle := le_offset_after h (src.length + 1) fun i _ hi => hn ⟨i, hi⟩
    rw [offset] at hle
    omega
  refine ⟨Nat.find hex, ?_, fun i => ⟨fun hi => Nat.find_min' hex hi, fun hi => ?_⟩⟩
  · have hle := le_offset_after h (Nat.find hex) fun i hi => Nat.find_min hex hi
    exact hle.trans (Nat.sub_le _ _)
  · exact s.atEnd_after_mono hi (Nat.find_spec hex)

lemma isSpace_of_uncovered (h : s.cursor.rest <:+ src) (hf : s.offset src = 0)
    (hb : src[k]? = some b) (n : Nat) (hk : k < (s.after n).offset src)
    (ho : ∀ i < n, ¬((s.after i).start src ≤ k ∧ k < (s.after (i + 1)).offset src)) :
    isSpace b = true := by
  induction n with
  | zero =>
    change k < s.offset src at hk
    omega
  | succ n ih =>
    by_cases hl : k < (s.after n).offset src
    · exact ih hl fun i hi => ho i (Nat.lt_succ_of_lt hi)
    · -- The byte is behind all that the calls before took, so it is before what this one takes.
      have hbe : k < (s.after n).start src := by
        by_contra hge
        exact ho n (Nat.lt_succ_self n) ⟨not_lt.mp hge, hk⟩
      exact isSpace_before_start (rest_after_suffix h n) hb (not_lt.mp hl) hbe

theorem next_partitions_source (src : Bytes) (marks : List Cursor) :
    ∃ n ≤ src.length, Partitions src ⟨.ofSource src, marks⟩ n := by
  have hsuffix : (⟨.ofSource src, marks⟩ : Scanner).cursor.rest <:+ src := List.suffix_refl src
  obtain ⟨n, hn, hend⟩ := exists_first_atEnd hsuffix
  generalize hs : (⟨.ofSource src, marks⟩ : Scanner) = s at *
  have hfirst : s.offset src = 0 := by
    rw [← hs]
    exact Nat.sub_self _
  refine ⟨n, hn, ?_, s.marks_after, ?_, ?_, ?_, ?_⟩
  · intro i
    rw [goesOn_next_iff, hend i, not_le]
  · intro i
    exact List.suffix_iff_eq_drop.mp (rest_after_suffix hsuffix i)
  · intro i hi
    refine ⟨offset_le_start _, start_lt_offset_next (rest_after_suffix hsuffix i) ?_⟩
    rw [hend i]
    omega
  · intro i j hij _
    exact (s.offset_after_mono hij).trans (offset_le_start _)
  · intro k b hb hout
    by_cases hk : k < (s.after n).offset src
    · exact isSpace_of_uncovered hsuffix hfirst hb n hk hout
    · have hspaces : (s.after n).start src = src.length := by
        have hnil : (s.after n).cursor.skipSpaces.rest = [] := (hend n).mpr (Nat.le_refl n)
        rw [start, hnil, List.length_nil, Nat.sub_zero]
      have hlt : k < src.length := (List.getElem?_eq_some_iff.mp hb).1
      exact isSpace_before_start (rest_after_suffix hsuffix n) hb (not_lt.mp hk) (by omega)

end Scanner

end LuaBytecode
