import LuaBytecode.Numeral
import LuaBytecode.Proofs.Bits
import Mathlib.Data.Nat.Digits.Defs
import Mathlib.Tactic.Ring

namespace LuaBytecode

variable {n : Nat} {s : Bytes}

namespace Numeral

inductive IsMantissa (digit : UInt8 → Bool) : Bytes → Prop
  | whole {ds : Bytes} (some : ds ≠ []) (digits : ds.all digit) : IsMantissa digit ds
  | pointed {ds fs : Bytes} (some : ds ≠ [] ∨ fs ≠ []) (digits : ds.all digit)
      (fractionDigits : fs.all digit) : IsMantissa digit (ds ++ byte '.' :: fs)

inductive IsExponent (mark : UInt8 → Bool) : Bytes → Prop
  | unsigned {m : UInt8} {ds : Bytes} (marked : mark m) (some : ds ≠ [])
      (digits : ds.all isDigit) : IsExponent mark (m :: ds)
  | signed {m sign : UInt8} {ds : Bytes} (marked : mark m)
      (isSign : sign = byte '+' ∨ sign = byte '-') (some : ds ≠ []) (digits : ds.all isDigit) :
      IsExponent mark (m :: sign :: ds)

def IsUnprefixed (digit mark : UInt8 → Bool) (s : Bytes) : Prop :=
  ∃ m e, s = m ++ e ∧ IsMantissa digit m ∧ (e = [] ∨ IsExponent mark e)

def IsPrefixed (s digits : Bytes) : Prop :=
  s = byte '0' :: byte 'x' :: digits ∨ s = byte '0' :: byte 'X' :: digits

def value (base : Nat) (digits : Bytes) : Nat :=
  Nat.ofDigits base (digits.reverse.map fun c => (hexValue? c).getD 0)

def IsHexInteger (s digits : Bytes) : Prop :=
  IsPrefixed s digits ∧ digits ≠ [] ∧ digits.all isHexDigit

def IsDecimalInteger (s : Bytes) : Prop := s ≠ [] ∧ s.all isDigit ∧ value 10 s ≤ 2 ^ 63 - 1

end Numeral

open Numeral

def IsNumeral (s : Bytes) : Prop := IsUnprefixed isDigit isDecimalMark s ∨
    ∃ rest, IsPrefixed s rest ∧ IsUnprefixed isHexDigit isBinaryMark rest

namespace Numeral

variable {digit mark : UInt8 → Bool} {ds fs rest : Bytes}

lemma hexValue?_of_isDigit {c : UInt8} (h : isDigit c = true) :
    hexValue? c = some (digitValue c) := by
  rw [hexValue?, if_pos h]

lemma span_digits (hds : ds.all digit) (hr : ∀ c ∈ rest.head?, digit c = false) :
    (ds ++ rest).takeWhile digit = ds ∧ (ds ++ rest).dropWhile digit = rest := by
  have ha : ∀ c ∈ ds, digit c = true := List.all_eq_true.mp hds
  rw [List.takeWhile_append_of_pos ha, List.dropWhile_append_of_pos ha]
  cases rest with
  | nil => simp
  | cons c rest => simp [hr c rfl]

lemma exists_digits (digit : UInt8 → Bool) (s : Bytes) : ∃ ds rest, s = ds ++ rest ∧
    ds.all digit = true ∧ ∀ c ∈ rest.head?, digit c = false := by
  refine ⟨s.takeWhile digit, s.dropWhile digit, List.takeWhile_append_dropWhile.symm,
    List.all_takeWhile, ?_⟩
  induction s with
  | nil => simp
  | cons c s ih =>
    by_cases hc : digit c = true
    · simpa [hc] using ih
    · simp [hc]

lemma cutSign_eq (h : ∀ c ∈ s.head?, c ≠ byte '+' ∧ c ≠ byte '-') : cutSign s = (false, s) := by
  cases s with
  | nil => rfl
  | cons c s =>
    obtain ⟨hp, hm⟩ := h c rfl
    rw [cutSign, if_neg hm, if_neg hp]

lemma ne_sign_of_isDigit {c : UInt8} (h : isDigit c = true) : c ≠ byte '+' ∧ c ≠ byte '-' := by
  constructor <;> rintro rfl <;> cases h

lemma isSome_exponentParts?_iff {m : UInt8} (hm : mark m = true) :
    (exponentParts? s).isSome = true ↔ IsExponent mark (m :: s) := by
  constructor
  · intro h
    cases s with
    | nil => cases h
    | cons c ds =>
      by_cases hs : c = byte '+' ∨ c = byte '-'
      · have hc : (cutSign (c :: ds)).2 = ds := by rcases hs with rfl | rfl <;> rfl
        have hok : ds ≠ [] ∧ ds.all isDigit = true := by simpa [exponentParts?, hc] using h
        exact .signed hm hs hok.1 hok.2
      · have hc := cutSign_eq (s := c :: ds) (by simpa [not_or] using hs)
        have hok : (c :: ds).all isDigit = true := by simpa [exponentParts?, hc] using h
        exact .unsigned hm (List.cons_ne_nil c ds) hok
  · intro h
    cases h with
    | unsigned _ hso hds =>
      obtain ⟨c, ds, rfl⟩ := List.exists_cons_of_ne_nil hso
      have hc := cutSign_eq (s := c :: ds) (by simpa using ne_sign_of_isDigit (by simp_all))
      simp_all [exponentParts?]
    | signed _ hs hso hds =>
      rcases hs with rfl | rfl <;> simp_all [exponentParts?, cutSign, byte]

structure Separate (digit mark : UInt8 → Bool) : Prop where
  point : digit (byte '.') = false
  mark : ∀ c, mark c = true → digit c = false ∧ c ≠ byte '.'

lemma separate_decimal : Separate isDigit isDecimalMark := by
  refine ⟨by decide, fun c hc => ?_⟩
  simp only [isDecimalMark, Bool.or_eq_true, decide_eq_true_eq] at hc
  rcases hc with rfl | rfl <;> decide

lemma separate_binary : Separate isHexDigit isBinaryMark := by
  refine ⟨by decide, fun c hc => ?_⟩
  simp only [isBinaryMark, Bool.or_eq_true, decide_eq_true_eq] at hc
  rcases hc with rfl | rfl <;> decide

def withExponent? (mark : UInt8 → Bool) (ds fs : Bytes) : Bytes → Option Parts
  | [] => some ⟨ds, fs, none⟩
  | c :: rest => if mark c then (exponentParts? rest).map fun e => ⟨ds, fs, some e⟩ else none

lemma not_isExponent {c : UInt8} {rest : Bytes} (hc : ¬mark c = true) :
    ¬IsExponent mark (c :: rest) := by
  intro h
  cases h <;> exact hc ‹_›

lemma isSome_withExponent?_iff {e : Bytes} :
    (withExponent? mark ds fs e).isSome = true ↔ e = [] ∨ IsExponent mark e := by
  cases e with
  | nil => simp [withExponent?]
  | cons c rest =>
    by_cases hc : mark c = true
    · simp [withExponent?, hc, isSome_exponentParts?_iff hc]
    · simp [withExponent?, hc, not_isExponent hc]

lemma isSome_exponent_iff {e : Bytes} :
    ((withExponent? mark ds fs e).bind Parts.exponent).isSome = true ↔ IsExponent mark e := by
  cases e with
  | nil =>
    simp only [withExponent?, Option.bind_some]
    exact ⟨nofun, nofun⟩
  | cons c rest =>
    by_cases hc : mark c = true
    · rw [← isSome_exponentParts?_iff hc]
      cases h : exponentParts? rest <;> simp [withExponent?, hc, h]
    · simp [withExponent?, hc, not_isExponent hc]

lemma parts?_whole (hds : ds.all digit) (hr : ∀ c ∈ rest.head?, digit c = false ∧ c ≠ byte '.') :
    parts? digit mark (ds ++ rest) =
      if ds.isEmpty then none else withExponent? mark ds [] rest := by
  obtain ⟨ht, hd⟩ := span_digits hds fun c hc => (hr c hc).1
  simp only [parts?, ht, hd]
  cases rest with
  | nil => simp [withExponent?]
  | cons c rest => simp [withExponent?, (hr c rfl).2]

lemma parts?_pointed (hp : digit (byte '.') = false) (hds : ds.all digit)
    (hfs : fs.all digit) (hr : ∀ c ∈ rest.head?, digit c = false) :
    parts? digit mark (ds ++ byte '.' :: (fs ++ rest)) =
      if ds.isEmpty && fs.isEmpty then none else withExponent? mark ds fs rest := by
  have hh : ∀ c ∈ (byte '.' :: (fs ++ rest)).head?, digit c = false := by simpa using hp
  obtain ⟨ht, hd⟩ := span_digits hds hh
  obtain ⟨ht', hd'⟩ := span_digits hfs hr
  simp only [parts?, ht, hd, ht', hd', if_true]
  cases rest <;> simp [withExponent?]

/-- What is asked of the parts of a numeral is asked of the text behind its digits. -/
lemma parts?_iff (h : Separate digit mark) {P : Option Parts → Prop} {E : Bytes → Prop}
    (hno : ¬P none) (hP : ∀ ds fs e, P (withExponent? mark ds fs e) ↔ E e)
    (hE : ∀ e, E e → e = [] ∨ IsExponent mark e) :
    P (parts? digit mark s) ↔ ∃ m e, s = m ++ e ∧ IsMantissa digit m ∧ E e := by
  have hex : ∀ {e : Bytes}, E e → ∀ c ∈ e.head?, digit c = false ∧ c ≠ byte '.' := by
    intro e he
    rcases hE e he with rfl | he
    · simp
    · cases he <;> simpa using h.mark _ ‹_›
  constructor
  · intro hs
    obtain ⟨ds, rest, rfl, hds, hr⟩ := exists_digits digit s
    by_cases hp : ∃ after, rest = byte '.' :: after
    · obtain ⟨after, rfl⟩ := hp
      obtain ⟨fs, rest, rfl, hfs, hr⟩ := exists_digits digit after
      rw [parts?_pointed h.point hds hfs hr] at hs
      split at hs
      · exact absurd hs hno
      · next hso =>
        refine ⟨ds ++ byte '.' :: fs, rest, by simp, .pointed ?_ hds hfs, (hP ..).mp hs⟩
        simpa [or_iff_not_imp_left] using hso
    · rw [parts?_whole hds] at hs
      · split at hs
        · exact absurd hs hno
        · next hso => exact ⟨ds, rest, rfl, .whole (by simpa using hso) hds, (hP ..).mp hs⟩
      · intro c hc
        refine ⟨hr c hc, ?_⟩
        rintro rfl
        exact hp (by simpa [List.head?_eq_some_iff] using hc)
  · rintro ⟨m, e, rfl, hm, he⟩
    cases hm with
    | whole hso hds =>
      rw [parts?_whole hds (hex he), if_neg (by simpa using hso)]
      exact (hP ..).mpr he
    | @pointed ds fs hso hds hfs =>
      rw [List.append_assoc, List.cons_append,
        parts?_pointed h.point hds hfs fun c hc => (hex he c hc).1, if_neg]
      · exact (hP ..).mpr he
      · simpa [or_iff_not_imp_left] using hso

lemma isSome_decimalFloat?_iff :
    (decimalFloat? s).isSome = true ↔ IsUnprefixed isDigit isDecimalMark s := by
  have hp : (decimalFloat? s).isSome = (parts? isDigit isDecimalMark s).isSome := by
    unfold decimalFloat?
    cases parts? isDigit _ s <;> rfl
  rw [hp]
  exact parts?_iff separate_decimal (P := fun p => p.isSome = true) Bool.false_ne_true
    (fun _ _ _ => isSome_withExponent?_iff) fun _ => id

/-- A hexadecimal float is read with its exponent only. -/
lemma isSome_hexFloat?_iff : (hexFloat? s).isSome = true ↔
    ∃ m e, s = m ++ e ∧ IsMantissa isHexDigit m ∧ IsExponent isBinaryMark e := by
  have hp : (hexFloat? s).isSome =
      ((parts? isHexDigit isBinaryMark s).bind Parts.exponent).isSome := by
    unfold hexFloat?
    cases parts? isHexDigit _ s with
    | none => rfl
    | some p => cases h : p.exponent <;> simp [h]
  rw [hp]
  exact parts?_iff separate_binary (P := fun p => (p.bind Parts.exponent).isSome = true)
    Bool.false_ne_true (fun _ _ _ => isSome_exponent_iff) fun _ => .inr

lemma isUnprefixed_iff_of_unmarked (h : isMarked mark s = false) :
    IsUnprefixed digit mark s ↔ s ≠ [] ∧ s.all digit = true := by
  unfold isMarked at h
  constructor
  · rintro ⟨m, e, rfl, hm, he⟩
    have he' : e = [] := by
      rcases he with rfl | he
      · rfl
      · cases he <;> simp_all
    subst he'
    cases hm with
    | whole hs hds =>
      rw [List.append_nil]
      exact ⟨hs, hds⟩
    | pointed => simp at h
  · rintro ⟨hs, hds⟩
    exact ⟨s, [], by simp, .whole hs hds, .inl rfl⟩

lemma IsMantissa.digit_or_point {m : Bytes} (h : IsMantissa digit m) :
    ∀ c ∈ m, digit c = true ∨ c = byte '.' := by
  cases h with
  | whole _ hds => exact fun c hc => .inl (List.all_eq_true.mp hds c hc)
  | pointed _ hds hfs =>
    intro c hc
    rcases List.mem_append.mp hc with hc | hc
    · exact .inl (List.all_eq_true.mp hds c hc)
    · rcases List.mem_cons.mp hc with rfl | hc
      · exact .inr rfl
      · exact .inl (List.all_eq_true.mp hfs c hc)

lemma Separate.mark_eq_false (h : Separate digit mark) {m : Bytes} (hm : IsMantissa digit m) :
    ∀ c ∈ m, mark c = false := by
  intro c hc
  by_contra hmk
  obtain ⟨hd, hp⟩ := h.mark c (by simpa using hmk)
  rcases hm.digit_or_point c hc with hc | hc
  · simp [hd] at hc
  · exact hp hc

/-- The text of a numeral that has an exponent is split where the exponent's letter is. -/
lemma Separate.takeWhile_eq (h : Separate digit mark) {m e : Bytes} (hm : IsMantissa digit m)
    (he : IsExponent mark e) : (m ++ e).takeWhile (fun c => !mark c) = m := by
  refine (span_digits (List.all_eq_true.mpr fun c hc => ?_) ?_).1
  · rw [h.mark_eq_false hm c hc]
    rfl
  · cases he <;> simp_all

/-- With an exponent of nothing behind it, a numeral without one is read as a numeral that has
one. -/
lemma isUnprefixed_iff_hexFloat (s : Bytes) : IsUnprefixed isHexDigit isBinaryMark s ↔
    (hexFloat? (if s.any isBinaryMark then s else s ++ "p0")).isSome = true := by
  rw [isSome_hexFloat?_iff]
  split
  · next hany =>
    constructor
    · rintro ⟨m, e, rfl, hm, rfl | he⟩
      · obtain ⟨c, hc, hmk⟩ := List.any_eq_true.mp hany
        rw [List.append_nil] at hc
        simp [separate_binary.mark_eq_false hm c hc] at hmk
      · exact ⟨m, e, rfl, hm, he⟩
    · rintro ⟨m, e, rfl, hm, he⟩
      exact ⟨m, e, rfl, hm, .inr he⟩
  · next hany =>
    have hno : ∀ c ∈ s, isBinaryMark c = false := by simpa using hany
    have hz : IsExponent isBinaryMark "p0" := .unsigned rfl (by decide) (by decide)
    constructor
    · rintro ⟨m, e, rfl, hm, rfl | he⟩
      · exact ⟨m, "p0", by simp, hm, hz⟩
      · cases he <;> simp_all
    · rintro ⟨m, e, heq, hm, he⟩
      have ht := separate_binary.takeWhile_eq hm he
      have hp : ∀ c ∈ ("p0" : Bytes).head?, (!isBinaryMark c) = false := by
        rintro _ ⟨⟩
        rfl
      rw [← heq, (span_digits (List.all_eq_true.mpr fun c hc => by simp [hno c hc]) hp).1] at ht
      exact ⟨m, [], by simp [ht], hm, .inl rfl⟩

lemma cutHexMark?_eq_some_iff : cutHexMark? s = some rest ↔ IsPrefixed s rest := by
  unfold cutHexMark? IsPrefixed
  split
  · grind
  · next hno =>
    constructor
    · rintro ⟨⟩
    · rintro (rfl | rfl) <;> exact absurd rfl (hno _ _ _)

lemma Separate.not_all_of_isMarked (h : Separate digit mark) (han : isMarked mark s = true) :
    ¬s.all digit = true := by
  intro ha
  obtain ⟨c, hc, hm⟩ := List.any_eq_true.mp han
  have hd := List.all_eq_true.mp ha c hc
  simp only [Bool.or_eq_true, decide_eq_true_eq] at hm
  rcases hm with rfl | hm
  · simp [h.point] at hd
  · simp [(h.mark c hm).1] at hd

lemma IsUnprefixed.underscore_notMem (h : IsUnprefixed digit mark s)
    (hd : digit (byte '_') = false) (hm : mark (byte '_') = false) : byte '_' ∉ s := by
  obtain ⟨m, e, rfl, hma, he⟩ := h
  intro hu
  have hdi : isDigit (byte '_') = false := rfl
  have hds : ∀ {ds : Bytes}, ds.all isDigit = true → byte '_' ∉ ds := fun ha hmem =>
    Bool.false_ne_true (hdi.symm.trans (List.all_eq_true.mp ha _ hmem))
  rcases List.mem_append.mp hu with hu | hu
  · rcases hma.digit_or_point _ hu with hu | hu
    · simp [hd] at hu
    · cases hu
  · rcases he with rfl | he
    · cases hu
    · cases he with
      | unsigned hmk _ ha =>
        rcases List.mem_cons.mp hu with rfl | hu
        · simp [hm] at hmk
        · exact hds ha hu
      | signed hmk hs _ ha =>
        rcases List.mem_cons.mp hu with rfl | hu
        · simp [hm] at hmk
        · rcases List.mem_cons.mp hu with rfl | hu
          · rcases hs with hs | hs <;> cases hs
          · exact hds ha hu

lemma separated_of_notMem (digit : UInt8 → Bool) (h : byte '_' ∉ s) (behind : Bool) :
    IntegerLiteral.separated digit behind s = true ∧
      (s.filter fun c => !decide (c = byte '_')) = s := by
  constructor
  · induction s generalizing behind with
    | nil => rfl
    | cons c s ih =>
      rw [List.mem_cons, not_or] at h
      rw [IntegerLiteral.separated, if_neg (Ne.symm h.1)]
      exact ih h.2 _
  · refine List.filter_eq_self.mpr fun c hc => ?_
    simpa using ne_of_mem_of_not_mem hc h

lemma lower_notMem {c : UInt8} (h : isDigit c = true ∨ c = byte '.' ∨ isDecimalMark c = true) :
    lower c ∉ ("infinity" : Bytes) ∧ lower c ∉ ("nan" : Bytes) := by
  rcases h with h | rfl | h
  · have hl : lower c = c := by
      simp only [isDigit, Bool.and_eq_true, decide_eq_true_eq, UInt8.le_iff_toNat_le] at h
      have h9 : (byte '9').toNat = 57 := rfl
      have hA : (byte 'A').toNat = 65 := rfl
      refine if_neg fun hc => ?_
      simp only [Bool.and_eq_true, decide_eq_true_eq, UInt8.le_iff_toNat_le] at hc
      omega
    have hw : ∀ {word : Bytes}, word.all (!isDigit ·) = true → c ∉ word := fun hw hc => by
      simpa [h] using List.all_eq_true.mp hw c hc
    rw [hl]
    exact ⟨hw (by decide), hw (by decide)⟩
  · decide
  · simp only [isDecimalMark, Bool.or_eq_true, decide_eq_true_eq] at h
    rcases h with rfl | rfl <;> decide

/-- A text with a digit, a point or an exponent's letter is no word, and without a sign and
underscores the digits are all there is to read. -/
lemma readFloat?_eq (hs : ∀ c ∈ s.head?, c ≠ byte '+' ∧ c ≠ byte '-') (hu : byte '_' ∉ s)
    (hc : ∃ c ∈ s, isDigit c = true ∨ c = byte '.' ∨ isDecimalMark c = true) :
    (readFloat? s).isSome = ((cutHexMark? s).elim (decimalFloat? s) hexFloat?).isSome := by
  obtain ⟨c, hc, hd⟩ := hc
  obtain ⟨hi, hn⟩ := lower_notMem hd
  have hmem : ∀ {word : Bytes}, lower c ∉ word → s.map lower ≠ word := by
    rintro _ hw rfl
    exact hw (List.mem_map_of_mem hc)
  have hinf : lower c ∉ ("inf" : Bytes) := fun h => hi (List.mem_append_left ("inity" : Bytes) h)
  have hsp : special? s = none := by
    simp [special?, cutSign_eq hs, hmem hi, hmem hinf, hmem hn]
  have hx : separatedFloat? s = (cutHexMark? s).elim (decimalFloat? s) hexFloat? := by
    unfold separatedFloat?
    cases hh : cutHexMark? s with
    | none =>
      obtain ⟨hse, hf⟩ := separated_of_notMem isDigit hu false
      simp only [hse, if_true, ne_eq, decide_not, hf]
      rfl
    | some rest =>
      have hr : byte '_' ∉ rest := by
        rcases cutHexMark?_eq_some_iff.mp hh with rfl | rfl <;> simp_all
      obtain ⟨hse, hf⟩ := separated_of_notMem isHexDigit hr true
      simp only [hse, if_true, ne_eq, decide_not, hf]
      rfl
  simp [readFloat?, hsp, cutSign_eq hs, hx]

lemma value_cons (base : Nat) (c : UInt8) (ds : Bytes) :
    value base (c :: ds) = (hexValue? c).getD 0 * base ^ ds.length + value base ds := by
  simp [value, Nat.ofDigits_append]
  ring

lemma hexWord?_eq (n : Nat) (s : Bytes) : hexWord? n.toUInt64 s =
    if s.all isHexDigit then some (n * 16 ^ s.length + value 16 s).toUInt64 else none := by
  induction s generalizing n with
  | nil => simp [hexWord?, value]
  | cons c s ih =>
    rw [hexWord?]
    cases hc : hexValue? c with
    | none => simp [isHexDigit, hc]
    | some d =>
      have ho : n.toUInt64 <<< 4 ||| d.toUInt64 = (n * 16 + d).toUInt64 := by
        rw [← shiftLeft_or (hexValue?_lt hc)]
        exact ((UInt64.ofNat_or _ _).trans
          (by rw [UInt64.ofNat_shiftLeft _ _ (by decide)]; rfl)).symm
      have hv : n * 16 ^ (c :: s).length + value 16 (c :: s) =
          (n * 16 + d) * 16 ^ s.length + value 16 s := by
        rw [value_cons, hc, List.length_cons, Option.getD_some]
        ring
      have ha : (c :: s).all isHexDigit = s.all isHexDigit := by simp [isHexDigit, hc]
      simp only [ho, ih, hv, ha]

section

open IntegerLiteral

lemma ten_le_of_digit? {c : UInt8} {d : Nat} (h : isDigit c = false) (hd : digit? c = some d) :
    10 ≤ d := by
  rw [digit?, if_neg (by simp [h])] at hd
  split at hd
  · cases hd
    omega
  · split at hd
    · cases hd
      omega
    · cases hd

lemma digitValue_lt {c : UInt8} (h : isDigit c = true) : digitValue c < 10 := by
  simp only [isDigit, Bool.and_eq_true, decide_eq_true_eq, UInt8.le_iff_toNat_le] at h
  have h9 : (byte '0').toNat = 48 ∧ (byte '9').toNat = 57 := by decide
  rw [digitValue]
  omega

lemma magnitude_digit {c : UInt8} (h : isDigit c = true) (n : Nat) (s : Bytes) :
    magnitude false 10 n (c :: s) =
      if UInt64.size ≤ 10 * n + digitValue c then .error .outOfRange
      else magnitude false 10 (10 * n + digitValue c) s := by
  have hd : digit? c = some (digitValue c) := if_pos h
  simp [magnitude, hd, Nat.not_le.mpr (digitValue_lt h)]

lemma magnitude_digits (h : s.all isDigit = true) (hn : n < UInt64.size) :
    magnitude false 10 n s =
      if n * 10 ^ s.length + value 10 s < UInt64.size then .ok (n * 10 ^ s.length + value 10 s)
      else .error .outOfRange := by
  induction s generalizing n with
  | nil => simp [value, magnitude, hn]
  | cons c s ih =>
    rw [List.all_cons, Bool.and_eq_true] at h
    have hv : n * 10 ^ (c :: s).length + value 10 (c :: s) =
        (10 * n + digitValue c) * 10 ^ s.length + value 10 s := by
      rw [value_cons, hexValue?_of_isDigit h.1, List.length_cons, Option.getD_some]
      ring
    rw [magnitude_digit h.1, hv]
    by_cases hle : UInt64.size ≤ 10 * n + digitValue c
    · have hp := Nat.mul_le_mul_left (10 * n + digitValue c)
        (Nat.one_le_pow s.length 10 (by decide))
      rw [if_pos hle, if_neg (by omega)]
    · rw [if_neg hle, ih h.2 (Nat.not_le.mp hle)]

/-- A text that is no integer may be refused as too large, if its first digits are. -/
lemma magnitude_of_not_digits (h : ¬s.all isDigit = true) (n : Nat) :
    magnitude false 10 n s = .error .malformed ∨
      magnitude false 10 n s = .error .outOfRange ∧ ∃ c ∈ s, isDigit c = true := by
  induction s generalizing n with
  | nil => exact absurd rfl h
  | cons c s ih =>
    by_cases hc : isDigit c = true
    · rw [magnitude_digit hc]
      split
      · exact .inr ⟨rfl, c, List.mem_cons_self, hc⟩
      · refine (ih (by simpa [hc] using h) _).imp id ?_
        rintro ⟨he, x, hx, hd⟩
        exact ⟨he, x, List.mem_cons_of_mem c hx, hd⟩
    · refine .inl ?_
      rw [magnitude, if_neg (by simp)]
      cases hd : digit? c with
      | none => rfl
      | some d => simp [ten_le_of_digit? (Bool.eq_false_iff.mpr hc) hd]

end

lemma inRange_natCast (n : Nat) (i : Int64) :
    IntegerLiteral.inRange n = .ok i ↔ n ≤ 2 ^ 63 - 1 ∧ i.toInt = n := by
  have hmi : Int64.minValue.toInt = -2 ^ 63 := rfl
  have hm : Int64.maxValue.toInt = 2 ^ 63 - 1 := rfl
  rw [IntegerLiteral.inRange, int64?]
  split
  · next h =>
    have hv := Int64.toInt_ofInt_of_le h.1 (by omega)
    rw [Option.elim_some, Except.ok.injEq, ← Int64.toInt_inj]
    omega
  · simp
    omega

/-- What no numeral starts with or holds, while a wider syntax allows it. -/
structure Guarded (s : Bytes) : Prop where
  some : s ≠ []
  unsigned : ∀ c ∈ s.head?, c ≠ byte '+' ∧ c ≠ byte '-'
  unseparated : byte '_' ∉ s

lemma guard_eq_false_iff : (s = [] || s.head? = some (byte '+') || s.head? = some (byte '-') ||
    s.contains (byte '_')) = false ↔ Guarded s := by
  cases s with
  | nil => simp [show ¬Guarded [] from fun h => h.some rfl]
  | cons c s =>
    constructor
    · intro h
      simp at h
      exact ⟨List.cons_ne_nil c s, by simpa using h.1, by simpa using h.2⟩
    · intro h
      have hu := h.unsigned c rfl
      have hs := h.unseparated
      simp_all

lemma readInteger_ten (h : Guarded s) : readInteger s (some 10) =
    (IntegerLiteral.magnitude false 10 0 s).bind fun n => IntegerLiteral.inRange n := by
  have hcut : ∀ sign, (∀ c ∈ s.head?, c ≠ sign) → Bytes.cut? [sign] s = none := by
    intro sign hs
    refine Option.eq_none_iff_forall_ne_some.mpr fun rest hr => ?_
    rw [Bytes.cut?_eq_some_iff] at hr
    exact hs sign (by rw [hr]; rfl) rfl
  have hm := hcut (byte '-') fun c hc => (h.unsigned c hc).2
  have hp := hcut (byte '+') fun c hc => (h.unsigned c hc).1
  simp only [readInteger, hm, hp, Option.getD_none, IntegerLiteral.unsigned, h.some, if_false]

lemma readInteger_digits (h : Guarded s) (ha : s.all isDigit = true) :
    (∃ i, readInteger s (some 10) = .ok i ∧ value 10 s ≤ 2 ^ 63 - 1 ∧ i.toInt = value 10 s) ∨
      readInteger s (some 10) = .error .outOfRange ∧ ¬value 10 s ≤ 2 ^ 63 - 1 := by
  have hr := inRange_natCast (value 10 s)
  rw [readInteger_ten h, magnitude_digits ha (by decide), Nat.zero_mul, Nat.zero_add]
  have hsize : UInt64.size = 2 ^ 64 := rfl
  by_cases hle : value 10 s ≤ 2 ^ 63 - 1
  · have hi := Int64.toInt_ofInt_of_le (show -2 ^ 63 ≤ (value 10 s : Int) by omega) (by omega)
    rw [if_pos (by omega)]
    exact .inl ⟨_, (hr _).mpr ⟨hle, hi⟩, hle, hi⟩
  · refine .inr ⟨?_, hle⟩
    split
    · cases hx : int64? (value 10 s) with
      | some i => exact absurd ((hr i).mp (by rw [IntegerLiteral.inRange, hx]; rfl)).1 hle
      | none =>
        show IntegerLiteral.inRange (value 10 s) = _
        rw [IntegerLiteral.inRange, hx]
        rfl
    · rfl

lemma IsMantissa.ne_nil {m : Bytes} (h : IsMantissa digit m) : m ≠ [] := by
  cases h with
  | whole hne => exact hne
  | pointed => simp

lemma IsUnprefixed.guarded (h : IsUnprefixed isDigit isDecimalMark s) : Guarded s := by
  have hu := h.underscore_notMem rfl rfl
  obtain ⟨m, e, rfl, hm, -⟩ := h
  obtain ⟨c, t, rfl⟩ := List.exists_cons_of_ne_nil hm.ne_nil
  refine ⟨by simp, ?_, hu⟩
  rintro _ ⟨⟩
  rcases hm.digit_or_point c List.mem_cons_self with hc | rfl
  · exact ne_sign_of_isDigit hc
  · decide

lemma parseNumeral?_of_not_guarded (h : ¬Guarded s) : parseNumeral? s = none := by
  rw [← guard_eq_false_iff, Bool.not_eq_false] at h
  exact if_pos h

lemma parseNumeral?_prefixed (h : IsPrefixed s rest) :
    ((parseNumeral? s).isSome = true ↔ IsUnprefixed isHexDigit isBinaryMark rest) ∧
      ∀ i, parseNumeral? s = some (.integer i) ↔ (rest ≠ [] ∧ rest.all isHexDigit = true) ∧
        i.toInt = (value 16 rest : Int).bmod (2 ^ 64) := by
  obtain ⟨mark, hmark, rfl⟩ : ∃ mark, (mark = byte 'x' ∨ mark = byte 'X') ∧
      s = byte '0' :: mark :: rest := by
    rcases h with h | h
    · exact ⟨_, .inl rfl, h⟩
    · exact ⟨_, .inr rfl, h⟩
  have hcut : ∀ t, cutHexMark? (byte '0' :: mark :: t) = some t := by
    rcases hmark with rfl | rfl <;> exact fun t => rfl
  have hmem : ∀ {t : Bytes}, byte '_' ∉ t → byte '_' ∉ byte '0' :: mark :: t := by
    rcases hmark with rfl | rfl <;> simp [byte]
  by_cases hu : byte '_' ∈ rest
  · have hg : ¬Guarded (byte '0' :: mark :: rest) := fun hg =>
      hg.unseparated (List.mem_cons_of_mem _ (List.mem_cons_of_mem _ hu))
    have hn : ¬IsUnprefixed isHexDigit isBinaryMark rest := fun hn =>
      hn.underscore_notMem rfl rfl hu
    have hd : ¬rest.all isHexDigit = true := fun hd =>
      Bool.false_ne_true (List.all_eq_true.mp hd _ hu)
    simp [parseNumeral?_of_not_guarded hg, hn, hd]
  · have hg : Guarded (byte '0' :: mark :: rest) :=
      ⟨List.cons_ne_nil _ _, by simp [byte], hmem hu⟩
    rw [← guard_eq_false_iff] at hg
    simp only [parseNumeral?, hg, Bool.false_eq_true, if_false, hcut]
    by_cases han : isMarked isBinaryMark rest = true
    · have ha := separate_binary.not_all_of_isMarked han
      rw [if_pos han, Option.isSome_map, isUnprefixed_iff_hexFloat]
      refine ⟨?_, by simp [ha]⟩
      have hs : (if rest.any isBinaryMark then byte '0' :: mark :: rest
          else byte '0' :: mark :: rest ++ "p0") =
          byte '0' :: mark :: if rest.any isBinaryMark then rest else rest ++ "p0" := by
        split <;> rfl
      have hn : byte '_' ∉ if rest.any isBinaryMark then rest else rest ++ "p0" := by
        split
        · exact hu
        · simpa [hu] using show byte '_' ∉ ("p0" : Bytes) by decide
      rw [hs, readFloat?_eq (by simp [byte]) (hmem hn) ⟨byte '0', List.mem_cons_self, .inl rfl⟩,
        hcut]
      rfl
    · rw [if_neg han, isUnprefixed_iff_of_unmarked (Bool.eq_false_iff.mpr han)]
      have hw := hexWord?_eq 0 rest
      rw [Nat.zero_mul, Nat.zero_add] at hw
      rw [show (0 : UInt64) = Nat.toUInt64 0 from rfl, hw]
      have hv : (value 16 rest).toUInt64.toInt64.toInt = (value 16 rest : Int).bmod (2 ^ 64) := by
        rw [Nat.toUInt64_eq, UInt64.toInt64_ofNat', ← Int64.ofInt_eq_ofNat, Int64.toInt_ofInt]
        rfl
      by_cases hne : rest = []
      · simp [hne]
      · by_cases ha : rest.all isHexDigit = true
        · simp only [hne, ha, if_true, if_false, Option.map_some, Option.isSome_some, ne_eq,
            not_false_eq_true, and_self, true_and, Option.some_inj, Number.integer.injEq, ← hv]
          exact fun i => by rw [Int64.toInt_inj, eq_comm]
        · simp [hne, ha]

lemma parseNumeral?_unprefixed (h : ∀ rest, ¬IsPrefixed s rest) :
    ((parseNumeral? s).isSome = true ↔ IsUnprefixed isDigit isDecimalMark s) ∧
      ∀ i, parseNumeral? s = some (.integer i) ↔ IsDecimalInteger s ∧ i.toInt = value 10 s := by
  have hc : cutHexMark? s = none :=
    Option.eq_none_iff_forall_ne_some.mpr fun rest hs => h rest (cutHexMark?_eq_some_iff.mp hs)
  by_cases hg : Guarded s
  · have hg' := guard_eq_false_iff.mpr hg
    simp only [parseNumeral?, hg', Bool.false_eq_true, if_false, hc]
    have hf : ∀ c ∈ s, isDigit c = true ∨ c = byte '.' ∨ isDecimalMark c = true →
        ((readFloat? s).isSome = true ↔ IsUnprefixed isDigit isDecimalMark s) := by
      intro c hmem hd
      rw [readFloat?_eq hg.unsigned hg.unseparated ⟨c, hmem, hd⟩, hc, ← isSome_decimalFloat?_iff]
      rfl
    by_cases han : isMarked isDecimalMark s = true
    · have ha := separate_decimal.not_all_of_isMarked han
      obtain ⟨c, hmem, hm⟩ := List.any_eq_true.mp han
      rw [if_pos han, Option.isSome_map, hf c hmem (.inr (by simpa using hm))]
      exact ⟨Iff.rfl, by simp [IsDecimalInteger, ha]⟩
    · rw [if_neg han]
      have hu : IsUnprefixed isDigit isDecimalMark s ↔ _ :=
        isUnprefixed_iff_of_unmarked (Bool.eq_false_iff.mpr han)
      by_cases ha : s.all isDigit = true
      · obtain ⟨c, hmem⟩ := List.exists_mem_of_ne_nil s hg.some
        have hfl := hf c hmem (.inl (List.all_eq_true.mp ha c hmem))
        have hun := hu.mpr ⟨hg.some, ha⟩
        rcases readInteger_digits hg ha with ⟨i, hi, hle, hv⟩ | ⟨he, hle⟩
        · simp only [hi, Option.isSome_some, Option.some_inj, Number.integer.injEq, hun, true_and,
            IsDecimalInteger, hg.some, ha, hle, ne_eq, not_false_eq_true, ← hv, Int64.toInt_inj]
          exact fun j => eq_comm
        · have hd : ¬IsDecimalInteger s := fun h => hle h.2.2
          simp [he, hfl, hun, hd]
      · have hn : ¬IsUnprefixed isDigit isDecimalMark s := fun h => ha (hu.mp h).2
        have hd : ¬IsDecimalInteger s := fun h => ha h.2.1
        have hr := readInteger_ten hg
        rcases magnitude_of_not_digits ha 0 with he | ⟨he, c, hmem, hc⟩
        · rw [he] at hr
          simp [hr, Except.bind, hn, hd]
        · rw [he] at hr
          have hfl := hf c hmem (.inl hc)
          simp_all [Except.bind]
  · have hn : ¬IsUnprefixed isDigit isDecimalMark s := mt IsUnprefixed.guarded hg
    have hd : ¬IsDecimalInteger s := fun h => hg (IsUnprefixed.guarded
      ⟨s, [], by simp, .whole h.1 h.2.1, .inl rfl⟩)
    simp [parseNumeral?_of_not_guarded hg, hn, hd]

lemma IsPrefixed.not_unprefixed (h : IsPrefixed s rest) :
    ¬IsUnprefixed isDigit isDecimalMark s := by
  rw [← isSome_decimalFloat?_iff]
  rcases h with rfl | rfl <;> exact Bool.false_ne_true

lemma IsDecimalInteger.unprefixed (h : IsDecimalInteger s) : IsUnprefixed isDigit isDecimalMark s :=
  ⟨s, [], by simp, .whole h.1 h.2.1, .inl rfl⟩

lemma IsPrefixed.unique (h : IsPrefixed s rest) (h' : IsPrefixed s fs) : rest = fs := by
  have hc := cutHexMark?_eq_some_iff.mpr h
  rw [cutHexMark?_eq_some_iff.mpr h', Option.some_inj] at hc
  exact hc.symm

end Numeral

lemma exists_parseNumeral?_iff (s : Bytes) : (∃ n, parseNumeral? s = some n) ↔ IsNumeral s := by
  rw [← Option.isSome_iff_exists]
  by_cases hp : ∃ rest, IsPrefixed s rest
  · obtain ⟨rest, hp⟩ := hp
    rw [(parseNumeral?_prefixed hp).1]
    refine ⟨fun h => .inr ⟨rest, hp, h⟩, ?_⟩
    rintro (h | ⟨rest', hp', h⟩)
    · exact absurd h hp.not_unprefixed
    · exact hp.unique hp' ▸ h
  · rw [not_exists] at hp
    rw [(parseNumeral?_unprefixed hp).1]
    refine ⟨.inl, ?_⟩
    rintro (h | ⟨rest, hp', -⟩)
    · exact h
    · exact absurd hp' (hp rest)

lemma isDigit_byte {c : Char} (h : c.isDigit = true) : isDigit (byte c) = true := by
  simp only [Char.isDigit, Bool.and_eq_true, decide_eq_true_eq, ge_iff_le,
    UInt32.le_iff_toNat_le] at h
  have hl : 48 ≤ c.toNat := h.1
  have hh : c.toNat ≤ 57 := h.2
  have hb : (byte c).toNat = c.toNat := by
    simp only [byte, Nat.toUInt8, UInt8.toNat_ofNat']
    omega
  simp only [isDigit, Bool.and_eq_true, decide_eq_true_eq, UInt8.le_iff_toNat_le, hb]
  exact ⟨hl, hh⟩

lemma isSome_parseNumeral?_ofNat (n : Nat) : (parseNumeral? (.ofNat n)).isSome = true := by
  have hm : IsMantissa isDigit (.ofNat n) := by
    refine .whole (by simp [Bytes.ofNat, Nat.toDigits_ne_nil]) (List.all_eq_true.mpr fun b hb => ?_)
    obtain ⟨c, hc, rfl⟩ := List.mem_map.mp hb
    exact isDigit_byte (Nat.isDigit_of_mem_toDigits (by decide) (by decide) hc)
  rw [Option.isSome_iff_exists, exists_parseNumeral?_iff]
  exact .inl ⟨.ofNat n, [], (List.append_nil _).symm, hm, .inl rfl⟩

lemma parseNumeral?_eq_integer_iff (s : Bytes) (i : Int64) : parseNumeral? s = some (.integer i) ↔
      (∃ digits, IsHexInteger s digits ∧ i.toInt = (value 16 digits : Int).bmod (2 ^ 64)) ∨
        (IsDecimalInteger s ∧ i.toInt = value 10 s) := by
  by_cases hp : ∃ rest, IsPrefixed s rest
  · obtain ⟨rest, hp⟩ := hp
    rw [(parseNumeral?_prefixed hp).2]
    refine ⟨fun ⟨hd, hi⟩ => .inl ⟨rest, ⟨hp, hd⟩, hi⟩, ?_⟩
    rintro (⟨digits, ⟨hp', hd⟩, hi⟩ | ⟨hs, -⟩)
    · exact hp.unique hp' ▸ ⟨hd, hi⟩
    · exact absurd hs.unprefixed hp.not_unprefixed
  · rw [not_exists] at hp
    rw [(parseNumeral?_unprefixed hp).2]
    refine ⟨.inr, ?_⟩
    rintro (⟨digits, ⟨hp', -⟩, -⟩ | h)
    · exact absurd hp' (hp digits)
    · exact h

lemma Numeral.IsHexInteger.exists_integer {digits : Bytes} (h : IsHexInteger s digits) :
    ∃ i, parseNumeral? s = some (.integer i) :=
  ⟨.ofInt (value 16 digits),
    (parseNumeral?_eq_integer_iff s _).mpr (.inl ⟨digits, h, Int64.toInt_ofInt⟩)⟩

lemma Numeral.IsDecimalInteger.exists_integer (h : IsDecimalInteger s) :
    ∃ i, parseNumeral? s = some (.integer i) := by
  have hle := h.2.2
  exact ⟨.ofInt (value 10 s), (parseNumeral?_eq_integer_iff s _).mpr
    (.inr ⟨h, Int64.toInt_ofInt_of_le (by omega) (by omega)⟩)⟩

/-- The texts that are numerals, those of them that are integers with their values, and those that
are floats. -/
theorem parseNumeral?_classifies (s : Bytes) : ((∃ n, parseNumeral? s = some n) ↔ IsNumeral s) ∧
      (∀ i, parseNumeral? s = some (.integer i) ↔
        (∃ digits, IsHexInteger s digits ∧ i.toInt = (value 16 digits : Int).bmod (2 ^ 64)) ∨
          (IsDecimalInteger s ∧ i.toInt = value 10 s)) ∧
      ((∃ x, parseNumeral? s = some (.float x)) ↔
        IsNumeral s ∧ (∀ digits, ¬IsHexInteger s digits) ∧ ¬IsDecimalInteger s) := by
  refine ⟨exists_parseNumeral?_iff s, parseNumeral?_eq_integer_iff s, ?_⟩
  rw [← exists_parseNumeral?_iff s]
  constructor
  · rintro ⟨x, hx⟩
    have hno : ¬∃ i, parseNumeral? s = some (.integer i) := by simp [hx]
    exact ⟨⟨_, hx⟩, fun _ h => hno h.exists_integer, fun h => hno h.exists_integer⟩
  · rintro ⟨⟨n, hn⟩, hhex, hdecimal⟩
    cases n with
    | float x => exact ⟨x, hn⟩
    | integer i =>
      rcases (parseNumeral?_eq_integer_iff s i).mp hn with ⟨digits, h, -⟩ | ⟨h, -⟩
      · exact absurd h (hhex digits)
      · exact absurd h hdecimal

end LuaBytecode
