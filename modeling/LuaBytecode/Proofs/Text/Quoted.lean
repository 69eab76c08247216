import LuaBytecode.Proofs.Text.Utf8
import LuaBytecode.Token.Scanner
import LuaBytecode.Value

namespace LuaBytecode

open Escape Lexeme

variable {c : UInt8} {ds : Bytes} {x : Nat}

def isOrdinary (c : UInt8) : Bool := c != byte '"' && c != byte '\\' && !isLineBreak c

lemma shortStringEnd_ordinary (h : ds.all isOrdinary = true) (size : Nat) (rest : Bytes) :
    shortStringEnd (byte '"') .plain size (ds ++ rest) =
      shortStringEnd (byte '"') .plain (size + ds.length) rest := by
  induction ds generalizing size with
  | nil => rfl
  | cons c ds ih =>
    simp only [List.all_cons, Bool.and_eq_true] at h
    have hc : (c ≠ byte '"' ∧ c ≠ byte '\\') ∧ isLineBreak c = false := by
      simpa [isOrdinary] using h.1
    simp [shortStringEnd, hc, ih h.2, Nat.add_assoc, Nat.add_comm 1]

structure IsEscape (e out : Bytes) : Prop where
  read : ∀ rest, read (e ++ rest) = .ok (out, e.length)
  scanned : ∀ size rest, shortStringEnd (byte '"') .escaped size (e ++ rest) =
    shortStringEnd (byte '"') .plain (size + e.length) rest

inductive Spells : (raw s : Bytes) → Prop
  | nil : Spells [] []
  | plain {c : UInt8} {raw s : Bytes} (ordinary : isOrdinary c = true) (rest : Spells raw s) :
      Spells (c :: raw) (c :: s)
  | escape {e out raw s : Bytes} (escapes : IsEscape e out) (rest : Spells raw s) :
      Spells (byte '\\' :: e ++ raw) (out ++ s)

namespace Spells

variable {raw s : Bytes}

lemma decodeFrom_skip (e : Bytes) (offset : Nat) (done rest : Bytes) :
    decodeFrom e.length offset done (e ++ rest) = decodeFrom 0 (offset + e.length) done rest := by
  induction e generalizing offset with
  | nil => rfl
  | cons c e ih =>
    rw [List.length_cons, List.cons_append, decodeFrom, ih]
    congr 1
    omega

lemma decodeFrom (h : Spells raw s) (offset : Nat) (done : Bytes) :
    Escape.decodeFrom 0 offset done raw = .ok (done.reverse ++ s) := by
  induction h generalizing offset done with
  | nil => simp [Escape.decodeFrom]
  | @plain c raw s hc _ ih =>
    have hne : c ≠ byte '\\' := by simp_all [isOrdinary]
    rw [Escape.decodeFrom, if_neg hne, ih]
    simp
  | @escape e out raw s he _ ih =>
    rw [List.cons_append, Escape.decodeFrom, he.read]
    simp only
    rw [decodeFrom_skip, ih]
    simp

lemma shortStringEnd (h : Spells raw s) (size : Nat) :
    Lexeme.shortStringEnd (byte '"') .plain size (raw ++ [byte '"']) =
      (.closed, size + raw.length + 1) := by
  induction h generalizing size with
  | nil => rfl
  | @plain c raw s hc _ ih =>
    have ho : [c].all isOrdinary = true := by simpa using hc
    rw [List.cons_append, ← List.singleton_append, shortStringEnd_ordinary ho, ih]
    simp only [List.length_cons, List.length_nil]
    congr 1
    omega
  | @escape e out raw s he _ ih =>
    have hs : Lexeme.shortStringEnd (byte '"') .plain size
        (byte '\\' :: (e ++ (raw ++ [byte '"']))) =
        Lexeme.shortStringEnd (byte '"') .escaped (size + 1) (e ++ (raw ++ [byte '"'])) := rfl
    rw [List.cons_append, List.cons_append, List.append_assoc, hs, he.scanned, ih]
    simp only [List.length_cons, List.length_append]
    congr 1
    omega

lemma unescape_eq (h : Spells raw s) : unescape raw = .ok s := by
  rw [unescape, h.decodeFrom]
  rfl

lemma read_eq (h : Spells raw s) : read (byte '"') (raw ++ [byte '"']) =
    ⟨raw.length + 2, .token .string raw false⟩ := by
  have hs : read (byte '"') (raw ++ [byte '"']) = shortString (byte '"') (raw ++ [byte '"']) := rfl
  rw [hs, shortString, h.shortStringEnd]
  simp [h.unescape_eq, Nat.add_comm 1]

end Spells

/-- The whole text is one short string that stands for `s`. -/
def ReadsBack (text s : Bytes) : Prop :=
  ∃ raw, text = byte '"' :: raw ++ [byte '"'] ∧ unescape raw = .ok s ∧
    let stop := Position.first.advance text
    elements text = [.token ⟨.string, ⟨.first, stop⟩, raw, false⟩,
      .token { kind := .eof, span := .at stop }]

lemma Spells.readsBack (h : Spells raw s) : ReadsBack (byte '"' :: raw ++ [byte '"']) s := by
  refine ⟨raw, rfl, h.unescape_eq, ?_⟩
  have hs : Cursor.skip ⟨byte '"' :: (raw ++ [byte '"']), .first⟩ (raw.length + 2) =
      ⟨[], Position.first.advance (byte '"' :: raw ++ [byte '"'])⟩ := by
    simpa using Cursor.skip_append (byte '"' :: raw ++ [byte '"']) [] .first
  have hn := Cursor.next_eq_token (p := .first) (by decide) h.read_eq
  rw [hs] at hn
  have hf : (byte '"' :: raw ++ [byte '"']).length + 1 = raw.length + 1 + 1 + 1 := by simp
  rw [elements, Scanner.elementsFrom, Scanner.next_eq, Scanner.ofSource, Cursor.ofSource,
    List.cons_append, hn]
  rfl

lemma shortStringEnd_escaped (hz : c ≠ byte 'z') (hb : isLineBreak c = false)
    (h : ds.all isOrdinary = true) (size : Nat) (rest : Bytes) :
    shortStringEnd (byte '"') .escaped size (c :: ds ++ rest) =
      shortStringEnd (byte '"') .plain (size + (c :: ds).length) rest := by
  rw [List.cons_append, shortStringEnd, if_neg hz, hb]
  simp only [Bool.false_and, Bool.false_eq_true, if_false]
  rw [shortStringEnd_ordinary h, List.length_cons]
  congr 1
  omega

lemma isEscape_single {b : UInt8} (h : Escape.single? c = some b) : IsEscape [c] [b] := by
  refine ⟨fun rest => ?_, shortStringEnd_escaped ?_ ?_ rfl⟩
  · simp [Escape.read, h]
  · rintro rfl
    cases h
  · exact isLineBreak_of_class (f := fun c => (Escape.single? c).isSome) rfl rfl (by rw [h]; rfl)

lemma hexValue?_digitChar : ∀ n < 16, hexValue? (byte (Nat.digitChar n)) = some n := by
  decide

lemma isOrdinary_of_isHexDigit (h : isHexDigit c = true) : isOrdinary c = true := by
  cases hc : isOrdinary c with
  | true => rfl
  | false =>
    simp only [isOrdinary, isLineBreak, Bool.and_eq_false_iff, bne_eq_false_iff_eq,
      Bool.not_eq_false', Bool.or_eq_true, decide_eq_true_eq] at hc
    rcases hc with (rfl | rfl) | rfl | rfl <;> cases h

lemma isEscape_hex (c : UInt8) : IsEscape (byte 'x' :: Bytes.hex c) [c] := by
  have hh := hexValue?_digitChar (c.toNat / 16 % 16) (Nat.mod_lt _ (by decide))
  have hl := hexValue?_digitChar (c.toNat % 16) (Nat.mod_lt _ (by decide))
  have hc : c.toNat < 256 := c.toNat_lt
  refine ⟨fun rest => ?_, shortStringEnd_escaped (by decide) (by decide) ?_⟩
  · have hv : (c.toNat / 16 % 16 * 16 + c.toNat % 16).toUInt8 = c := by
      rw [show c.toNat / 16 % 16 * 16 + c.toNat % 16 = c.toNat by omega]
      simp
    have hs : Escape.single? (byte 'x') = none := rfl
    have hb : isLineBreak (byte 'x') = false := rfl
    have hz : byte 'x' ≠ byte 'z' := by decide
    simp [Escape.read, hs, hb, hz, Bytes.hex, Bytes.hexDigit, hh, hl, hv]
  · simp only [Bytes.hex, Bytes.hexDigit, List.all_cons, List.all_nil,
      Bool.and_true, Bool.and_eq_true]
    exact ⟨isOrdinary_of_isHexDigit (by rw [isHexDigit, hh]; rfl),
      isOrdinary_of_isHexDigit (by rw [isHexDigit, hl]; rfl)⟩

lemma codePoint_digit {d v : Nat} (hc : hexValue? c = some d) (hv : v < 0x80000000) (k : Nat)
    (rest : Bytes) : codePoint v.toUInt32 k (c :: rest) = if v ≤ 0x7ffffff then
      codePoint (v * 16 + d).toUInt32 (k + 1) rest else .error .valueTooLarge := by
  have hcl : c ≠ byte '\x7d' := by
    rintro rfl
    cases hc
  have hn : v.toUInt32.toNat = v := Nat.mod_eq_of_lt (by omega)
  have hlt : (0x7fffffff : UInt32) >>> 4 < v.toUInt32 ↔ ¬v ≤ 0x7ffffff := by
    rw [UInt32.lt_iff_toNat_lt, hn, Nat.not_le]
    rfl
  have ho : v.toUInt32 <<< 4 ||| d.toUInt32 = (v * 16 + d).toUInt32 := by
    rw [← shiftLeft_or (hexValue?_lt hc)]
    exact ((UInt32.ofNat_or _ _).trans (by rw [UInt32.ofNat_shiftLeft _ _ (by decide)]; rfl)).symm
  rw [codePoint, if_neg hcl, hc]
  simp only [hlt, ho, ite_not]

lemma codePoint_hexNat (hx : x < 0x80000000) (k : Nat) (rest : Bytes) :
    (Bytes.hexNat x).all isHexDigit = true ∧ codePoint 0 k (Bytes.hexNat x ++ rest) =
      codePoint x.toUInt32 (k + (Bytes.hexNat x).length) rest := by
  induction x using Nat.strongRecOn generalizing k rest with
  | ind x ih =>
    by_cases hlt : x < 16
    · have hd := hexValue?_digitChar x hlt
      rw [Bytes.hexNat, Nat.toDigits_of_lt_base hlt]
      refine ⟨by simp [isHexDigit, hd], ?_⟩
      simpa using codePoint_digit hd (v := 0) (by decide) k rest
    · have hd := hexValue?_digitChar (x % 16) (Nat.mod_lt _ (by decide))
      have hs : Bytes.hexNat x = Bytes.hexNat (x / 16) ++ [byte (Nat.digitChar (x % 16))] := by
        rw [Bytes.hexNat, Nat.toDigits_of_base_le (by decide) (Nat.not_lt.mp hlt), List.map_append]
        rfl
      have hv : x / 16 * 16 + x % 16 = x := by omega
      obtain ⟨ha, hr⟩ := ih (x / 16) (by omega) (by omega) k
        (byte (Nat.digitChar (x % 16)) :: rest)
      rw [hs]
      refine ⟨by simp [isHexDigit, hd, ha], ?_⟩
      rw [List.append_assoc, List.singleton_append, hr, codePoint_digit hd (by omega),
        if_pos (by omega), hv, List.length_append]
      rfl

lemma isEscape_codePoint (hx : x < 0x110000) :
    IsEscape (byte 'u' :: byte '\x7b' :: (Bytes.hexNat x ++ [byte '\x7d'])) (Utf8.encode x) := by
  have hlt : x < 0x80000000 := by omega
  refine ⟨fun rest => ?_, shortStringEnd_escaped (by decide) (by decide) ?_⟩
  · have hs : Escape.single? (byte 'u') = none := rfl
    have hbr : isLineBreak (byte 'u') = false := rfl
    have hx' : byte 'u' ≠ byte 'x' := by decide
    have hz : byte 'u' ≠ byte 'z' := by decide
    have hso : (Bytes.hexNat x).length ≠ 0 := by simp [Bytes.hexNat]
    have hr := (codePoint_hexNat hlt 0 (byte '\x7d' :: rest)).2
    rw [Escape.codePoint, Nat.zero_add, if_neg hso] at hr
    simp [Escape.read, hs, hbr, hx', hz, hr, Utf8.extended_eq_encode hx]
  · have ha := (codePoint_hexNat hlt 0 []).1
    have hd : (Bytes.hexNat x).all isOrdinary = true :=
      List.all_eq_true.mpr fun c hc => isOrdinary_of_isHexDigit (List.all_eq_true.mp ha c hc)
    have hb : isOrdinary (byte '\x7b') = true ∧ isOrdinary (byte '\x7d') = true := by decide
    simp [hd, hb]

lemma zeroPad_ofNat : ∀ n < 256, Bytes.zeroPad 3 (Bytes.ofNat n) =
    [n / 100, n / 10 % 10, n % 10].map fun d => byte (Nat.digitChar d) := by
  decide +kernel

lemma digit_facts : ∀ d < 10, let c := byte (Nat.digitChar d)
    isDigit c = true ∧ digitValue c = d ∧ single? c = none ∧ isLineBreak c = false ∧
      c ≠ byte 'z' ∧ c ≠ byte 'x' ∧ c ≠ byte 'u' := by
  decide

lemma isEscape_decimal (c : UInt8) : IsEscape (Bytes.zeroPad 3 (Bytes.ofNat c.toNat)) [c] := by
  have hc : c.toNat < 256 := c.toNat_lt
  have hh := digit_facts (c.toNat / 100) (by omega)
  have ht := digit_facts (c.toNat / 10 % 10) (by omega)
  have ho := digit_facts (c.toNat % 10) (by omega)
  have hv : (c.toNat / 100 * 10 + c.toNat / 10 % 10) * 10 + c.toNat % 10 = c.toNat := by omega
  rw [zeroPad_ofNat _ hc]
  refine ⟨fun rest => ?_, shortStringEnd_escaped hh.2.2.2.2.1 hh.2.2.2.1 ?_⟩
  · have hle : ¬0xff < c.toNat := by omega
    simp [Escape.read, Escape.decimalDigits, Escape.decimalValue, hh, ht, ho, hv, hle]
  · simp [isOrdinary_of_isHexDigit, isHexDigit, hexValue?, ht, ho]

lemma single?_of_controlLetter? {letter : Char} (h : Quoted.controlLetter? c = some letter) :
    single? (byte letter) = some c := by
  unfold Quoted.controlLetter? at h
  repeat' split at h
  all_goals
    cases h
    try subst c
    try rfl

lemma Spells.short {c : UInt8} {e raw s : Bytes} (h : Quoted.short? c = some e)
    (hs : Spells raw s) : Spells (e ++ raw) (c :: s) := by
  unfold Quoted.short? at h
  split at h
  · next hc =>
    cases h
    have hsi : single? c = some c := by
      simp only [Bool.or_eq_true, decide_eq_true_eq] at hc
      rcases hc with rfl | rfl <;> rfl
    exact .escape (isEscape_single hsi) hs
  · split at h
    · next hp =>
      cases h
      refine .plain ?_ hs
      have hb : isLineBreak c = false := isLineBreak_of_class rfl rfl hp
      simp_all [isOrdinary]
    · obtain ⟨letter, hl, rfl⟩ := Option.map_eq_some_iff.mp h
      exact .escape (isEscape_single (single?_of_controlLetter? hl)) hs

lemma spells_quoteBytes (s : Bytes) : Spells (s.flatMap Quoted.spellByte) s := by
  induction s with
  | nil => exact .nil
  | cons c s ih =>
    rw [List.flatMap_cons, Quoted.spellByte]
    cases h : Quoted.short? c with
    | some e => exact .short h ih
    | none => exact .escape (isEscape_decimal c) ih

lemma spells_spellFrom (skip : Nat) (done s : Bytes) : ∃ raw,
    Quoted.spellFrom skip done s = done.reverse ++ raw ∧ Spells raw (s.drop skip) := by
  fun_induction Quoted.spellFrom skip done s with
  | case1 skip done => exact ⟨[], by simp, by simpa using Spells.nil⟩
  | case2 skip done c rest ih => exact ih
  | case3 done c rest _ ih =>
    obtain ⟨raw, hr, hs⟩ := ih
    refine ⟨Quoted.hexEscape c ++ raw, by simp [hr], ?_⟩
    exact Spells.escape (isEscape_hex c) hs
  | case4 done c rest x size hd e he ih =>
    obtain ⟨raw, hr, hs⟩ := ih
    refine ⟨e ++ raw, by simp [hr], ?_⟩
    split at he
    · exact .short he hs
    · cases he
  | case5 done c rest x size hd he ih =>
    obtain ⟨raw, hr, hs⟩ := ih
    refine ⟨Quoted.codePointEscape x ++ raw, by simp [hr], ?_⟩
    obtain ⟨hc, hsp, -⟩ := Utf8.eq_encode_append hd
    rw [hsp]
    exact Spells.escape (isEscape_codePoint hc.lt) hs

/-- What is quoted in either way is one short string for the scanner and stands for the same
bytes. -/
theorem quoted_readsBack (s : Bytes) :
    ReadsBack (quote s) s ∧ ReadsBack (Value.string s).listingText s := by
  obtain ⟨raw, hraw, hs⟩ := spells_spellFrom 0 [] s
  refine ⟨?_, (spells_quoteBytes s).readsBack⟩
  rw [quote, hraw]
  exact hs.readsBack

end LuaBytecode
