import LuaBytecode.Proofs.Number.Numeral
import LuaBytecode.Proofs.Text.Quoted

namespace LuaBytecode

namespace Utf8

variable {x n v : Nat} {cs rest : Bytes}

def leadingOnes : (width : Nat) → Nat → Nat
  | 0, _ => 0
  | w + 1, a => if 2 ^ w ≤ a then leadingOnes w (a - 2 ^ w) + 1 else 0

def append (v : Nat) (b : UInt8) : Nat := v * 64 + payload b

def value : Bytes → Nat
  | [] => 0
  | a :: rest => rest.foldl append (a.toNat % 2 ^ (7 - leadingOnes 8 a.toNat))

def IsForm : Bytes → Prop
  | [] => False
  | a :: rest => rest.length ≤ 5 ∧
      leadingOnes 8 a.toNat = (if rest = [] then 0 else rest.length + 1) ∧
      rest.all isContinuation = true

lemma leadBits_le (n : Nat) : leadBits n ≤ 7 := by
  unfold leadBits
  split <;> omega

lemma leadingOnes_eq_iff : ∀ w ≤ 7, ∀ a < 256,
    leadingOnes 8 a = 7 - w ↔ a = 256 - 2 ^ (w + 1) + a % 2 ^ w := by
  decide +kernel

lemma lead_mod : ∀ w ≤ 7, ∀ v < 2 ^ w,
    (256 - 2 ^ (w + 1) + v) % 2 ^ w = v ∧ 256 - 2 ^ (w + 1) + v < 256 := by
  decide +kernel

lemma all_continuation (n x : Nat) : (continuation n x).all isContinuation = true := by
  induction n with
  | zero => rfl
  | succ n ih =>
    rw [continuation, List.all_cons, ih, Bool.and_true, isContinuation_iff, toNat_continuation]
    omega

lemma foldl_append (v : Nat) (cs : Bytes) :
    cs.foldl append v = v * 64 ^ cs.length + cs.foldl append 0 ∧
      cs.foldl append 0 < 64 ^ cs.length := by
  induction cs generalizing v with
  | nil => simp
  | cons b cs ih =>
    have hb : payload b < 64 := Nat.mod_lt _ (by decide)
    obtain ⟨hv, hlt⟩ := ih (append v b)
    have h0 := (ih (append 0 b)).1
    simp only [List.foldl_cons, List.length_cons, Nat.pow_succ]
    rw [hv, h0, append, append, Nat.zero_mul, Nat.zero_add]
    constructor
    · ring
    · have := Nat.mul_le_mul_right (64 ^ cs.length) (Nat.le_of_lt_succ hb)
      omega

lemma foldl_continuation (n x v : Nat) :
    (continuation n x).foldl append v = v * 64 ^ n + x % 64 ^ n := by
  induction n generalizing v with
  | zero => simp [continuation, Nat.mod_one]
  | succ n ih =>
    rw [continuation, List.foldl_cons, ih, append, payload, toNat_continuation, Nat.pow_succ,
      Nat.mod_mul, Nat.shiftRight_eq_div_pow, Nat.pow_mul, show (2 : Nat) ^ 6 = 64 from rfl,
      show (0x80 + x / 64 ^ n % 64) % 64 = x / 64 ^ n % 64 by omega]
    ring

lemma continuation_foldl (h : rest.all isContinuation = true) (v : Nat) :
    continuation rest.length (rest.foldl append v) = rest := by
  induction rest generalizing v with
  | nil => rfl
  | cons b rest ih =>
    rw [List.all_cons, Bool.and_eq_true, isContinuation_iff] at h
    obtain ⟨hv, hlt⟩ := foldl_append (append v b) rest
    rw [List.length_cons, List.foldl_cons, continuation, ih h.2, Nat.shiftRight_eq_div_pow,
      Nat.pow_mul, hv, Nat.mul_comm, Nat.mul_add_div (Nat.zero_lt_of_lt hlt), Nat.div_eq_of_lt hlt]
    congr 1
    apply toUInt8_of_eq
    rw [append, payload]
    omega

lemma isForm_form (hn : n ≤ 5) (h : x < limit n) :
    IsForm (form n x) ∧ value (form n x) = x := by
  have hx := Nat.div_lt_of_lt_mul (h.trans_eq (Nat.mul_comm _ _))
  obtain ⟨hm, hlt⟩ := lead_mod _ (leadBits_le n) _ hx
  have ha : (256 - 2 ^ (leadBits n + 1) + x / 64 ^ n).toUInt8.toNat =
      256 - 2 ^ (leadBits n + 1) + x / 64 ^ n := by
    rw [Nat.toUInt8_eq, UInt8.toNat_ofNat', Nat.mod_eq_of_lt hlt]
  have ho := (leadingOnes_eq_iff _ (leadBits_le n) _ hlt).mpr (by rw [hm])
  have hw := leadBits_le n
  refine ⟨⟨by simpa using hn, ?_, all_continuation n x⟩, ?_⟩
  · rw [ha, ho, length_continuation, leadBits]
    cases n with
    | zero => rfl
    | succ n =>
      simp only [continuation]
      simp
      omega
  · rw [form, value, ha, ho, Nat.sub_sub_self hw, hm, foldl_continuation, Nat.mul_comm]
    exact Nat.div_add_mod x _

lemma exists_form (h : IsForm cs) : ∃ n ≤ 5, value cs < limit n ∧
    cs = form n (value cs) := by
  cases cs with
  | nil => exact h.elim
  | cons a rest =>
    obtain ⟨hn, ho, hall⟩ := h
    have hw := leadBits_le rest.length
    have ho' : leadingOnes 8 a.toNat = 7 - leadBits rest.length := by
      rw [ho, leadBits]
      cases rest with
      | nil => rfl
      | cons b rest =>
        rw [List.length_cons] at hn ⊢
        simp
        omega
    have ha := (leadingOnes_eq_iff _ hw _ a.toNat_lt).mp ho'
    have hlt := Nat.mod_lt a.toNat (Nat.two_pow_pos (leadBits rest.length))
    obtain ⟨hv, hl⟩ := foldl_append (a.toNat % 2 ^ leadBits rest.length) rest
    have he : value (a :: rest) = rest.foldl append (a.toNat % 2 ^ leadBits rest.length) := by
      rw [value, ho', Nat.sub_sub_self hw]
    rw [he]
    refine ⟨rest.length, hn, ?_, ?_⟩
    · have := Nat.mul_le_mul_right (64 ^ rest.length) (Nat.succ_le_of_lt hlt)
      rw [hv, limit]
      rw [Nat.succ_mul] at this
      omega
    · rw [form, continuation_foldl hall, hv, Nat.mul_comm, Nat.mul_add_div (Nat.zero_lt_of_lt hl),
        Nat.div_eq_of_lt hl]
      exact congrArg (· :: rest) (toUInt8_of_eq ha.symm).symm

lemma IsForm.eq_of_start {ds : Bytes} (hc : IsForm cs) (hd : IsForm ds) (h : cs <+: ds) :
    cs = ds := by
  obtain ⟨t, rfl⟩ := h
  cases cs with
  | nil => exact hc.elim
  | cons a rest =>
    have ho : (if rest = [] then 0 else rest.length + 1) =
        if rest ++ t = [] then 0 else (rest ++ t).length + 1 := hc.2.1.symm.trans hd.2.1
    have ht : t = [] := by
      cases rest with
      | nil => simpa using ho
      | cons b rest => simpa using ho
    rw [ht, List.append_nil]

lemma extended_val (c : Char) : extended c.val = String.utf8EncodeChar c := by
  have hc : c.val.toNat < 0x110000 := by
    rcases c.valid with h | h
    · exact Nat.lt_trans h (by decide)
    · exact h.2
  have he := extended_eq_encode hc
  rw [show c.val.toNat.toUInt32 = c.val from UInt32.ofNat_toNat] at he
  rw [he]
  unfold String.utf8EncodeChar
  dsimp only
  split
  · rw [encode, if_pos (by omega)]
  · split
    · rw [encode_two (by omega) (by omega), Nat.add_comm, Nat.mod_eq_of_lt (b := 32) (by omega),
        Nat.add_comm (_ % 64)]
    · split
      · rw [encode_three (by omega) (by omega), Nat.add_comm,
          Nat.mod_eq_of_lt (b := 16) (by omega), Nat.add_comm (_ % 64), Nat.add_comm (_ % 64)]
      · rw [encode_four (by omega), Nat.add_comm, Nat.mod_eq_of_lt (b := 8) (by omega),
          Nat.add_comm (_ % 64), Nat.add_comm (_ % 64), Nat.add_comm (_ % 64)]

end Utf8

namespace Escape

open Numeral

variable {ds rest text : Bytes}

lemma codePoint_digits (h : ds.all isHexDigit = true) {v : Nat} (hv : v < 0x80000000) (k : Nat)
    (rest : Bytes) : codePoint v.toUInt32 k (ds ++ rest) =
      if v * 16 ^ ds.length + value 16 ds < 0x80000000 then
        codePoint (v * 16 ^ ds.length + value 16 ds).toUInt32 (k + ds.length) rest
      else .error .valueTooLarge := by
  induction ds generalizing v k with
  | nil =>
    have h0 : v * 16 ^ ([] : Bytes).length + value 16 [] = v := by simp [value]
    rw [h0, if_pos hv]
    rfl
  | cons c ds ih =>
    rw [List.all_cons, Bool.and_eq_true] at h
    obtain ⟨d, hd⟩ := Option.isSome_iff_exists.mp h.1
    have he : v * 16 ^ (c :: ds).length + value 16 (c :: ds) =
        (v * 16 + d) * 16 ^ ds.length + value 16 ds := by
      rw [value_cons, hd, List.length_cons, Option.getD_some]
      ring
    have hlt := hexValue?_lt hd
    rw [he, List.cons_append, codePoint_digit hd hv]
    split
    · rw [ih h.2 (by omega), List.length_cons]
      congr 2
      omega
    · have hp := Nat.mul_le_mul_left (v * 16 + d) (Nat.one_le_pow ds.length 16 (by decide))
      rw [if_neg (by omega)]

lemma read_codePoint (text : Bytes) : Escape.read (byte 'u' :: byte '\x7b' :: text) =
    (codePoint 0 0 text).map fun p => (Utf8.extended p.1, p.2 + 3) := by
  have hs : single? (byte 'u') = none := rfl
  have hb : isLineBreak (byte 'u') = false := rfl
  have hz : byte 'u' ≠ byte 'z' := by decide
  have hx : byte 'u' ≠ byte 'x' := by decide
  simp only [Escape.read, hs, hb, hz, hx, Bool.false_eq_true, if_false, if_true]
  cases codePoint 0 0 text <;> rfl

lemma read_digits (hne : ds ≠ []) (h : ds.all isHexDigit = true) (rest : Bytes) :
    Escape.read (byte 'u' :: byte '\x7b' :: (ds ++ byte '\x7d' :: rest)) =
      if value 16 ds < 0x80000000 then .ok (Utf8.extended (value 16 ds).toUInt32, ds.length + 3)
      else .error .valueTooLarge := by
  have hc := codePoint_digits h (v := 0) (by decide) 0 (byte '\x7d' :: rest)
  rw [Nat.zero_mul, Nat.zero_add, Nat.zero_add] at hc
  rw [read_codePoint, show (0 : UInt32) = Nat.toUInt32 0 from rfl, hc]
  split
  · rw [codePoint, if_pos rfl, if_neg (mt List.length_eq_zero_iff.mp hne)]
    rfl
  · rfl

lemma exists_digits_of_codePoint {v : UInt32} {k : Nat} {p : UInt32 × Nat}
    (h : codePoint v k text = .ok p) :
    ∃ ds rest, text = ds ++ byte '\x7d' :: rest ∧ ds.all isHexDigit = true ∧ k + ds.length ≠ 0 := by
  induction text generalizing v k with
  | nil => cases h
  | cons c text ih =>
    rw [codePoint] at h
    split at h
    · next hc =>
      split at h
      · cases h
      · next hk => exact ⟨[], text, by rw [hc]; rfl, rfl, hk⟩
    · split at h
      · cases h
      · next d hd =>
        split at h
        · cases h
        · obtain ⟨ds, rest, rfl, ha, hn⟩ := ih h
          refine ⟨c :: ds, rest, rfl, ?_, by simp⟩
          rw [List.all_cons, ha, isHexDigit, hd]
          rfl

lemma exists_digits_of_read {r : Bytes × Nat} (h : Escape.read (byte 'u' :: text) = .ok r) :
    ∃ ds rest, text = byte '\x7b' :: (ds ++ byte '\x7d' :: rest) ∧ ds ≠ [] ∧
      ds.all isHexDigit = true := by
  cases text with
  | nil => cases h
  | cons b text =>
    by_cases hb : b = byte '\x7b'
    · subst hb
      rw [read_codePoint] at h
      cases hc : codePoint 0 0 text with
      | error e => rw [hc] at h; cases h
      | ok p =>
        obtain ⟨ds, rest, rfl, ha, hn⟩ := exists_digits_of_codePoint hc
        exact ⟨ds, rest, rfl, fun hd => hn (by rw [hd]; rfl), ha⟩
    · have hr : Escape.read (byte 'u' :: b :: text) = .error .missingOpenBrace := by
        show (if b = byte '\x7b' then _ else _) = _
        exact if_neg hb
      rw [hr] at h
      cases h

lemma decodeFrom_digits (hne : ds ≠ []) (h : ds.all isHexDigit = true) (offset : Nat)
    (done rest : Bytes) :
    decodeFrom 0 offset done (byte '\\' :: byte 'u' :: byte '\x7b' :: (ds ++ byte '\x7d' :: rest)) =
      if value 16 ds < 0x80000000 then
        decodeFrom 0 (offset + ds.length + 4)
          ((Utf8.extended (value 16 ds).toUInt32).reverse ++ done) rest
      else .error (offset, .valueTooLarge) := by
  rw [decodeFrom, if_pos rfl, read_digits hne h]
  by_cases hv : value 16 ds < 0x80000000
  · have hs := Spells.decodeFrom_skip (byte 'u' :: byte '\x7b' :: (ds ++ [byte '\x7d']))
      (offset + 1) ((Utf8.extended (value 16 ds).toUInt32).reverse ++ done) rest
    rw [if_pos hv, if_pos hv]
    simp only [List.length_cons, List.length_append, List.length_nil, List.cons_append,
      List.append_assoc, List.nil_append] at hs
    rw [show offset + ds.length + 4 = offset + 1 + (ds.length + (0 + 1) + 1 + 1) by omega]
    exact hs
  · rw [if_neg hv, if_neg hv]

end Escape

/-- A number of up to 31 bits has one shortest form, and that is what is written for it. No form is
the start of another, and the forms of characters are those of UTF-8. An escape in braces stands for
the number that its digits are, and is refused if that is too large, also behind zeros. -/
theorem encode_extended :
    (∀ x : UInt32, x < 0x80000000 →
      Utf8.IsForm (Utf8.extended x) ∧ Utf8.value (Utf8.extended x) = x.toNat ∧
      (∀ cs, Utf8.IsForm cs → Utf8.value cs = x.toNat →
        cs = Utf8.extended x ∨ (Utf8.extended x).length < cs.length) ∧
      ∀ y : UInt32, y < 0x80000000 → Utf8.extended x <+: Utf8.extended y → x = y) ∧
    (∀ c : Char, Utf8.extended c.val = String.utf8EncodeChar c) ∧
    (∀ ds ≠ [], ds.all isHexDigit = true → ∀ offset done rest, Escape.decodeFrom 0 offset done
          (byte '\\' :: byte 'u' :: byte '\x7b' :: (ds ++ byte '\x7d' :: rest)) =
        if Numeral.value 16 ds < 0x80000000 then
          Escape.decodeFrom 0 (offset + ds.length + 4)
            ((Utf8.extended (Numeral.value 16 ds).toUInt32).reverse ++ done) rest
        else .error (offset, .valueTooLarge)) ∧
    ∀ text r, Escape.read (byte 'u' :: text) = .ok r →
      ∃ ds rest, text = byte '\x7b' :: (ds ++ byte '\x7d' :: rest) ∧ ds ≠ [] ∧
        ds.all isHexDigit = true := by
  have hf : ∀ x : UInt32, x < 0x80000000 → ∃ n ≤ 5, Utf8.extended x = Utf8.form n x.toNat ∧
      x.toNat < Utf8.limit n ∧ ∀ m < n, Utf8.limit m ≤ x.toNat := by
    intro x hx
    have he := Utf8.extended_eq_form (x := x.toNat) hx
    rwa [show x.toNat.toUInt32 = x from UInt32.ofNat_toNat] at he
  have he : ∀ x : UInt32, x < 0x80000000 →
      Utf8.IsForm (Utf8.extended x) ∧ Utf8.value (Utf8.extended x) = x.toNat := by
    intro x hx
    obtain ⟨n, hn, heq, hlt, -⟩ := hf x hx
    rw [heq]
    exact Utf8.isForm_form hn hlt
  refine ⟨fun x hx => ⟨(he x hx).1, (he x hx).2, fun cs hc hv => ?_, fun y hy hp => ?_⟩,
    Utf8.extended_val, fun ds hne hd => Escape.decodeFrom_digits hne hd,
    fun text r => Escape.exists_digits_of_read⟩
  · obtain ⟨n, -, heq, -, hleast⟩ := hf x hx
    obtain ⟨m, -, hlt, hcs⟩ := Utf8.exists_form hc
    rw [hv] at hlt hcs
    rw [hcs, heq]
    rcases Nat.lt_trichotomy n m with h | rfl | h
    · exact .inr (by simpa [Utf8.form] using h)
    · exact .inl rfl
    · exact absurd (hleast m h) (by omega)
  · rw [← UInt32.toNat_inj, ← (he x hx).2, ← (he y hy).2, (he x hx).1.eq_of_start (he y hy).1 hp]

end LuaBytecode
