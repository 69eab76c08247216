import LuaBytecode.Proofs.Bits
import LuaBytecode.Text.Utf8

namespace LuaBytecode.Utf8

variable {x : Nat} {a b : UInt8}

lemma encode_two (hl : 0x80 ≤ x) (hh : x < 0x800) :
    encode x = [(0xc0 + x / 64).toUInt8, (0x80 + x % 64).toUInt8] := by
  rw [encode, if_neg (by omega), if_pos hh]
  simp [continuation, Nat.shiftRight_eq_div_pow]

lemma encode_three (hl : 0x800 ≤ x) (hh : x < 0x10000) :
    encode x = [(0xe0 + x / 4096).toUInt8, (0x80 + x / 64 % 64).toUInt8,
      (0x80 + x % 64).toUInt8] := by
  rw [encode, if_neg (by omega), if_neg (by omega), if_pos hh]
  simp [continuation, Nat.shiftRight_eq_div_pow]

lemma encode_four (hl : 0x10000 ≤ x) :
    encode x = [(0xf0 + x / 262144).toUInt8, (0x80 + x / 4096 % 64).toUInt8,
      (0x80 + x / 64 % 64).toUInt8, (0x80 + x % 64).toUInt8] := by
  rw [encode, if_neg (by omega), if_neg (by omega), if_neg (by omega)]
  simp [continuation, Nat.shiftRight_eq_div_pow]

lemma toUInt8_of_eq {n : Nat} (h : n = a.toNat) : n.toUInt8 = a := by
  simp [h]

lemma within_iff {low high : UInt8} :
    within low high b = true ↔ low.toNat ≤ b.toNat ∧ b.toNat ≤ high.toNat := by
  simp [within, UInt8.le_iff_toNat_le]

lemma isContinuation_iff : isContinuation b = true ↔ 0x80 ≤ b.toNat ∧ b.toNat ≤ 0xbf := within_iff

lemma second_range (h : within (secondRange a).1 (secondRange a).2 b = true) :
    0x80 ≤ b.toNat ∧ b.toNat ≤ 0xbf ∧ (a.toNat = 0xe0 → 0xa0 ≤ b.toNat) ∧
      (a.toNat = 0xf0 → 0x90 ≤ b.toNat) ∧ (a.toNat = 0xf4 → b.toNat ≤ 0x8f) := by
  simp only [secondRange, ← UInt8.toNat_inj] at h
  repeat' split at h
  all_goals
    rw [within_iff] at h
    simp_all
    try omega

structure IsChar (x : Nat) : Prop where
  lt : x < 0x110000
  decode : ∀ t, decode? (encode x ++ t) = some (x, (encode x).length)

lemma isChar_of_encode {cs : Bytes} (rest : Bytes) (he : encode x = cs) (hlt : x < 0x110000)
    (hd : ∀ t, decode? (cs ++ t) = some (x, cs.length)) :
    IsChar x ∧ ∃ t, cs ++ rest = encode x ++ t ∧ cs.length = (encode x).length := by
  subst he
  exact ⟨⟨hlt, hd⟩, rest, rfl, rfl⟩

lemma isChar_of_decode? {s : Bytes} {size : Nat} (h : decode? s = some (x, size)) :
    IsChar x ∧ ∃ t, s = encode x ++ t ∧ size = (encode x).length := by
  cases s with
  | nil => cases h
  | cons a rest =>
    simp only [decode?] at h
    split at h
    · next hlt =>
      cases h
      have hx : a.toNat < 0x80 := hlt
      have he : encode a.toNat = [a] := by rw [encode, if_pos hx, toUInt8_of_eq rfl]
      exact isChar_of_encode rest he (by omega) fun t => if_pos hlt
    · next hlt =>
      split at h
      · next hl =>
        have ha : 0xc2 ≤ a.toNat ∧ a.toNat ≤ 0xdf := within_iff.mp hl
        split at h
        · next b rest =>
          split at h
          · next hby =>
            cases h
            have hb := isContinuation_iff.mp hby
            have he : encode (a.toNat % 32 * 64 + payload b) = [a, b] := by
              rw [payload, encode_two (by omega) (by omega), toUInt8_of_eq (a := a) (by omega),
                toUInt8_of_eq (a := b) (by omega)]
            exact isChar_of_encode rest he (by rw [payload]; omega) fun t => by
              simp [decode?, hlt, hl, hby]
          · cases h
        · cases h
      · next htw =>
        split at h
        · next hl =>
          have ha : 0xe0 ≤ a.toNat ∧ a.toNat ≤ 0xef := within_iff.mp hl
          split at h
          · next b c rest =>
            split at h
            · next hby =>
              cases h
              rw [Bool.and_eq_true] at hby
              have hb := second_range hby.1
              have hc := isContinuation_iff.mp hby.2
              have he : encode ((a.toNat % 16 * 64 + payload b) * 64 + payload c) = [a, b, c] := by
                rw [payload, payload, encode_three (by omega) (by omega),
                  toUInt8_of_eq (a := a) (by omega), toUInt8_of_eq (a := b) (by omega),
                  toUInt8_of_eq (a := c) (by omega)]
              exact isChar_of_encode rest he (by rw [payload, payload]; omega) fun t => by
                simp [decode?, hlt, htw, hl, hby]
            · cases h
          · cases h
        · next ht =>
          split at h
          · next hl =>
            have ha : 0xf0 ≤ a.toNat ∧ a.toNat ≤ 0xf4 := within_iff.mp hl
            split at h
            · next b c d rest =>
              split at h
              · next hby =>
                cases h
                rw [Bool.and_eq_true, Bool.and_eq_true] at hby
                have hb := second_range hby.1.1
                have hc := isContinuation_iff.mp hby.1.2
                have hd := isContinuation_iff.mp hby.2
                have he : encode (((a.toNat % 8 * 64 + payload b) * 64 + payload c) * 64 +
                    payload d) = [a, b, c, d] := by
                  rw [payload, payload, payload, encode_four (by omega),
                    toUInt8_of_eq (a := a) (by omega), toUInt8_of_eq (a := b) (by omega),
                    toUInt8_of_eq (a := c) (by omega), toUInt8_of_eq (a := d) (by omega)]
                exact isChar_of_encode rest he (by rw [payload, payload, payload]; omega)
                  fun t => by simp [decode?, hlt, htw, ht, hl, hby]
              · cases h
            · cases h
          · cases h

lemma length_encode_pos (x : Nat) : 0 < (encode x).length := by
  unfold encode
  repeat' split
  all_goals simp

lemma eq_encode_append {c : UInt8} {rest : Bytes} {size : Nat}
    (h : decode? (c :: rest) = some (x, size)) :
    IsChar x ∧ c :: rest = encode x ++ rest.drop (size - 1) ∧ size = (encode x).length := by
  obtain ⟨hc, t, hs, rfl⟩ := isChar_of_decode? h
  refine ⟨hc, ?_, rfl⟩
  rw [← List.drop_succ_cons (a := c), Nat.sub_add_cancel (length_encode_pos x), hs, List.drop_left]

lemma isChar_of_lt (h : x < 0x80) : IsChar x ∧ encode x = [x.toUInt8] := by
  have he : encode x = [x.toUInt8] := by rw [encode, if_pos h]
  refine ⟨⟨by omega, fun t => ?_⟩, he⟩
  have hx : x.toUInt8.toNat = x := by simp; omega
  have hlt : x.toUInt8 < 0x80 := by rw [UInt8.lt_iff_toNat_lt, hx]; exact h
  rw [he]
  simp only [decode?, List.singleton_append, if_pos hlt, hx]
  rfl

lemma le_of_mem_encode (h : IsChar x) (hx : 0x80 ≤ x) :
    2 ≤ (encode x).length ∧ ∀ b ∈ encode x, 0x80 ≤ b := by
  have hlt := h.lt
  by_cases htw : x < 0x800
  · rw [encode_two hx htw]
    simp [UInt8.le_iff_toNat_le]
    omega
  · by_cases ht : x < 0x10000
    · rw [encode_three (by omega) ht]
      simp [UInt8.le_iff_toNat_le]
      omega
    · rw [encode_four (by omega)]
      simp [UInt8.le_iff_toNat_le]
      omega

lemma isChar_of_two (hlo : 0x80 ≤ x) (hh : x < 0x800) : IsChar x := by
  have he := encode_two hlo hh
  have ha : (0xc0 + x / 64).toUInt8.toNat = 0xc0 + x / 64 := by simp; omega
  have hb : (0x80 + x % 64).toUInt8.toNat = 0x80 + x % 64 := by simp; omega
  refine ⟨by omega, fun t => ?_⟩
  rw [he]
  generalize (0xc0 + x / 64).toUInt8 = a at *
  generalize (0x80 + x % 64).toUInt8 = b at *
  have hlt : ¬a < 0x80 := by rw [UInt8.lt_iff_toNat_lt]; simp; omega
  have hl : within 0xc2 0xdf a = true :=
    within_iff.mpr ⟨by rw [ha]; simp; omega, by rw [ha]; simp; omega⟩
  have hc : isContinuation b = true := isContinuation_iff.mpr (by omega)
  simp [decode?, hlt, hl, hc, payload]
  omega

/-- The bits that the first byte holds of a number with `n` continuation bytes. -/
def leadBits (n : Nat) : Nat := if n = 0 then 7 else 6 - n

def limit (n : Nat) : Nat := 2 ^ leadBits n * 64 ^ n

def form (n x : Nat) : Bytes :=
  (256 - 2 ^ (leadBits n + 1) + x / 64 ^ n).toUInt8 :: continuation n x

@[simp] lemma length_continuation (n x : Nat) : (continuation n x).length = n := by
  induction n with
  | zero => rfl
  | succ n ih => simp [continuation, ih]

lemma toNat_continuation (v : Nat) : (0x80 + v % 64).toUInt8.toNat = 0x80 + v % 64 := by
  simp
  omega

lemma mask_continuation (x : Nat) :
    (0x80 ||| x.toUInt32 &&& 0x3f).toUInt8 = (0x80 + x % 64).toUInt8 := by
  have hm : (x.toUInt32 &&& 0x3f).toNat = x % 64 := by
    rw [UInt32.toNat_and]
    refine (Nat.and_two_pow_sub_one_eq_mod _ 6).trans ?_
    simp
  rw [← UInt8.toNat_inj, toNat_continuation, UInt32.toNat_toUInt8, UInt32.toNat_or, hm, Nat.or_comm]
  have ho := or_shiftLeft (show x % 64 < 2 ^ 7 by omega) 1
  rw [show (0x80 : UInt32).toNat = 1 <<< 7 from rfl, ho]
  omega

def mask (w : Nat) : UInt32 := .ofNat (2 ^ w - 1)

lemma mask_lead : ∀ w ≤ 5, ∀ x < 2 ^ w,
    (~~~mask w <<< 1 ||| x.toUInt32).toUInt8 = (256 - 2 ^ (w + 1) + x).toUInt8 := by
  decide +kernel

/-- Behind `k` bytes the mask has one bit less for each of them, and what is left of the number is
what they do not hold. -/
lemma fill_step {k : Nat} (hk : k ≤ 4) (hx : x < 0x80000000) (room : Nat) :
    fill (room + 1) (x / 64 ^ k).toUInt32 (mask (6 - k)) (continuation k x) =
      if x < limit (k + 1) then form (k + 1) x
      else fill room (x / 64 ^ (k + 1)).toUInt32 (mask (6 - (k + 1)))
        (continuation (k + 1) x) := by
  have hw : ∀ k ≤ 4, mask (6 - k) >>> 1 = mask (6 - (k + 1)) ∧
      leadBits (k + 1) = 6 - (k + 1) ∧ (mask (6 - (k + 1))).toNat + 1 = 2 ^ (6 - (k + 1)) := by
    decide
  obtain ⟨hm, hl, hn⟩ := hw k hk
  have hlt : ∀ n, (x / 64 ^ n).toUInt32.toNat = x / 64 ^ n := fun n =>
    Nat.mod_eq_of_lt ((Nat.div_le_self x _).trans_lt (by omega))
  have hs : (x / 64 ^ k).toUInt32 >>> 6 = (x / 64 ^ (k + 1)).toUInt32 := by
    rw [← UInt32.toNat_inj, UInt32.toNat_shiftRight, hlt, hlt, Nat.pow_succ,
      ← Nat.div_div_eq_div_mul]
    exact Nat.shiftRight_eq_div_pow _ 6
  have hb : (0x80 ||| (x / 64 ^ k).toUInt32 &&& 0x3f).toUInt8 :: continuation k x =
      continuation (k + 1) x := by
    rw [mask_continuation, continuation, Nat.shiftRight_eq_div_pow, Nat.pow_mul]
  have hc : (x / 64 ^ (k + 1)).toUInt32 ≤ mask (6 - (k + 1)) ↔ x < limit (k + 1) := by
    rw [UInt32.le_iff_toNat_le, hlt, limit, hl, ← Nat.div_lt_iff_lt_mul (Nat.pow_pos (by decide)),
      ← hn, Nat.lt_succ_iff]
  simp only [fill, hs, hm, hb, hc]
  split
  · next hfit =>
    rw [limit, hl, ← Nat.div_lt_iff_lt_mul (Nat.pow_pos (by decide))] at hfit
    rw [form, hl, mask_lead _ (by omega) _ hfit]
  · rfl

lemma fill_eq_form {k : Nat} (room : Nat) (hr : 5 ≤ k + room) (hx : x < 0x80000000)
    (hle : ∀ m ≤ k, limit m ≤ x) :
    ∃ n ≤ 5, fill room (x / 64 ^ k).toUInt32 (mask (6 - k)) (continuation k x) =
      form n x ∧ x < limit n ∧ ∀ m < n, limit m ≤ x := by
  induction room generalizing k with
  | zero =>
    have h5 : 0x80000000 ≤ x := hle 5 hr
    omega
  | succ room ih =>
    have hk : k ≤ 4 := by
      by_contra hk
      have h5 : 0x80000000 ≤ x := hle 5 (by omega)
      omega
    rw [fill_step hk hx]
    split
    · next hlt => exact ⟨k + 1, by omega, rfl, hlt, fun m hm => hle m (by omega)⟩
    · next hlt =>
      refine ih (by omega) fun m hm => ?_
      rcases Nat.lt_or_eq_of_le hm with hm | rfl
      · exact hle m (by omega)
      · exact Nat.not_lt.mp hlt

lemma extended_eq_form (h : x < 0x80000000) : ∃ n ≤ 5, extended x.toUInt32 = form n x ∧
    x < limit n ∧ ∀ m < n, limit m ≤ x := by
  have hn : x.toUInt32.toNat = x := Nat.mod_eq_of_lt (by omega)
  unfold extended
  split
  · next hlt =>
    rw [UInt32.lt_iff_toNat_lt, hn] at hlt
    exact ⟨0, by decide, by simp [form, leadBits, continuation], hlt, nofun⟩
  · next hlt =>
    rw [UInt32.lt_iff_toNat_lt, hn] at hlt
    have hf := fill_eq_form (k := 0) 8 (by decide) h fun m hm => by
      obtain rfl : m = 0 := by omega
      exact Nat.not_lt.mp hlt
    rwa [Nat.pow_zero, Nat.div_one] at hf

lemma extended_eq_encode (h : x < 0x110000) : extended x.toUInt32 = encode x := by
  obtain ⟨n, hn, he, hlt, hle⟩ := extended_eq_form (x := x) (by omega)
  have h0 : 0 < n → 0x80 ≤ x := hle 0
  have h1 : 1 < n → 0x800 ≤ x := hle 1
  have h2 : 2 < n → 0x10000 ≤ x := hle 2
  have h3 : 3 < n → 0x200000 ≤ x := hle 3
  have hc : n = 0 ∨ n = 1 ∨ n = 2 ∨ n = 3 := by omega
  rw [he]
  rcases hc with rfl | rfl | rfl | rfl
  · have hx : x < 0x80 := hlt
    simp [encode, hx, form, leadBits, continuation]
  · have hx : x < 0x800 := hlt
    rw [encode, if_neg (by omega), if_pos hx]
    simp [form, leadBits, Nat.shiftRight_eq_div_pow]
  · have hx : x < 0x10000 := hlt
    rw [encode, if_neg (by omega), if_neg (by omega), if_pos hx]
    simp [form, leadBits, Nat.shiftRight_eq_div_pow]
  · rw [encode, if_neg (by omega), if_neg (by omega), if_neg (by omega)]
    simp [form, leadBits, Nat.shiftRight_eq_div_pow]

end LuaBytecode.Utf8
