import LuaBytecode.Number.Binary
import Mathlib.Algebra.Order.Field.Power
import Mathlib.Data.Rat.Cast.Order
import Mathlib.Tactic.FieldSimp
import Mathlib.Tactic.Positivity
import Mathlib.Tactic.Ring

namespace LuaBytecode

variable {den fraction n num m : Nat} {g f : FloatFormat} {e : Int}

lemma roundDiv_mul_self (n : Nat) (h : 0 < den) : roundDiv (n * den) den = n := by
  have hq : n * den / den = n := Nat.mul_div_cancel n h
  have hr : n * den % den = 0 := Nat.mul_mod_left n den
  have hn : ¬(den < 2 * 0 ∨ (2 * 0 = den ∧ n % 2 = 1)) := by omega
  simp only [roundDiv, hq, hr]
  rw [if_neg hn]

def binaryValue (mantissa : Nat) (exponent : Int) : ℚ := mantissa * 2 ^ exponent

lemma scaleByTwo_eq (m : Nat) (e : Int) : 0 < (scaleByTwo m e).2 ∧
      ((scaleByTwo m e).1 : ℚ) = binaryValue m e * (scaleByTwo m e).2 := by
  cases e with
  | ofNat e => simp [scaleByTwo, binaryValue, Nat.shiftLeft_eq]
  | negSucc e =>
    constructor
    · simp [scaleByTwo, Nat.shiftLeft_eq]
    · simp only [scaleByTwo, binaryValue, Nat.shiftLeft_eq, zpow_negSucc]
      push_cast
      field_simp

lemma two_zpow_lt {a b : Int} : (2 : ℚ) ^ a < 2 ^ b ↔ a < b := zpow_lt_zpow_iff_right₀ (by norm_num)

lemma cast_shiftLeft (n e : Nat) : ((n <<< e : Nat) : ℚ) = n * 2 ^ e := by
  simp [Nat.shiftLeft_eq]

lemma isBelowPower_iff (num den : Nat) (e : Int) :
    isBelowPower num den e = true ↔ (num : ℚ) < 2 ^ e * den := by
  cases e with
  | ofNat e =>
    rw [isBelowPower, decide_eq_true_iff, ← Nat.cast_lt (α := ℚ), cast_shiftLeft, mul_comm,
      Int.ofNat_eq_natCast, zpow_natCast]
  | negSucc e =>
    have hp : (0 : ℚ) < 2 ^ (e + 1) := by positivity
    rw [isBelowPower, decide_eq_true_iff, ← Nat.cast_lt (α := ℚ), cast_shiftLeft, zpow_negSucc,
      inv_mul_eq_div, lt_div_iff₀ hp]

lemma roundAt_eq (hd : 0 < den) (hv : (num : ℚ) = binaryValue m e * den) :
    roundAt num den e = m := by
  cases e with
  | ofNat e =>
    have heq : num = m * (den <<< e) := by
      rw [← Nat.cast_inj (R := ℚ), hv, Nat.cast_mul, cast_shiftLeft, binaryValue,
        Int.ofNat_eq_natCast, zpow_natCast]
      ring
    rw [roundAt, heq, roundDiv_mul_self m (by rw [Nat.shiftLeft_eq]; positivity)]
  | negSucc e =>
    have heq : num <<< (e + 1) = m * den := by
      rw [← Nat.cast_inj (R := ℚ), cast_shiftLeft, hv, binaryValue, zpow_negSucc]
      push_cast
      field_simp
    rw [roundAt, heq, roundDiv_mul_self m hd]

namespace FloatFormat

variable {exponent : Nat}

lemma binaryExponent_eq (hd : 0 < den) (hle : (2 : ℚ) ^ e * den ≤ num)
    (hlt : (num : ℚ) < 2 ^ (e + 1) * den) : binaryExponent num den = e := by
  have hd' : (0 : ℚ) < den := by exact_mod_cast hd
  have hn' : (0 : ℚ) < num := lt_of_lt_of_le (by positivity) hle
  have hn : num ≠ 0 := by
    have : 0 < num := by exact_mod_cast hn'
    omega
  have hn1 : (2 : ℚ) ^ (num.log2 : Int) ≤ num := by exact_mod_cast Nat.log2_self_le hn
  have hn2 : (num : ℚ) < 2 ^ ((num.log2 : Int) + 1) := by
    exact_mod_cast @Nat.lt_log2_self num
  have hd1 : (2 : ℚ) ^ (den.log2 : Int) ≤ den := by exact_mod_cast Nat.log2_self_le (by omega)
  have hd2 : (den : ℚ) < 2 ^ ((den.log2 : Int) + 1) := by
    exact_mod_cast @Nat.lt_log2_self den
  have hl : e + den.log2 < num.log2 + 1 := by
    rw [← two_zpow_lt, zpow_add₀ (by norm_num)]
    calc (2 : ℚ) ^ e * 2 ^ (den.log2 : Int) ≤ 2 ^ e * den := by gcongr
      _ ≤ num := hle
      _ < _ := hn2
  have hh : (num.log2 : Int) < e + 1 + (den.log2 + 1) := by
    rw [← two_zpow_lt, zpow_add₀ (by norm_num)]
    calc (2 : ℚ) ^ (num.log2 : Int) ≤ num := hn1
      _ < 2 ^ (e + 1) * den := hlt
      _ ≤ 2 ^ (e + 1) * 2 ^ ((den.log2 : Int) + 1) := by gcongr
  generalize hg : (num.log2 : Int) - den.log2 = guess
  simp only [binaryExponent, hg]
  by_cases hb : (num : ℚ) < 2 ^ guess * den
  · rw [if_pos ((isBelowPower_iff num den guess).mpr hb)]
    have : e < guess := by
      rw [← two_zpow_lt]
      exact lt_of_mul_lt_mul_right (lt_of_le_of_lt hle hb) hd'.le
    omega
  · rw [if_neg (fun h => hb ((isBelowPower_iff num den guess).mp h))]
    have : guess < e + 1 := by
      rw [← two_zpow_lt]
      exact lt_of_mul_lt_mul_right (lt_of_le_of_lt (not_lt.mp hb) hlt) hd'.le
    omega

structure Holds (f : FloatFormat) (mantissa : Nat) (exponent : Int) : Prop where
  lt : mantissa < 2 ^ (f.fractionBits + 1)
  min_le : f.minExponent ≤ exponent
  le_max : (exponent - f.minExponent).toNat + 2 < 2 ^ f.exponentBits
  normal : 2 ^ f.fractionBits ≤ mantissa ∨ exponent = f.minExponent

def pattern (f : FloatFormat) (mantissa : Nat) (exponent : Int) : Nat :=
  (exponent - f.minExponent).toNat * 2 ^ f.fractionBits + mantissa

lemma infinityBits_eq (f : FloatFormat) :
    f.infinityBits = (2 ^ f.exponentBits - 1) * 2 ^ f.fractionBits := by
  simp [infinityBits, Nat.shiftLeft_eq]

lemma Holds.pattern_lt (h : f.Holds m e) : f.pattern m e < f.infinityBits := by
  have hlt := h.lt
  have hma := h.le_max
  have hm : ((e - f.minExponent).toNat + 2) * 2 ^ f.fractionBits ≤
      (2 ^ f.exponentBits - 1) * 2 ^ f.fractionBits := Nat.mul_le_mul_right _ (by omega)
  rw [infinityBits_eq, pattern]
  rw [Nat.add_mul] at hm
  omega

lemma Holds.nearest {m num den : Nat} (h : f.Holds m e) (hd : 0 < den)
    (hv : (num : ℚ) = binaryValue m e * den) :
    f.nearest num den = f.pattern m e := by
  by_cases hm : m = 0
  · subst hm
    have hn : num = 0 := by simpa [binaryValue] using hv
    have he : e = f.minExponent := by
      have hp : 0 < 2 ^ f.fractionBits := by positivity
      rcases h.normal with hle | he
      · omega
      · exact he
    simp [FloatFormat.nearest, hn, pattern, he]
  · have hn : num ≠ 0 := by
      rintro rfl
      have : (0 : ℚ) < binaryValue m e * den := by unfold binaryValue; positivity
      rw [← hv] at this
      exact lt_irrefl _ this
    have hm1 : (2 : ℚ) ^ (m.log2 : Int) ≤ m := by exact_mod_cast Nat.log2_self_le hm
    have hm2 : (m : ℚ) < 2 ^ ((m.log2 : Int) + 1) := by exact_mod_cast @Nat.lt_log2_self m
    have hex : binaryExponent num den = m.log2 + e := by
      apply binaryExponent_eq hd
      · rw [hv, binaryValue, zpow_add₀ (by norm_num)]
        gcongr
      · rw [hv, binaryValue, add_right_comm, zpow_add₀ (by norm_num)]
        gcongr
    have hl : m.log2 < f.fractionBits + 1 := (Nat.log2_lt hm).mpr h.lt
    have hma : max (binaryExponent num den - f.fractionBits) f.minExponent = e := by
      have hmi := h.min_le
      rcases h.normal with hle | he
      · have : f.fractionBits ≤ m.log2 := (Nat.le_log2 hm).mpr hle
        omega
      · omega
    simp only [FloatFormat.nearest, if_neg hn, hma, roundAt_eq hd hv, Nat.shiftLeft_eq]
    exact Nat.min_eq_right h.pattern_lt.le

lemma signBit_eq (f : FloatFormat) : f.signBit = 2 ^ f.exponentBits * 2 ^ f.fractionBits := by
  rw [signBit, Nat.shiftLeft_eq, Nat.one_mul, Nat.add_comm, Nat.pow_add]

lemma exists_fields (f : FloatFormat) {bits : Nat} (h : bits < 2 * f.signBit) :
    ∃ negative exponent fraction, exponent < 2 ^ f.exponentBits ∧ fraction < 2 ^ f.fractionBits ∧
      bits = f.withSign negative (exponent * 2 ^ f.fractionBits + fraction) := by
  have hp : 0 < 2 ^ f.fractionBits := by positivity
  have hf : ∀ n < f.signBit, ∃ exponent fraction, exponent < 2 ^ f.exponentBits ∧
      fraction < 2 ^ f.fractionBits ∧ n = exponent * 2 ^ f.fractionBits + fraction := by
    intro n hn
    rw [signBit_eq] at hn
    exact ⟨n / 2 ^ f.fractionBits, n % 2 ^ f.fractionBits, (Nat.div_lt_iff_lt_mul hp).mpr hn,
      Nat.mod_lt n hp, (Nat.div_add_mod' n _).symm⟩
  by_cases hs : bits < f.signBit
  · obtain ⟨e, m, he, hm, heq⟩ := hf bits hs
    exact ⟨false, e, m, he, hm, heq⟩
  · obtain ⟨e, m, he, hm, heq⟩ := hf (bits - f.signBit) (by omega)
    refine ⟨true, e, m, he, hm, ?_⟩
    simp only [withSign, if_true, ← heq]
    omega

lemma fields_lt (he : exponent < 2 ^ f.exponentBits) (hm : fraction < 2 ^ f.fractionBits) :
    exponent * 2 ^ f.fractionBits + fraction < f.signBit := by
  rw [signBit_eq]
  calc exponent * 2 ^ f.fractionBits + fraction < (exponent + 1) * 2 ^ f.fractionBits := by
        rw [Nat.add_mul]
        omega
    _ ≤ _ := Nat.mul_le_mul_right _ he

lemma withSign_lt {negative : Bool} (h : n < f.signBit) :
    f.withSign negative n < 2 * f.signBit := by
  cases negative <;> simp [withSign] <;> omega

lemma decode_withSign (negative : Bool) (he : exponent < 2 ^ f.exponentBits)
    (hm : fraction < 2 ^ f.fractionBits) :
    f.decode (f.withSign negative (exponent * 2 ^ f.fractionBits + fraction)) =
      if exponent = 2 ^ f.exponentBits - 1 then
        if fraction = 0 then .infinite negative else .nan negative fraction
      else if exponent = 0 then .finite negative fraction f.minExponent
      else .finite negative (2 ^ f.fractionBits + fraction) (f.minExponent + (exponent - 1)) := by
  have hp : 0 < 2 ^ f.fractionBits := by positivity
  have hlt := fields_lt he hm
  generalize hn : f.withSign negative (exponent * 2 ^ f.fractionBits + fraction) = n
  have hn' : n = ((if negative then 2 ^ f.exponentBits else 0) + exponent) * 2 ^ f.fractionBits +
      fraction := by
    rw [← hn, withSign, signBit_eq]
    cases negative
    · simp
    · simp only [if_true, Nat.add_mul]
      omega
  have hs : n / f.signBit % 2 = if negative then 1 else 0 := by
    have hpo : 0 < f.signBit := by omega
    rw [← hn, withSign]
    cases negative
    · simp [Nat.div_eq_of_lt hlt]
    · simp [Nat.add_div_left _ hpo, Nat.div_eq_of_lt hlt]
  have hex : n / 2 ^ f.fractionBits % 2 ^ f.exponentBits = exponent := by
    rw [hn', Nat.mul_comm, Nat.mul_add_div hp, Nat.div_eq_of_lt hm]
    cases negative <;> simp [Nat.mod_eq_of_lt he]
  have hf : n % 2 ^ f.fractionBits = fraction := by
    rw [hn', Nat.mul_comm, Nat.mul_add_mod, Nat.mod_eq_of_lt hm]
  simp only [decode, Nat.shiftLeft_eq, Nat.shiftRight_eq_div_pow, Nat.one_mul, hs, hex, hf]
  cases negative <;> simp

lemma Holds.fields (h : f.Holds m e) (negative : Bool) :
    f.decode (f.withSign negative (f.pattern m e)) = .finite negative m e := by
  have hlt := h.lt
  have hmi := h.min_le
  have hma := h.le_max
  by_cases hm : 2 ^ f.fractionBits ≤ m
  · have heq : f.pattern m e = ((e - f.minExponent).toNat + 1) * 2 ^ f.fractionBits +
        (m - 2 ^ f.fractionBits) := by
      rw [pattern, Nat.add_mul]
      omega
    rw [heq, decode_withSign negative (by omega) (by omega), if_neg (by omega), if_neg (by omega),
      Nat.add_sub_cancel' hm]
    congr 1
    omega
  · have he : e = f.minExponent := h.normal.resolve_left hm
    have heq : f.pattern m e = 0 * 2 ^ f.fractionBits + m := by simp [pattern, he]
    rw [heq, decode_withSign negative (by omega) (by omega), if_neg (by omega), if_pos rfl, he]

lemma Holds.of_fields (hf : 2 < 2 ^ f.exponentBits) (he : exponent + 1 < 2 ^ f.exponentBits)
    (hm : fraction < 2 ^ f.fractionBits) :
    ∃ m e, f.Holds m e ∧ f.pattern m e = exponent * 2 ^ f.fractionBits + fraction := by
  cases exponent with
  | zero =>
    refine ⟨fraction, f.minExponent, ⟨?_, le_rfl, ?_, .inr rfl⟩, by simp [pattern]⟩
    · omega
    · omega
  | succ exponent =>
    refine ⟨2 ^ f.fractionBits + fraction, f.minExponent + exponent,
      ⟨?_, by omega, ?_, .inl (by omega)⟩, ?_⟩
    · omega
    · omega
    · rw [pattern, Nat.add_mul]
      simp
      omega

lemma Holds.convert {f g : FloatFormat} {m m' : Nat} {e e' : Int} (h : f.Holds m e)
    (h' : g.Holds m' e') (hv : binaryValue m e = binaryValue m' e') (negative : Bool) :
    f.convert g (f.withSign negative (f.pattern m e)) = g.withSign negative (g.pattern m' e') := by
  obtain ⟨hd, hn⟩ := scaleByTwo_eq m e
  rw [hv] at hn
  simp only [FloatFormat.convert, h.fields, ofQuotient]
  rw [h'.nearest hd hn]

lemma Holds.widen (h : single.Holds m e) :
    ∃ m' e', double.Holds m' e' ∧ binaryValue m e = binaryValue m' e' := by
  have hmi : single.minExponent = -149 := by decide
  have hm' : double.minExponent = -1074 := by decide
  have hlo := h.min_le
  have hh := h.le_max
  have hf : 2 ^ single.exponentBits = 256 := by decide
  by_cases hm : m = 0
  · refine ⟨0, double.minExponent, ⟨by decide, le_rfl, by decide, .inr rfl⟩, ?_⟩
    simp [binaryValue, hm]
  · have hl : m.log2 < 24 := (Nat.log2_lt hm).mpr h.lt
    have hle : 2 ^ m.log2 ≤ m := Nat.log2_self_le hm
    have hlt : m < 2 ^ (m.log2 + 1) := Nat.lt_log2_self
    have hs : ∀ k, 2 ^ (k + m.log2) * 2 ^ (52 - m.log2) = 2 ^ (k + 52) := by
      intro k
      rw [← Nat.pow_add]
      congr 1
      omega
    refine ⟨m * 2 ^ (52 - m.log2), e - (52 - m.log2 : Nat), ⟨?_, ?_, ?_, .inl ?_⟩, ?_⟩
    · calc m * 2 ^ (52 - m.log2) < 2 ^ (1 + m.log2) * 2 ^ (52 - m.log2) := by
            rw [Nat.add_comm 1]
            exact Nat.mul_lt_mul_of_pos_right hlt (by positivity)
        _ = 2 ^ (1 + 52) := hs 1
    · omega
    · rw [hm']
      simp only [double]
      omega
    · calc 2 ^ 52 = 2 ^ (0 + m.log2) * 2 ^ (52 - m.log2) := by simpa using (hs 0).symm
        _ ≤ m * 2 ^ (52 - m.log2) := by
            rw [Nat.zero_add]
            exact Nat.mul_le_mul_right _ hle
    · rw [binaryValue, binaryValue, zpow_sub₀ (by norm_num), zpow_natCast]
      push_cast
      field_simp

lemma convert_infinite (f g : FloatFormat) (negative : Bool) :
    f.convert g (f.withSign negative f.infinityBits) = g.withSign negative g.infinityBits := by
  have hp : 0 < 2 ^ f.exponentBits := by positivity
  have heq : f.infinityBits = (2 ^ f.exponentBits - 1) * 2 ^ f.fractionBits + 0 := infinityBits_eq f
  rw [heq, convert, decode_withSign negative (by omega) (by positivity), if_pos rfl, if_pos rfl]

lemma convert_quiet {fraction' : Nat} (negative : Bool) (hlt : fraction < 2 ^ f.fractionBits)
    (hp : 0 < fraction) (hk : fraction * 2 ^ g.fractionBits / 2 ^ f.fractionBits = fraction')
    (hq : 2 ^ (g.fractionBits - 1) ≤ fraction') (hlt' : fraction' < 2 * 2 ^ (g.fractionBits - 1)) :
    f.convert g (f.withSign negative (f.infinityBits + fraction)) =
      g.withSign negative (g.infinityBits + fraction') := by
  have he : 0 < 2 ^ f.exponentBits := by positivity
  have hm : fraction' % 2 ^ (g.fractionBits - 1) = fraction' - 2 ^ (g.fractionBits - 1) := by
    rw [Nat.mod_eq_sub_mod hq, Nat.mod_eq_of_lt (by omega)]
  rw [infinityBits_eq f, convert, decode_withSign negative (by omega) hlt, if_pos rfl,
    if_neg (by omega)]
  simp only [Nat.shiftLeft_eq, Nat.shiftRight_eq_div_pow, Nat.one_mul, hk, hm]
  congr 1
  omega

lemma nearest_le (f : FloatFormat) (num den : Nat) : f.nearest num den ≤ f.infinityBits := by
  rw [nearest]
  split
  · exact Nat.zero_le _
  · exact Nat.min_le_left _ _

def Quiet (f : FloatFormat) (exponent fraction : Nat) : Prop :=
  exponent < 2 ^ f.exponentBits ∧ fraction < 2 ^ f.fractionBits ∧
    (exponent = 2 ^ f.exponentBits - 1 → fraction = 0 ∨ 2 ^ (f.fractionBits - 1) ≤ fraction)

lemma quiet_of_le_infinity (h : n ≤ f.infinityBits) :
    f.Quiet (n / 2 ^ f.fractionBits) (n % 2 ^ f.fractionBits) := by
  have hp : 0 < 2 ^ f.fractionBits := by positivity
  have he : 0 < 2 ^ f.exponentBits := by positivity
  rw [infinityBits_eq] at h
  have hle : n / 2 ^ f.fractionBits ≤ 2 ^ f.exponentBits - 1 := by
    rw [← Nat.mul_div_cancel (2 ^ f.exponentBits - 1) hp]
    exact Nat.div_le_div_right h
  refine ⟨by omega, Nat.mod_lt n hp, fun ht => .inl ?_⟩
  have hs := Nat.div_add_mod' n (2 ^ f.fractionBits)
  rw [ht] at hs
  omega

lemma convert_quiet_fields (f : FloatFormat) (hg : 0 < g.fractionBits) (bits : Nat) :
    ∃ negative exponent fraction, g.Quiet exponent fraction ∧
      f.convert g bits = g.withSign negative (exponent * 2 ^ g.fractionBits + fraction) := by
  have hle : ∀ negative n, n ≤ g.infinityBits → ∃ negative' exponent fraction,
      g.Quiet exponent fraction ∧ g.withSign negative n =
          g.withSign negative' (exponent * 2 ^ g.fractionBits + fraction) := by
    intro negative n hn
    exact ⟨negative, _, _, quiet_of_le_infinity hn, by rw [Nat.div_add_mod']⟩
  rw [convert]
  cases f.decode bits with
  | infinite negative => exact hle negative _ le_rfl
  | finite negative mantissa exponent => exact hle negative _ (nearest_le g _ _)
  | nan negative fraction =>
    have he : 0 < 2 ^ g.exponentBits := by positivity
    have ht : 2 ^ (g.fractionBits - 1) * 2 = 2 ^ g.fractionBits := by
      rw [← Nat.pow_succ, Nat.succ_eq_add_one, Nat.sub_add_cancel hg]
    refine ⟨negative, 2 ^ g.exponentBits - 1, 2 ^ (g.fractionBits - 1) +
        fraction <<< g.fractionBits >>> f.fractionBits % 2 ^ (g.fractionBits - 1),
      ⟨by omega, by omega, fun _ => .inr (by omega)⟩, ?_⟩
    simp only [Nat.shiftLeft_eq, Nat.one_mul, Nat.add_assoc, infinityBits_eq]

lemma convert_single (f : FloatFormat) (bits : Nat) :
    f.convert .single bits < 2 ^ 32 ∧ single.isSignaling (f.convert .single bits) = false := by
  obtain ⟨negative, e, m, ⟨he, hm, hq⟩, heq⟩ :=
    f.convert_quiet_fields (g := single) (by decide) bits
  rw [heq]
  refine ⟨withSign_lt (fields_lt he hm), ?_⟩
  rw [isSignaling, decode_withSign negative he hm]
  by_cases ht : e = 2 ^ single.exponentBits - 1
  · rw [if_pos ht]
    by_cases hz : m = 0
    · rw [if_pos hz]
    · rw [if_neg hz]
      exact decide_eq_false (not_lt.mpr ((hq ht).resolve_left hz))
  · rw [if_neg ht]
    by_cases hz : e = 0
    · rw [if_pos hz]
    · rw [if_neg hz]

end FloatFormat

lemma Binary64.toNat_bits_ofBitsNat (h : n < 2 ^ 64) : (Binary64.ofBitsNat n).bits.toNat = n := by
  simpa [Binary64.ofBitsNat] using Nat.mod_eq_of_lt h

open FloatFormat in
lemma FloatFormat.convert_convert {bits : Nat} (h : bits < 2 ^ 32)
    (hq : single.isSignaling bits = false) :
    single.convert .double bits < 2 ^ 64 ∧
      double.convert .single (single.convert .double bits) = bits := by
  obtain ⟨negative, e, m, he, hm, rfl⟩ := exists_fields single h
  by_cases ht : e = 2 ^ single.exponentBits - 1
  · have hi : e * 2 ^ single.fractionBits = single.infinityBits := by rw [ht]; rfl
    rw [hi]
    by_cases hz : m = 0
    · rw [hz, Nat.add_zero, convert_infinite, convert_infinite]
      exact ⟨withSign_lt (f := double) (by decide), rfl⟩
    · have hl : 2 ^ 22 ≤ m := by
        rw [isSignaling, decode_withSign negative he hm, if_pos ht, if_neg hz] at hq
        exact not_lt.mp (of_decide_eq_false hq)
      have hm' : m < 2 ^ 23 := hm
      have hw : single.convert .double (single.withSign negative (single.infinityBits + m)) =
          double.withSign negative (double.infinityBits + m * 2 ^ 29) := by
        refine convert_quiet negative hm (by omega) ?_ ?_ ?_ <;>
          simp only [single, double] <;> omega
      have hn :
          double.convert .single (double.withSign negative (double.infinityBits + m * 2 ^ 29)) =
            single.withSign negative (single.infinityBits + m) := by
        refine convert_quiet negative ?_ (by omega) ?_ ?_ ?_ <;>
          simp only [single, double] <;> omega
      rw [hw, hn]
      refine ⟨withSign_lt (f := double) ?_, rfl⟩
      have hi' : double.infinityBits = 2 ^ 63 - 2 ^ 52 := by decide
      have hs : double.signBit = 2 ^ 63 := by decide
      omega
  · obtain ⟨m1, e1, h1, hp⟩ := Holds.of_fields (f := single) (by decide)
      (show e + 1 < 2 ^ single.exponentBits by omega) hm
    obtain ⟨m2, e2, h2, hv⟩ := h1.widen
    rw [← hp, h1.convert h2 hv, h2.convert h1 hv.symm]
    refine ⟨withSign_lt (f := double) (h2.pattern_lt.trans ?_), rfl⟩
    decide

lemma Binary64.toSingle_ofSingle? {bits : UInt32} {x : Binary64}
    (h : Binary64.ofSingle? bits = some x) : x.toSingle = bits := by
  by_cases hs : FloatFormat.single.isSignaling bits.toNat = true
  · simp [ofSingle?, hs] at h
  · obtain ⟨hlt, hb⟩ := FloatFormat.convert_convert bits.toNat_lt (by simpa using hs)
    have hx : x = ofBitsNat (FloatFormat.single.convert .double bits.toNat) := by
      simpa [ofSingle?, hs] using h.symm
    rw [hx, toSingle, toNat_bits_ofBitsNat hlt, hb]
    simp

def Binary64.roundToSingle (x : Binary64) : Binary64 :=
  ofBitsNat (FloatFormat.single.convert .double x.toSingle.toNat)

lemma Binary64.ofSingle?_toSingle (x : Binary64) :
    Binary64.ofSingle? x.toSingle = some x.roundToSingle := by
  obtain ⟨hlt, hq⟩ := FloatFormat.double.convert_single x.bits.toNat
  have hn : x.toSingle.toNat = FloatFormat.double.convert .single x.bits.toNat := by
    simpa [toSingle] using Nat.mod_eq_of_lt hlt
  rw [ofSingle?, if_neg (by simp [hn, hq]), roundToSingle]

end LuaBytecode
