import LuaBytecode.FloatingByte
import Mathlib.Algebra.Group.Nat.Defs
import Mathlib.Order.GaloisConnection.Basic

namespace LuaBytecode.FloatingByte

variable {x b : Nat}

lemma toNat_of_lt (h : b < 16) : toNat b = b := by
  unfold toNat
  split
  · rfl
  · rw [show b / 8 - 1 = 0 by omega, Nat.shiftLeft_zero]
    omega

lemma toNat_add_eight (h : 8 ≤ b) : toNat (b + 8) = 2 * toNat b := by
  obtain ⟨e, he⟩ : ∃ e, b / 8 = e + 1 := ⟨b / 8 - 1, by omega⟩
  rw [toNat, if_neg (by omega), toNat, if_neg (by omega), Nat.add_mod_right,
    Nat.add_div_right _ (by decide), he, Nat.shiftLeft_eq, Nat.shiftLeft_eq]
  show _ * 2 ^ (e + 1) = 2 * (_ * 2 ^ e)
  rw [Nat.pow_succ, ← Nat.mul_assoc, Nat.mul_comm]

lemma toNat_succ (b : Nat) :
    toNat b < toNat (b + 1) ∧ (8 ≤ b → 8 * toNat (b + 1) ≤ 9 * toNat b) := by
  induction b using Nat.strongRecOn with
  | ind b ih =>
    by_cases hs : b < 15
    · rw [toNat_of_lt (by omega), toNat_of_lt (by omega)]
      omega
    · obtain rfl | ⟨c, hc, rfl⟩ : b = 15 ∨ ∃ c, 8 ≤ c ∧ b = c + 8 :=
        if h : b = 15 then .inl h else .inr ⟨b - 8, by omega, by omega⟩
      · decide
      · have := ih c (by omega)
        rw [Nat.add_right_comm, toNat_add_eight hc, toNat_add_eight (by omega)]
        omega

lemma toNat_strictMono : StrictMono toNat := strictMono_nat_of_lt_succ fun b => (toNat_succ b).1

lemma scale_add (x e n : Nat) : scale x (e + n) = ((scale x e).1, (scale x e).2 + n) := by
  fun_induction scale x e with
  | case1 x e hx ih =>
    rw [scale, if_pos hx, Nat.add_right_comm]
    exact ih
  | case2 x e hx hx' ih =>
    rw [scale, if_neg hx, if_pos hx', Nat.add_right_comm]
    exact ih
  | case3 x e hx hx' => rw [scale, if_neg hx, if_neg hx']

lemma ofNat_of_lt (h : x < 16) : ofNat x = x := by
  unfold ofNat
  split
  · rfl
  · rw [scale, if_neg (by omega), if_neg (by omega)]
    show (0 + 1) * 8 + (x - 8) = x
    omega

lemma ofNat_of_scale {y n : Nat} (hx : 8 ≤ x) (hy : 8 ≤ y) (h : scale x 0 = scale y n) :
    ofNat x = ofNat y + 8 * n := by
  rw [ofNat, if_neg (by omega), ofNat, if_neg (by omega), h, ← Nat.zero_add n, scale_add]
  dsimp only
  omega

lemma ofNat_half (h : 16 ≤ x) (hx : x < 128) : ofNat x = ofNat ((x + 1) / 2) + 8 :=
  ofNat_of_scale (n := 1) (by omega) (by omega) (by rw [scale, if_neg (by omega), if_pos h])

lemma ofNat_sixteenth (h : 128 ≤ x) : ofNat x = ofNat ((x + 15) / 16) + 32 :=
  ofNat_of_scale (n := 4) (by omega) (by omega) (by rw [scale, if_pos h])

lemma toNat_add_shift (h : 8 ≤ b) : toNat (b + 32) = 16 * toNat b := by
  rw [toNat_add_eight (b := b + 24) (by omega), toNat_add_eight (b := b + 16) (by omega),
    toNat_add_eight (b := b + 8) (by omega), toNat_add_eight h]
  omega

lemma ofNat_bounds (x : Nat) : x ≤ toNat (ofNat x) ∧ ∀ b, ofNat x = b + 1 → toNat b < x := by
  induction x using Nat.strongRecOn with
  | ind x ih =>
    by_cases hs : x < 16
    · rw [ofNat_of_lt hs, toNat_of_lt hs]
      refine ⟨.refl, ?_⟩
      rintro b rfl
      rw [toNat_of_lt (by omega)]
      exact b.lt_succ_self
    -- both kinds of steps halve some times, and their ceilings are never below eight
    have hstep : ∀ {y n k : Nat}, y < x → 8 ≤ y → x ≤ k * y → k * (y - 1) < x →
        ofNat x = ofNat y + n → (∀ {b}, 8 ≤ b → toNat (b + n) = k * toNat b) → 0 < n →
        toNat (7 + n) < x → x ≤ toNat (ofNat x) ∧ ∀ b, ofNat x = b + 1 → toNat b < x := by
      intro y n k hy h8 hle hlt ho hn hpos h7
      obtain ⟨hup, hdown⟩ := ih y hy
      have hge : 8 ≤ ofNat y := by
        by_contra h
        rw [toNat_of_lt (by omega)] at hup
        omega
      rw [ho, hn hge]
      refine ⟨hle.trans (Nat.mul_le_mul_left k hup), fun b hb => ?_⟩
      obtain he | ⟨c, hc⟩ : ofNat y = 8 ∨ ∃ c, ofNat y = c + 9 :=
        if h : ofNat y = 8 then .inl h else .inr ⟨ofNat y - 9, by omega⟩
      · rwa [show b = 7 + n by omega]
      · have := hdown (c + 8) hc
        rw [show b = c + 8 + n by omega, hn (by omega)]
        exact Nat.lt_of_le_of_lt (Nat.mul_le_mul_left k (by omega)) hlt
    by_cases hl : x < 128
    · exact hstep (y := (x + 1) / 2) (by omega) (by omega) (by omega) (by omega)
        (ofNat_half (by omega) hl) toNat_add_eight (by decide)
        (Nat.lt_of_lt_of_le (by decide : toNat 15 < 16) (by omega))
    · exact hstep (y := (x + 15) / 16) (by omega) (by omega) (by omega) (by omega)
        (ofNat_sixteenth (by omega)) toNat_add_shift (by decide)
        (Nat.lt_of_lt_of_le (by decide : toNat 39 < 128) (by omega))

lemma gc_ofNat_toNat : GaloisConnection ofNat toNat := by
  intro x b
  obtain ⟨hup, hdown⟩ := ofNat_bounds x
  refine ⟨fun h => hup.trans (toNat_strictMono.monotone h), fun h => ?_⟩
  cases ho : ofNat x with
  | zero => exact Nat.zero_le b
  | succ c =>
    have := toNat_strictMono.lt_iff_lt.mp ((hdown c ho).trans_le h)
    omega

lemma ofNat_toNat (b : Nat) : ofNat (toNat b) = b := Nat.le_antisymm (gc_ofNat_toNat.l_u_le b)
    (toNat_strictMono.le_iff_le.mp (gc_ofNat_toNat.le_u_l (toNat b)))

lemma ofNat_le (h : x < 2 ^ 64) : ofNat x ≤ 511 :=
  (gc_ofNat_toNat x 511).mpr (h.le.trans (by decide))

lemma toNat_ofNat_le (x : Nat) : toNat (ofNat x) ≤ x + x / 8 := by
  obtain ⟨hup, hdown⟩ := ofNat_bounds x
  by_cases hx : x < 16
  · rw [ofNat_of_lt hx, toNat_of_lt hx]
    exact Nat.le_add_right ..
  · obtain ⟨c, hc⟩ : ∃ c, ofNat x = c + 8 + 1 := by
      refine ⟨ofNat x - 9, ?_⟩
      by_contra h
      rw [toNat_of_lt (by omega)] at hup
      omega
    have hlt := hdown _ hc
    have hle := (toNat_succ (c + 8)).2 (by omega)
    rw [← hc] at hle
    omega

lemma toNat_ofInt64 {x : Int64} (h : 0 ≤ x.toInt) (hx : x.toInt < 1152921504606846976) :
    (ofInt64 x).toNat = ofNat x.toInt.toNat := by
  have hle := ofNat_le (x := x.toInt.toNat) (by omega)
  unfold ofInt64
  split
  · next h8 =>
    rw [Int64.lt_iff_toInt_lt] at h8
    change x.toInt < 8 at h8
    rw [ofNat_of_lt (by omega), lowBits, UInt16.toNat_ofNat', Int.emod_eq_of_lt h (by omega)]
    omega
  · rw [if_neg, UInt16.toNat_ofNat']
    · omega
    · have h15 : (15 : Int64).toInt = 15 := rfl
      rw [Int64.lt_iff_toInt_lt, Int64.toInt_add, h15, Int.bmod_eq_of_le (by omega) (by omega)]
      omega

lemma toInt_toInt64 {b : UInt16} (h : toNat b.toNat < 9223372036854775808) :
    (toInt64 b).toInt = toNat b.toNat := Int64.toInt_ofNat_of_lt h

/-- The code of a number is the first one that stands for no less. -/
theorem ofInt64_least {x : Int64} (h : 0 ≤ x) (hx : x < 1152921504606846976) :
    x ≤ toInt64 (ofInt64 x) ∧ (0 < ofInt64 x → toInt64 (ofInt64 x - 1) < x) ∧
    (∀ b : UInt16, (toNat b.toNat : Int) = x.toInt → ofInt64 x = b ∧ toInt64 b = x) ∧
    (∀ y, 0 ≤ y → y ≤ x → ofInt64 y ≤ ofInt64 x) ∧
    (toInt64 (ofInt64 x)).toInt ≤ x.toInt + x.toInt / 8 ∧
    (x < 1073741824 → ofInt64 x < 256) := by
  rw [Int64.le_iff_toInt_le] at h
  rw [Int64.lt_iff_toInt_lt] at hx
  change 0 ≤ x.toInt at h
  change x.toInt < 1152921504606846976 at hx
  obtain ⟨n, hn⟩ := Int.eq_ofNat_of_zero_le h
  have hb : (ofInt64 x).toNat = ofNat n := by rw [toNat_ofInt64 h hx, hn, Int.toNat_natCast]
  obtain ⟨hup, hdown⟩ := ofNat_bounds n
  have hle := toNat_ofNat_le n
  have ht : (toInt64 (ofInt64 x)).toInt = toNat (ofNat n) := by
    rw [toInt_toInt64 (by rw [hb]; omega), hb]
  refine ⟨?_, fun hpos => ?_, fun b hv => ?_, fun y h0 hy => ?_, by omega, fun hs => ?_⟩
  · rw [Int64.le_iff_toInt_le]
    omega
  · have hpos' : 0 < (ofInt64 x).toNat := hpos
    have hsub : (ofInt64 x - 1).toNat = ofNat n - 1 := by
      rw [UInt16.toNat_sub_of_le _ _ hpos', hb]
      rfl
    have hlt := hdown (ofNat n - 1) (by omega)
    rw [Int64.lt_iff_toInt_lt, toInt_toInt64 (by rw [hsub]; omega), hsub]
    omega
  · have heq : toNat b.toNat = n := by omega
    refine ⟨UInt16.toNat.inj (by rw [hb, ← heq, ofNat_toNat]), Int64.toInt.inj ?_⟩
    rw [toInt_toInt64 (by omega)]
    omega
  · rw [Int64.le_iff_toInt_le] at h0 hy
    change 0 ≤ y.toInt at h0
    rw [UInt16.le_iff_toNat_le, hb, toNat_ofInt64 h0 (by omega)]
    exact gc_ofNat_toNat.monotone_l (by omega)
  · rw [Int64.lt_iff_toInt_lt] at hs
    change x.toInt < 1073741824 at hs
    rw [UInt16.lt_iff_toNat_lt, hb]
    have hle : n ≤ toNat 255 := Nat.le_trans (by omega) (by decide : 1073741824 ≤ toNat 255)
    exact Nat.lt_succ_of_le ((gc_ofNat_toNat n 255).mpr hle)

theorem ofInt64_least_thousand : (0 : Int64) ≤ 1000 ∧ (1000 : Int64) < 1152921504606846976 ∧
    (toInt64 (ofInt64 1000)).toInt ≤ 1125 ∧ ofInt64 1000 < 256 := by
  obtain ⟨-, -, -, -, hle, hs⟩ := ofInt64_least (x := 1000) (by decide) (by decide)
  exact ⟨by decide, by decide, hle, hs (by decide)⟩

end LuaBytecode.FloatingByte
