import LuaBytecode.Folding
import LuaBytecode.Proofs.Number.Narrowing

namespace LuaBytecode

open FloatFormat

variable {v w : Value} {num : Nat} {r : Int64}

/-- The integer that bits in two's complement are, shifted to the left, or to the right if the
displacement is negative. -/
def shifted (bits : Nat) (n : Int) : Nat :=
  if 0 ≤ n then bits * 2 ^ n.toNat % 2 ^ 64 else bits / 2 ^ (-n).toNat

namespace Integer

variable {a b n : Int64} {x y : Int}

lemma lt_zero_iff : a < 0 ↔ a.toInt < 0 := Int64.lt_iff_toInt_lt

lemma msb_eq (a : Int64) : a.toBitVec.msb = decide (a < 0) := by
  rw [BitVec.msb_eq_toInt, decide_eq_decide]
  exact lt_zero_iff.symm

/-- Two integers differ in their highest bit if just one of them is negative. -/
lemma xor_lt_zero_iff : a ^^^ b < 0 ↔ ¬(a.toInt < 0 ↔ b.toInt < 0) := by
  have hx : (a ^^^ b).toBitVec.msb = (a.toBitVec.msb ^^ b.toBitVec.msb) := BitVec.msb_xor
  rw [msb_eq, msb_eq, msb_eq] at hx
  rw [← lt_zero_iff, ← lt_zero_iff]
  by_cases ha : a < 0 <;> by_cases hb : b < 0 <;> simpa [ha, hb] using hx

lemma mod_eq_zero_iff : a % b = 0 ↔ b.toInt ∣ a.toInt := by
  rw [← Int64.toInt_inj, Int64.toInt_mod, Int.dvd_iff_tmod_eq_zero]
  rfl

lemma toInt_ne_zero (h : b ≠ 0) : b.toInt ≠ 0 := fun h0 => h (Int64.toInt_inj.mp h0)

lemma fdiv_eq (h : y ≠ 0) :
    x.fdiv y = if ¬(x < 0 ↔ y < 0) ∧ ¬y ∣ x then x.tdiv y - 1 else x.tdiv y := by
  rw [Int.fdiv_eq_tdiv]
  rcases Int.lt_or_gt_of_ne h with hy | hy
  · grind
  · grind

lemma fmod_eq (h : y ≠ 0) :
    x.fmod y = if ¬(x < 0 ↔ y < 0) ∧ ¬y ∣ x then x.tmod y + y else x.tmod y := by
  have hf := Int.mul_fdiv_add_fmod x y
  have hz := Int.mul_tdiv_add_tmod x y
  rw [fdiv_eq h] at hf
  split at hf
  · next hc =>
    rw [Int.mul_sub] at hf
    omega
  · next hc =>
    omega

lemma toInt_floorDiv (hb : b ≠ 0) :
    (floorDiv a b).toInt = (a.toInt.fdiv b.toInt).bmod (2 ^ 64) := by
  unfold floorDiv
  split
  · next ho =>
    rw [ho, show (-1 : Int64).toInt = -1 from rfl, Int.fdiv_neg (by decide)]
    simp
  · next ho =>
    have hq := Int64.toInt_div_of_ne_right a b ho
    rw [fdiv_eq (toInt_ne_zero hb)]
    simp only [Bool.and_eq_true, bne_iff_ne, ne_eq, decide_eq_true_eq, mod_eq_zero_iff,
      xor_lt_zero_iff]
    split
    · rw [Int64.toInt_sub, hq]
      rfl
    · rw [Int64.toInt_div]

lemma fmod_bounds (h : y ≠ 0) :
    (0 < y ∧ 0 ≤ x.fmod y ∧ x.fmod y < y) ∨ (y < 0 ∧ y < x.fmod y ∧ x.fmod y ≤ 0) := by
  rcases Int.lt_or_gt_of_ne h with hy | hy
  · have hp : 0 < -y := by omega
    have hl := Int.fmod_nonneg_of_pos (-x) hp
    have hh := Int.fmod_lt_of_pos (-x) hp
    rw [Int.neg_fmod_neg] at hl hh
    exact .inr ⟨hy, by omega, by omega⟩
  · exact .inl ⟨hy, Int.fmod_nonneg_of_pos x hy, Int.fmod_lt_of_pos x hy⟩

lemma tmod_neg_iff (h : ¬y ∣ x) : x.tmod y < 0 ↔ x < 0 := by
  have hs := Int.sign_tmod x y
  rw [if_neg h] at hs
  rw [← Int.sign_eq_neg_one_iff_neg, hs, Int.sign_eq_neg_one_iff_neg]

lemma toInt_floorMod (hb : b ≠ 0) : (floorMod a b).toInt = a.toInt.fmod b.toInt := by
  have hy := toInt_ne_zero hb
  have hbo := fmod_bounds (x := a.toInt) hy
  have hle := b.le_toInt
  have hlt := b.toInt_lt
  unfold floorMod
  split
  · next ho =>
    rw [ho, show (-1 : Int64).toInt = -1 from rfl] at hbo ⊢
    show 0 = _
    omega
  · have hm := Int64.toInt_mod a b
    have hf := fmod_eq (x := a.toInt) hy
    simp only [Bool.and_eq_true, bne_iff_ne, ne_eq, decide_eq_true_eq, mod_eq_zero_iff,
      xor_lt_zero_iff, hm]
    split
    · next hc =>
      rw [tmod_neg_iff hc.1] at hc
      rw [if_pos hc.symm] at hf
      rw [Int64.toInt_add, hm, ← hf]
      exact Int.bmod_eq_of_le (by omega) (by omega)
    · next hc =>
      rw [if_neg fun hc' => hc ⟨hc'.2, by rw [tmod_neg_iff hc'.2]; exact hc'.1⟩] at hf
      rw [hm, hf]

lemma shifted_of_le {bits : Nat} (hb : bits < 2 ^ 64) (h : 64 ≤ x.natAbs) : shifted bits x = 0 := by
  have hp : 2 ^ 64 ≤ 2 ^ x.natAbs := Nat.pow_le_pow_right (by decide) h
  unfold shifted
  split
  · rw [show x.toNat = x.natAbs - 64 + 64 by omega, Nat.pow_add, ← Nat.mul_assoc]
    exact Nat.mul_mod_left _ _
  · rw [show (-x).toNat = x.natAbs by omega]
    exact Nat.div_eq_of_lt (by omega)

lemma toNat_toUInt64 (h : 0 ≤ n.toInt) : n.toUInt64.toNat = n.toInt.toNat :=
  Int64.toNat_toUInt64_of_le (Int64.le_iff_toInt_le.mpr h)

lemma toNat_shiftLeft : (shiftLeft a n).toUInt64.toNat = shifted a.toUInt64.toNat n.toInt := by
  have hl : n ≤ -64 ↔ n.toInt ≤ -64 := Int64.le_iff_toInt_le
  have hh : 64 ≤ n ↔ 64 ≤ n.toInt := Int64.le_iff_toInt_le
  unfold shiftLeft
  simp only [Bool.or_eq_true, decide_eq_true_eq, hl, hh, lt_zero_iff]
  split
  · rw [shifted_of_le a.toUInt64.toNat_lt (by omega)]
    rfl
  · split
    · have hm : (-n).toInt = -n.toInt := by
        rw [Int64.toInt_neg, Int.bmod_eq_of_le (by omega) (by omega)]
      have ha : (-n).toUInt64.toNat % 64 = (-n.toInt).toNat := by
        rw [toNat_toUInt64 (by omega)]
        omega
      rw [UInt64.toUInt64_toInt64, UInt64.toNat_shiftRight, ha, shifted, if_neg (by omega),
        Nat.shiftRight_eq_div_pow]
    · have ha : n.toUInt64.toNat % 64 = n.toInt.toNat := by
        rw [toNat_toUInt64 (by omega)]
        omega
      rw [UInt64.toUInt64_toInt64, UInt64.toNat_shiftLeft, ha, shifted, if_pos (by omega),
        Nat.shiftLeft_eq]

lemma toNat_shiftRight : (shiftRight a n).toUInt64.toNat = shifted a.toUInt64.toNat (-n.toInt) := by
  have hle := n.le_toInt
  have hlt := n.toInt_lt
  unfold shiftRight
  split
  · next hm =>
    rw [shifted_of_le a.toUInt64.toNat_lt (by rw [hm]; decide)]
    rfl
  · next hm =>
    have hne : n.toInt ≠ Int64.minValue.toInt := fun h => hm (Int64.toInt_inj.mp h)
    have hm' : Int64.minValue.toInt = -2 ^ 63 := rfl
    rw [toNat_shiftLeft, Int64.toInt_neg, Int.bmod_eq_of_le (by omega) (by omega)]

end Integer

lemma FloatFormat.binaryExponent_one (h : num ≠ 0) : binaryExponent num 1 = Nat.log2 num := by
  have hl := Nat.log2_self_le h
  have ho : Nat.log2 1 = 0 := rfl
  rw [binaryExponent, ho, Int.natCast_zero, Int.sub_zero]
  simpa [isBelowPower, Nat.shiftLeft_eq] using hl

namespace Binary64

lemma isZero_withSign (negative : Bool) {n : Nat} (h : n < 2 ^ 63) :
    (ofBitsNat (double.withSign negative n)).isZero = true ↔ n = 0 := by
  have hlt : double.withSign negative n < 2 ^ 64 := withSign_lt h
  obtain ⟨e, m, he, hm, rfl⟩ : ∃ e m, e < 2 ^ 11 ∧ m < 2 ^ 52 ∧ n = e * 2 ^ 52 + m :=
    ⟨n / 2 ^ 52, n % 2 ^ 52, by omega, by omega, by omega⟩
  have hd := decode_withSign (f := .double) negative he hm
  have hb : double.fractionBits = 52 := rfl
  rw [hb, ← toNat_bits_ofBitsNat hlt] at hd
  by_cases hma : e = 2 ^ double.exponentBits - 1
  · have he : e ≠ 0 := by rw [hma]; decide
    rw [if_pos hma] at hd
    unfold isZero datum
    rw [hd]
    by_cases hf : m = 0 <;> simp [hf, he]
  · rw [if_neg hma] at hd
    unfold isZero datum
    rw [hd]
    by_cases hz : e = 0 <;> simp [hz]

lemma nearest_pos (h : num ≠ 0) : 0 < double.nearest num 1 := by
  have hm : double.minExponent = -1074 := rfl
  have hb : double.fractionBits = 52 := rfl
  have hi : double.infinityBits = 2047 * 2 ^ 52 := rfl
  rw [nearest, if_neg h, binaryExponent_one h, hb]
  simp only [Nat.shiftLeft_eq]
  omega

lemma isZero_ofInt (i : Int) : (ofInt i).isZero = true ↔ i = 0 := by
  have hle := FloatFormat.nearest_le FloatFormat.double i.natAbs 1
  have hin : FloatFormat.double.infinityBits = 2047 * 2 ^ 52 := rfl
  rw [ofInt, FloatFormat.ofInt, FloatFormat.ofQuotient, isZero_withSign _ (by omega)]
  constructor
  · by_contra hi
    have := nearest_pos (show i.natAbs ≠ 0 by omega)
    omega
  · rintro rfl
    rfl

end Binary64

namespace Folding

def integerOperators : List OpCode :=
  [.add, .sub, .mul, .mod, .idiv, .band, .bor, .bxor, .shl, .shr, .unm, .bnot]

/-- The integer that an operator gives for two integers, by exact arithmetic and by their bits. -/
def Gives (a b r : Int64) : OpCode → Prop
  | .add => r.toInt = (a.toInt + b.toInt).bmod (2 ^ 64)
  | .sub => r.toInt = (a.toInt - b.toInt).bmod (2 ^ 64)
  | .mul => r.toInt = (a.toInt * b.toInt).bmod (2 ^ 64)
  | .unm => r.toInt = (-a.toInt).bmod (2 ^ 64)
  | .idiv => r.toInt = (a.toInt.fdiv b.toInt).bmod (2 ^ 64)
  | .mod => r.toInt = a.toInt.fmod b.toInt
  | .shl => r.toUInt64.toNat = shifted a.toUInt64.toNat b.toInt
  | .shr => r.toUInt64.toNat = shifted a.toUInt64.toNat (-b.toInt)
  | .band => ∀ k, r.toBitVec.getLsbD k = (a.toBitVec.getLsbD k && b.toBitVec.getLsbD k)
  | .bor => ∀ k, r.toBitVec.getLsbD k = (a.toBitVec.getLsbD k || b.toBitVec.getLsbD k)
  | .bxor => ∀ k, r.toBitVec.getLsbD k = (a.toBitVec.getLsbD k ^^ b.toBitVec.getLsbD k)
  | .bnot => ∀ k, k < 64 → r.toBitVec.getLsbD k = !a.toBitVec.getLsbD k
  | _ => False

variable {op : OpCode} {a b : Int64}

lemma integer?_gives (h : op ∈ integerOperators) (hb : op = .idiv ∨ op = .mod → b ≠ 0) :
    ∃ r, integer? op a b = some r ∧ Gives a b r op := by
  simp only [integerOperators, List.mem_cons, List.not_mem_nil, or_false] at h
  rcases h with rfl | rfl | rfl | rfl | rfl | rfl | rfl | rfl | rfl | rfl | rfl | rfl
  · exact ⟨_, rfl, Int64.toInt_add a b⟩
  · exact ⟨_, rfl, Int64.toInt_sub a b⟩
  · exact ⟨_, rfl, Int64.toInt_mul a b⟩
  · exact ⟨_, rfl, Integer.toInt_floorMod (hb (.inr rfl))⟩
  · exact ⟨_, rfl, Integer.toInt_floorDiv (hb (.inl rfl))⟩
  · exact ⟨_, rfl, fun k => by simp⟩
  · exact ⟨_, rfl, fun k => by simp⟩
  · exact ⟨_, rfl, fun k => by simp⟩
  · exact ⟨_, rfl, Integer.toNat_shiftLeft⟩
  · exact ⟨_, rfl, Integer.toNat_shiftRight⟩
  · exact ⟨_, rfl, Int64.toInt_neg a⟩
  · exact ⟨_, rfl, fun k hk => by simp [hk]⟩

def operand? (op : OpCode) (v : Value) : Option Int64 :=
  if op.isIntegral then v.exactInteger? else v.toInteger?

lemma operand?_integer : operand? op (.integer a) = some a := by
  unfold operand?
  split <;> rfl

lemma toFloat?_of_operand? (h : operand? op v = some a) : ∃ x, v.toFloat? = some x := by
  cases v <;> simp [operand?, Value.exactInteger?, Value.toInteger?, Value.toFloat?] at h ⊢

lemma numbers_operands {x y : Binary64} (h : op ∈ integerOperators) (hv : operand? op v = some a)
    (hw : operand? op w = some b) (hy : w.toFloat? = some y) : numbers op v w x y =
      if (op = .idiv ∨ op = .mod) ∧ b = 0 then .ok none else integerResult op a b := by
  cases hi : op.isIntegral with
  | true =>
    have hd : ¬((op = .idiv ∨ op = .mod) ∧ b = 0) := by
      rintro ⟨rfl | rfl, -⟩ <;> cases hi
    rw [operand?, if_pos hi] at hv hw
    rw [if_neg hd, numbers, if_pos hi, hv, hw]
  | false =>
    have hd : ¬op = .div ∧ ¬op = .pow := by
      constructor <;> (rintro rfl; revert h; decide)
    have hz : b.toInt = 0 ↔ b = 0 := by rw [← Int64.toInt_zero, Int64.toInt_inj]
    simp only [operand?, hi, Bool.false_eq_true, if_false] at hv hw
    have hwb : w = .integer b := by
      cases w <;> simp [Value.toInteger?] at hw
      rw [hw]
    subst hwb
    cases hy
    simp [numbers, hi, hv, hw, dividesByZero, Binary64.isZero_ofInt, hz, hd, or_comm]

lemma fold_operands (h : op ∈ integerOperators) (hv : operand? op v = some a)
    (hw : op = .unm ∨ op = .bnot ∨ operand? op w = some b) :
    if (op = .idiv ∨ op = .mod) ∧ b = 0 then fold op v w = .ok none
    else ∃ r, fold op v w = .ok (some (.integer r)) ∧ Gives a b r op := by
  obtain ⟨x, hx⟩ := toFloat?_of_operand? hv
  -- A unary operator is folded with the second operand 0, so what holds of 0 holds of every `b`.
  obtain ⟨b', hb', hd, hgi⟩ :
      ∃ b', operand? op (if op = .unm || op = .bnot then .integer 0 else w) =
      some b' ∧ ((op = .idiv ∨ op = .mod) ∧ b' = 0 ↔ (op = .idiv ∨ op = .mod) ∧ b = 0) ∧
      ∀ r, Gives a b' r op → Gives a b r op := by
    rcases hw with rfl | rfl | hw
    · exact ⟨0, rfl, by simp, fun _ => id⟩
    · exact ⟨0, rfl, by simp, fun _ => id⟩
    · by_cases hop : op = .unm ∨ op = .bnot
      · rcases hop with rfl | rfl <;> exact ⟨0, rfl, by simp, fun _ => id⟩
      · exact ⟨b, by simpa [hop] using hw, Iff.rfl, fun _ => id⟩
  obtain ⟨y, hy⟩ := toFloat?_of_operand? hb'
  simp only [fold, hx, hy]
  rw [numbers_operands h hv hb' hy]
  simp only [hd]
  split
  · rfl
  · next hne =>
    obtain ⟨r, hr, hg⟩ := integer?_gives (a := a) (b := b') h fun hop hz =>
      hne (hd.mp ⟨hop, hz⟩)
    exact ⟨r, by rw [integerResult, hr], hgi r hg⟩

/-- Quotient and remainder belong together: the remainder is smaller than the divisor, has its
sign, and makes up for what the quotient leaves of `a`. -/
lemma idiv_mul_add_mod {q : Int64} (hb : b ≠ 0) (hq : Gives a b q .idiv) (hr : Gives a b r .mod) :
    q * b + r = a ∧ r.toInt.natAbs < b.toInt.natAbs ∧ (r = 0 ∨ (r < 0 ↔ b < 0)) := by
  have hbo := Integer.fmod_bounds (x := a.toInt) (Integer.toInt_ne_zero hb)
  rw [← hr] at hbo
  refine ⟨Int64.toInt_inj.mp ?_, by omega, ?_⟩
  · calc (q * b + r).toInt
      _ = ((a.toInt.fdiv b.toInt).bmod (2 ^ 64) * b.toInt +
          a.toInt.fmod b.toInt).bmod (2 ^ 64) := by
        rw [Int64.toInt_add, Int64.toInt_mul, hq, hr, Int.bmod_add_bmod]
      _ = (b.toInt * a.toInt.fdiv b.toInt + a.toInt.fmod b.toInt).bmod (2 ^ 64) := by
        rw [← Int.bmod_add_bmod, Int.bmod_mul_bmod, Int.bmod_add_bmod, Int.mul_comm]
      _ = a.toInt := by
        have hl := a.le_toInt
        have hh := a.toInt_lt
        rw [Int.mul_fdiv_add_fmod, Int.bmod_eq_of_le (by omega) (by omega)]
  · rw [Integer.lt_zero_iff, Integer.lt_zero_iff, ← Int64.toInt_inj, Int64.toInt_zero]
    omega

lemma eq_zero_of_gives (h : op = .shl ∨ op = .shr) (hl : 64 ≤ b.toInt.natAbs)
    (hr : Gives a b r op) : r = 0 := by
  have hb : r.toUInt64.toNat = 0 := by
    rcases h with rfl | rfl
    · exact hr.trans (Integer.shifted_of_le a.toUInt64.toNat_lt hl)
    · exact hr.trans (Integer.shifted_of_le a.toUInt64.toNat_lt (by omega))
  have hz : r.toUInt64 = 0 := UInt64.toNat_inj.mp hb
  rw [← Int64.toInt64_toUInt64 r, hz]
  rfl

end Folding

/-- Folding of two integers is exact arithmetic modulo `2 ^ 64`, and only a division by zero is
left to the running program. -/
theorem fold_integers (a b : Int64) :
    (∀ op ∈ Folding.integerOperators, ∀ v w, Folding.operand? op v = some a →
      (op = .unm ∨ op = .bnot ∨ Folding.operand? op w = some b) →
      if (op = .idiv ∨ op = .mod) ∧ b = 0 then fold op v w = .ok none
      else ∃ r, fold op v w = .ok (some (.integer r)) ∧ Folding.Gives a b r op) ∧
    (b ≠ 0 → ∃ q r, fold .idiv (.integer a) (.integer b) = .ok (some (.integer q)) ∧
      fold .mod (.integer a) (.integer b) = .ok (some (.integer r)) ∧ q * b + r = a ∧
      r.toInt.natAbs < b.toInt.natAbs ∧ (r = 0 ∨ (r < 0 ↔ b < 0))) ∧
    (64 ≤ b.toInt.natAbs → ∀ op, op = .shl ∨ op = .shr →
      fold op (.integer a) (.integer b) = .ok (some (.integer 0))) := by
  refine ⟨fun op h v w hv hw => Folding.fold_operands h hv hw, fun hb => ?_,
    fun hlarge op hop => ?_⟩
  · have hdiv := Folding.fold_operands (v := .integer a) (w := .integer b)
      (show .idiv ∈ Folding.integerOperators by decide) Folding.operand?_integer
      (.inr (.inr Folding.operand?_integer))
    have hmod := Folding.fold_operands (v := .integer a) (w := .integer b)
      (show .mod ∈ Folding.integerOperators by decide) Folding.operand?_integer
      (.inr (.inr Folding.operand?_integer))
    rw [if_neg fun h => hb h.2] at hdiv hmod
    obtain ⟨q, hq, hgq⟩ := hdiv
    obtain ⟨r, hr, hgr⟩ := hmod
    exact ⟨q, r, hq, hr, Folding.idiv_mul_add_mod hb hgq hgr⟩
  · have hfold := Folding.fold_operands (v := .integer a) (w := .integer b)
      (show op ∈ Folding.integerOperators by rcases hop with rfl | rfl <;> decide)
      Folding.operand?_integer (.inr (.inr Folding.operand?_integer))
    rw [if_neg (by rcases hop with rfl | rfl <;> simp)] at hfold
    obtain ⟨r, hr, hgives⟩ := hfold
    rw [hr, Folding.eq_zero_of_gives hop hlarge hgives]

end LuaBytecode
