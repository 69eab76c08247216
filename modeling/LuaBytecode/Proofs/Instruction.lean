import LuaBytecode.Instruction
import LuaBytecode.Proofs.Bits

namespace LuaBytecode

variable {b c bx ax w : Nat} {op : OpCode}

lemma OpCode.number_of_ofNumber? {n : Nat} (h : ofNumber? n = some op) : op.number = n := by
  have hnu : all.map number = List.range 47 := by decide
  have hn : (all.map number)[n]? = some op.number := by
    rw [List.getElem?_map]
    exact congrArg (Option.map number) h
  rw [hnu] at hn
  obtain ⟨hlt, heq⟩ := List.getElem?_eq_some_iff.mp hn
  rw [← heq, List.getElem_range]

namespace Operand

variable {arg k : Nat}

lemma isConstant_iff : isConstant arg = true ↔ arg / 256 % 2 = 1 := by
  have hb : arg &&& 256 = (arg.testBit 8).toNat * 256 := Nat.and_two_pow arg 8
  rw [isConstant, decide_eq_true_eq, constantBit, hb, Nat.testBit_eq_decide_div_mod_eq]
  by_cases h : arg / 256 % 2 = 1 <;> simp [h]

lemma constantIndex_eq (h : arg ≤ Instruction.maxB) : constantIndex arg = arg % 256 := by
  have ha : arg ≤ 511 := h
  have hc := clear_or (w := arg) (n := 16) (v := 0) (k := 8) (s := 1) (by omega) (by decide)
    (by decide)
  have hu : arg.toUInt16.toNat = arg := Nat.mod_eq_of_lt (by omega)
  rw [constantIndex, UInt16.toNat_and, hu]
  rw [Nat.zero_shiftLeft, Nat.or_zero] at hc
  refine hc.trans ?_
  omega

lemma isConstant_add (h : k ≤ maxConstant) : isConstant (constantBit + k) = true := by
  have hk : k ≤ 255 := h
  rw [isConstant_iff, constantBit]
  omega

lemma constantIndex_add (h : k ≤ maxConstant) : constantIndex (constantBit + k) = k := by
  have hk : k ≤ 255 := h
  rw [constantIndex_eq (show constantBit + k ≤ 511 from Nat.add_le_add_left h 256), constantBit]
  omega

lemma ofConstant_eq (h : k ≤ maxConstant) : ofConstant k = .ok (constantBit + k) := by
  have hk : k < 2 ^ 8 := Nat.lt_succ_of_le h
  rw [ofConstant, if_pos ⟨by omega, by omega⟩]
  exact congrArg Except.ok ((or_shiftLeft hk 1).trans (Nat.add_comm k 256))

lemma ofConstant_eq_ok (h : k ≤ maxConstant) : ∃ arg, ofConstant k = .ok arg ∧
    arg ≤ Instruction.maxB ∧ isConstant arg = true ∧ constantIndex arg = k :=
  ⟨_, ofConstant_eq h, Nat.add_le_add_left h 256, isConstant_add h, constantIndex_add h⟩

lemma ofConstant_constantIndex (h : arg ≤ Instruction.maxB) (hk : isConstant arg = true) :
    ofConstant (constantIndex arg) = .ok arg := by
  have hb := isConstant_iff.mp hk
  have ha : arg ≤ 511 := h
  have hi := constantIndex_eq h
  rw [ofConstant_eq (show constantIndex arg ≤ 255 by omega), constantBit]
  exact congrArg Except.ok (by omega)

lemma isConstant_eq_false (h : arg < 256) : isConstant arg = false := by
  rw [Bool.eq_false_iff, ne_eq, isConstant_iff]
  omega

end Operand

namespace Instruction

/-- What is read from a word: its operation and the arguments of every format. -/
@[ext]
structure Reading where
  op : Option OpCode
  a : Nat := 0
  b : Nat := 0
  c : Nat := 0
  bx : Nat := 0
  sbx : Int := 0
  ax : Nat := 0

def reading (i : Instruction) : Reading :=
  ⟨i.op?, i.argA, i.argB, i.argC, i.argBx, i.argSBx, i.argAx⟩

def Reading.ofWord (op : OpCode) (w : Nat) : Reading :=
  match op.mode with
  | .abc => { op, a := w / 64 % 256, b := w / 8388608, c := w / 16384 % 512 }
  | .abx => { op, a := w / 64 % 256, bx := w / 16384 }
  | .asbx => { op, a := w / 64 % 256, sbx := (w / 16384 : Nat) - 131071 }
  | .ax => { op, ax := w / 64 }

def Reading.build (r : Reading) (op : OpCode) : Except EncodingFault Instruction :=
  match op.mode with
  | .abc => abc op r.a.toUInt8 r.b r.c
  | .abx => abx op r.a.toUInt8 r.bx
  | .asbx => asbx op r.a.toUInt8 r.sbx
  | .ax => extraArgument r.ax

variable {i j : Instruction} {a : UInt8} {rest : Nat} {x : Int}

lemma opNumber_eq (i : Instruction) : i.opNumber = i.word.toNat % 64 := by
  rw [opNumber, UInt32.toNat_and]
  exact Nat.and_two_pow_sub_one_eq_mod _ 6

lemma op?_eq_some_iff : i.op? = some op ↔ i.word.toNat % 64 = op.number := by
  constructor
  · exact fun h => (opNumber_eq i).symm.trans (OpCode.number_of_ofNumber? h).symm
  · intro h
    rw [op?, opNumber_eq, h, OpCode.ofNumber?_number]

lemma mode?_of_op? (h : i.op? = some op) : i.mode? = some op.mode := by
  simp [mode?, h]

lemma toNat_shiftRight (w : UInt32) {pos : UInt32} (h : pos.toNat < 32) :
    (w >>> pos).toNat = w.toNat / 2 ^ pos.toNat := by
  rw [UInt32.toNat_shiftRight, Nat.mod_eq_of_lt h, Nat.shiftRight_eq_div_pow]

lemma toNat_masked (w : UInt32) : (w.toUInt16 &&& 511).toNat = w.toNat % 512 := by
  rw [UInt16.toNat_and, UInt32.toNat_toUInt16]
  refine (Nat.and_two_pow_sub_one_eq_mod _ 9).trans ?_
  omega

lemma reading_eq (h : i.op? = some op) : i.reading = .ofWord op i.word.toNat := by
  have hm := mode?_of_op? h
  have hw := i.word.toNat_lt
  have hpa : (i.word >>> posA).toNat = i.word.toNat / 64 := toNat_shiftRight _ (by decide)
  have hpc : (i.word >>> posC).toNat = i.word.toNat / 16384 := toNat_shiftRight _ (by decide)
  have hpb : (i.word >>> posB).toNat = i.word.toNat / 8388608 := toNat_shiftRight _ (by decide)
  have ha : (i.word >>> posA).toUInt8.toNat = i.word.toNat / 64 % 256 := by
    rw [UInt32.toNat_toUInt8, hpa]
  have hb : ((i.word >>> posB).toUInt16 &&& maxB.toUInt16).toNat = i.word.toNat / 8388608 := by
    refine (toNat_masked _).trans ?_
    omega
  have hc : ((i.word >>> posC).toUInt16 &&& maxC.toUInt16).toNat = i.word.toNat / 16384 % 512 := by
    rw [← hpc]
    exact toNat_masked _
  simp only [reading, argA, argB, argC, argBx, argSBx, argAx, hasA, h, hm, ha, hb, hc, hpa, hpc]
  cases hx : op.mode <;> simp [Reading.ofWord, hx, bias]

lemma reading_of_toNat (hw : i.word.toNat = w) (h : w % 64 = op.number) :
    i.reading = .ofWord op w := by
  subst hw
  exact reading_eq (op?_eq_some_iff.mpr h)

lemma toNat_or_shiftLeft {low value pos : UInt32} (hp : pos.toNat < 32)
    (hl : low.toNat < 2 ^ pos.toNat) (hv : value.toNat * 2 ^ pos.toNat < 2 ^ 32) :
    (low ||| value <<< pos).toNat = low.toNat + value.toNat * 2 ^ pos.toNat := by
  rw [UInt32.toNat_or, UInt32.toNat_shiftLeft, Nat.mod_eq_of_lt hp, Nat.shiftLeft_eq,
    Nat.mod_eq_of_lt hv, ← Nat.shiftLeft_eq, or_shiftLeft hl, Nat.shiftLeft_eq]

lemma toNat_ofFields (op : OpCode) (a : UInt8) (h : rest < 262144) :
    (ofFields op a rest).word.toNat = op.number + a.toNat * 64 + rest * 16384 := by
  have hop := op.number_lt
  have ha := a.toNat_lt
  have hn : op.number.toUInt32.toNat = op.number := Nat.mod_eq_of_lt (by omega)
  have hr : rest.toUInt32.toNat = rest := Nat.mod_eq_of_lt (by omega)
  have hl : (op.number.toUInt32 ||| a.toUInt32 <<< posA).toNat = op.number + a.toNat * 64 := by
    refine (toNat_or_shiftLeft (by decide) ?_ ?_).trans (by rw [hn]; rfl)
    · show _ < 64
      omega
    · show a.toNat * 64 < 2 ^ 32
      omega
  refine (toNat_or_shiftLeft (by decide) ?_ ?_).trans (by rw [hl, hr]; rfl)
  · show _ < 16384
    omega
  · show rest.toUInt32.toNat * 16384 < 2 ^ 32
    omega

/-- B lies above C, so that both make the argument Bx. -/
lemma word_abc (op : OpCode) (a : UInt8) (hb : b ≤ maxB) (hc : c ≤ maxC) :
    op.number.toUInt32 ||| a.toUInt32 <<< posA ||| b.toUInt32 <<< posB ||| c.toUInt32 <<< posC =
      (ofFields op a (c + b * 512)).word := by
  have hb' : b ≤ 511 := hb
  have hc' : c ≤ 511 := hc
  have hop := op.number_lt
  have ha := a.toNat_lt
  have hbn : b.toUInt32.toNat = b := Nat.mod_eq_of_lt (by omega)
  have hl : (op.number.toUInt32 ||| a.toUInt32 <<< posA ||| c.toUInt32 <<< posC).toNat = _ :=
    toNat_ofFields op a (show c < 262144 by omega)
  rw [UInt32.or_assoc, UInt32.or_comm (b.toUInt32 <<< posB), ← UInt32.or_assoc,
    ← UInt32.toNat_inj, toNat_ofFields op a (by omega)]
  refine (toNat_or_shiftLeft (by decide) ?_ ?_).trans ?_
  · show _ < 8388608
    omega
  · show b.toUInt32.toNat * 8388608 < 2 ^ 32
    omega
  · rw [hl, hbn]
    show _ + b * 8388608 = _
    omega

lemma reading_ofFields (op : OpCode) (a : UInt8) (h : rest < 262144) :
    (ofFields op a rest).reading = .ofWord op (op.number + a.toNat * 64 + rest * 16384) := by
  have hop := op.number_lt
  exact reading_of_toNat (toNat_ofFields op a h) (by omega)

lemma reading_abc (hm : op.mode = .abc) (hb : b ≤ maxB) (hc : c ≤ maxC) :
    ∃ i, abc op a b c = .ok i ∧ i.reading = { op, a := a.toNat, b, c } := by
  have hop := op.number_lt
  have ha := a.toNat_lt
  simp only [maxB, maxC] at hb hc
  refine ⟨ofFields op a (c + b * 512), ?_, ?_⟩
  · simp [abc, hm, maxB, maxC, Nat.not_lt.mpr hb, Nat.not_lt.mpr hc, word_abc op a hb hc]
  · rw [reading_ofFields op a (by omega), Reading.ofWord, hm]
    ext <;> simp <;> omega

lemma reading_abx (hm : op.mode = .abx) (hb : bx ≤ maxBx) :
    ∃ i, abx op a bx = .ok i ∧ i.reading = { op, a := a.toNat, bx } := by
  have hop := op.number_lt
  have ha := a.toNat_lt
  simp only [maxBx] at hb
  refine ⟨ofFields op a bx, ?_, ?_⟩
  · simp [abx, hm, maxBx, Nat.not_lt.mpr hb]
  · rw [reading_ofFields op a (by omega), Reading.ofWord, hm]
    ext <;> simp <;> omega

lemma fitsOffset_iff : fitsOffset x = true ↔ -131071 ≤ x ∧ x ≤ 131072 := by
  rw [fitsOffset, Bool.and_eq_true, decide_eq_true_eq, decide_eq_true_eq]
  simp [bias, maxBx]

lemma reading_asbx (hm : op.mode = .asbx) (hx : fitsOffset x = true) :
    ∃ i, asbx op a x = .ok i ∧ i.reading = { op, a := a.toNat, sbx := x } := by
  have hop := op.number_lt
  have ha := a.toNat_lt
  have hb := fitsOffset_iff.mp hx
  refine ⟨ofFields op a (x + bias).toNat, by simp [asbx, hm, hx], ?_⟩
  rw [bias, reading_ofFields op a (by omega), Reading.ofWord, hm]
  ext <;> simp <;> omega

lemma reading_extraArgument (h : ax ≤ maxAx) :
    ∃ i, extraArgument ax = .ok i ∧ i.reading = { op := some .extraArg, ax } := by
  have hn : OpCode.extraArg.number = 46 := rfl
  simp only [maxAx] at h
  refine ⟨_, if_neg (Nat.not_lt.mpr h), ?_⟩
  rw [reading_of_toNat (w := 46 + ax * 64) ?_ (show _ = OpCode.extraArg.number by omega)]
  · show ({ op := some .extraArg, ax := (46 + ax * 64) / 64 } : Reading) = _
    ext <;> simp
    omega
  · have ha : ax.toUInt32.toNat = ax := Nat.mod_eq_of_lt (by omega)
    refine (toNat_or_shiftLeft (by decide) (by decide) ?_).trans (by rw [ha]; rfl)
    show ax.toUInt32.toNat * 64 < 2 ^ 32
    omega

lemma eq_of_reading (h : i.op? = some op) (hr : i.reading = j.reading) : i = j := by
  have hi := op?_eq_some_iff.mp h
  have hj : j.op? = some op := (congrArg Reading.op hr).symm.trans h
  have hj' := op?_eq_some_iff.mp hj
  rw [reading_eq h, reading_eq hj] at hr
  have hw : i.word.toNat = j.word.toNat := by
    cases hm : op.mode <;> simp only [Reading.ofWord, hm, Reading.mk.injEq] at hr <;> omega
  exact congrArg mk (UInt32.toNat_inj.mp hw)

structure IsABC (i : Instruction) (op : OpCode) (a b c : Nat) : Prop where
  op : i.op? = some op
  argA : i.argA = a
  argB : i.argB = b
  argC : i.argC = c

structure IsABx (i : Instruction) (op : OpCode) (a bx : Nat) : Prop where
  op : i.op? = some op
  argA : i.argA = a
  argBx : i.argBx = bx

structure IsAsBx (i : Instruction) (op : OpCode) (a : Nat) (sbx : Int) : Prop where
  op : i.op? = some op
  argA : i.argA = a
  argSBx : i.argSBx = sbx

lemma abc_eq_ok (hm : op.mode = .abc) (hb : b ≤ maxB) (hc : c ≤ maxC) :
    ∃ i, abc op a b c = .ok i ∧ i.IsABC op a.toNat b c := by
  obtain ⟨i, hi, hr⟩ := reading_abc (a := a) hm hb hc
  exact ⟨i, hi, congrArg Reading.op hr, congrArg Reading.a hr, congrArg Reading.b hr,
    congrArg Reading.c hr⟩

lemma isABC_of_abc (h : abc op a b c = .ok i) : i.IsABC op a.toNat b c := by
  have hm : op.mode = .abc := Decidable.byContradiction fun hm => by
    simp [abc, hm] at h
  by_cases hbc : maxB < b ∨ maxC < c
  · simp [abc, hm, hbc] at h
  · obtain ⟨j, hj, hx⟩ := abc_eq_ok (a := a) hm (b := b) (c := c) (by omega) (by omega)
    cases hj.symm.trans h
    exact hx

lemma abx_eq_ok (hm : op.mode = .abx) (hb : bx ≤ maxBx) :
    ∃ i, abx op a bx = .ok i ∧ i.IsABx op a.toNat bx := by
  obtain ⟨i, hi, hr⟩ := reading_abx (a := a) hm hb
  exact ⟨i, hi, congrArg Reading.op hr, congrArg Reading.a hr, congrArg Reading.bx hr⟩

lemma asbx_eq_ok (hm : op.mode = .asbx) (hx : fitsOffset x = true) :
    ∃ i, asbx op a x = .ok i ∧ i.IsAsBx op a.toNat x := by
  obtain ⟨i, hi, hr⟩ := reading_asbx (a := a) hm hx
  exact ⟨i, hi, congrArg Reading.op hr, congrArg Reading.a hr, congrArg Reading.sbx hr⟩

lemma extraArgument_eq_ok (h : ax ≤ maxAx) :
    ∃ i, extraArgument ax = .ok i ∧ i.op? = some .extraArg ∧ i.argAx = ax := by
  obtain ⟨i, hi, hr⟩ := reading_extraArgument h
  exact ⟨i, hi, congrArg Reading.op hr, congrArg Reading.ax hr⟩

lemma argA_lt (i : Instruction) : i.argA < 256 := by
  unfold argA
  split
  · exact UInt8.toNat_lt _
  · decide

lemma argB_le (i : Instruction) : i.argB ≤ maxB := by
  unfold argB
  split
  · exact (UInt16.toNat_and _ _).trans_le Nat.and_le_right
  · decide

lemma argC_le (i : Instruction) : i.argC ≤ maxC := by
  unfold argC
  split
  · exact (UInt16.toNat_and _ _).trans_le Nat.and_le_right
  · decide

lemma build_ofWord (op : OpCode) (h : w < 2 ^ 32) :
    ∃ i, (Reading.ofWord op w).build op = .ok i ∧ i.reading = .ofWord op w := by
  have ha : (w / 64 % 256).toUInt8.toNat = w / 64 % 256 := by
    simp only [UInt8.toNat_ofNat']
    omega
  unfold Reading.ofWord Reading.build
  cases hm : op.mode with
  | abc =>
    have hb : w / 8388608 ≤ maxB := by
      simp only [maxB]
      omega
    have hc : w / 16384 % 512 ≤ maxC := by
      simp only [maxC]
      omega
    have hbu := reading_abc (a := (w / 64 % 256).toUInt8) hm hb hc
    rwa [ha] at hbu
  | abx =>
    have hbx : w / 16384 ≤ maxBx := by
      simp only [maxBx]
      omega
    have hbu := reading_abx (a := (w / 64 % 256).toUInt8) hm hbx
    rwa [ha] at hbu
  | asbx =>
    have hs : fitsOffset ((w / 16384 : Nat) - 131071) = true := fitsOffset_iff.mpr (by omega)
    have hbu := reading_asbx (a := (w / 64 % 256).toUInt8) hm hs
    rwa [ha] at hbu
  | ax =>
    obtain rfl : op = .extraArg := by cases op <;> first | rfl | cases hm
    exact reading_extraArgument (by simp only [maxAx]; omega)

lemma build_reading (h : i.op? = some op) : i.reading.build op = .ok i := by
  obtain ⟨j, hj, hr⟩ := build_ofWord op i.word.toNat_lt
  rw [← reading_eq h] at hj hr
  rw [hj, eq_of_reading h hr.symm]

lemma toNat_replaceBits {pos : UInt32} {s v : Nat} (hp : pos.toNat < 32)
    (hs : pos.toNat + s ≤ 32) (hv : v < 2 ^ s) :
    (i.replaceBits (2 ^ s - 1) pos v).word.toNat =
      i.word.toNat % 2 ^ pos.toNat + v * 2 ^ pos.toNat +
        i.word.toNat / 2 ^ (pos.toNat + s) * 2 ^ (pos.toNat + s) := by
  have hle : 2 ^ s * 2 ^ pos.toNat ≤ 2 ^ 32 := by
    rw [← Nat.pow_add, Nat.add_comm]
    exact Nat.pow_le_pow_right (by decide) hs
  have hshift : ∀ n < 2 ^ s, (n.toUInt32 <<< pos).toNat = n <<< pos.toNat := by
    intro n hn
    have hlt : n * 2 ^ pos.toNat < 2 ^ 32 :=
      (Nat.mul_lt_mul_of_pos_right hn (Nat.two_pow_pos _)).trans_le hle
    have hn' : n < 2 ^ 32 := (Nat.le_mul_of_pos_right n (Nat.two_pow_pos _)).trans_lt hlt
    rw [UInt32.toNat_shiftLeft, Nat.mod_eq_of_lt hp, Nat.shiftLeft_eq, Nat.shiftLeft_eq,
      show n.toUInt32.toNat = n from Nat.mod_eq_of_lt hn', Nat.mod_eq_of_lt hlt]
  have hm : 2 ^ s - 1 < 2 ^ s := Nat.sub_one_lt (Nat.two_pow_pos s).ne'
  rw [← clear_or i.word.toNat_lt hv hs, replaceBits, UInt32.toNat_or, UInt32.toNat_and,
    UInt32.toNat_not, hshift _ hm, hshift _ hv, Nat.sub_sub, Nat.add_comm 1]
  rfl

lemma mode?_eq_some {mode : OpMode} (h : i.mode? = some mode) :
    ∃ op, i.op? = some op ∧ op.mode = mode := Option.map_eq_some_iff.mp h

lemma hasA_iff : i.hasA = true ↔ ∃ op, i.op? = some op ∧ op.mode ≠ .ax := by
  cases h : i.op? with
  | none => simp [hasA, mode?, h]
  | some op =>
    rw [hasA, mode?_of_op? h]
    cases hm : op.mode <;> simp [hm]

/-- Setting an argument reports whether the word has the argument and room for the value. If it
does, only what is read as this argument changes, and otherwise the word stays as it is. -/
structure Sets (i : Instruction) (r : Instruction × Bool) (able : Prop) (new : Reading) : Prop where
  reported : r.2 = true ↔ able
  changed : able → r.1.reading = new
  kept : ¬able → r.1 = i

lemma sets_ite {able : Prop} [Decidable able] {new : Reading} (h : able → j.reading = new) :
    Sets i (if able then (j, true) else (i, false)) able new := by
  by_cases ha : able
  · exact ⟨by simp [ha], fun _ => by simpa [ha] using h ha, fun hn => absurd ha hn⟩
  · exact ⟨by simp [ha], fun hy => absurd hy ha, fun _ => by simp [ha]⟩

lemma sets_withA (i : Instruction) (a : UInt8) :
    Sets i (i.withA a) i.hasA { i.reading with a := a.toNat } := by
  refine sets_ite fun hok => ?_
  obtain ⟨op, hop, hm⟩ := hasA_iff.mp hok
  have hi := i.word.toNat_lt
  have ha := a.toNat_lt
  have hn := op?_eq_some_iff.mp hop
  have hw : (i.replaceBits maxA posA a.toNat).word.toNat = i.word.toNat % 64 + a.toNat * 64 +
      i.word.toNat / 16384 * 16384 := toNat_replaceBits (s := 8) (by decide) (by decide) ha
  rw [reading_eq hop, reading_of_toNat hw (show _ = op.number by omega)]
  unfold Reading.ofWord
  cases hx : op.mode <;> simp [hx] at hm ⊢ <;> omega

lemma sets_withB (i : Instruction) (b : Nat) :
    Sets i (i.withB b) (i.mode? = some .abc ∧ b ≤ maxB) { i.reading with b } := by
  refine sets_ite fun ⟨hok, hb⟩ => ?_
  obtain ⟨op, hop, hm⟩ := mode?_eq_some hok
  have hi := i.word.toNat_lt
  have hn := op?_eq_some_iff.mp hop
  have hb' : b ≤ 511 := hb
  have hw : (i.replaceBits maxB posB b).word.toNat = i.word.toNat % 8388608 + b * 8388608 +
      i.word.toNat / 4294967296 * 4294967296 :=
    toNat_replaceBits (s := 9) (by decide) (by decide) (Nat.lt_succ_of_le hb)
  rw [reading_eq hop, reading_of_toNat hw (show _ = op.number by omega)]
  simp [Reading.ofWord, hm]
  omega

lemma sets_withC (i : Instruction) (c : Nat) :
    Sets i (i.withC c) (i.mode? = some .abc ∧ c ≤ maxC) { i.reading with c } := by
  refine sets_ite fun ⟨hok, hc⟩ => ?_
  obtain ⟨op, hop, hm⟩ := mode?_eq_some hok
  have hi := i.word.toNat_lt
  have hn := op?_eq_some_iff.mp hop
  have hc' : c ≤ 511 := hc
  have hw : (i.replaceBits maxC posC c).word.toNat = i.word.toNat % 16384 + c * 16384 +
      i.word.toNat / 8388608 * 8388608 :=
    toNat_replaceBits (s := 9) (by decide) (by decide) (Nat.lt_succ_of_le hc)
  rw [reading_eq hop, reading_of_toNat hw (show _ = op.number by omega)]
  simp [Reading.ofWord, hm]
  omega

lemma sets_withSBx (i : Instruction) (x : Int) :
    Sets i (i.withSBx x) (i.mode? = some .asbx ∧ fitsOffset x = true)
      { i.reading with sbx := x } := by
  refine sets_ite fun ⟨hok, hx⟩ => ?_
  obtain ⟨op, hop, hm⟩ := mode?_eq_some hok
  have hi := i.word.toNat_lt
  have hn := op?_eq_some_iff.mp hop
  have hb := fitsOffset_iff.mp hx
  have hw : (i.replaceBits maxBx posC (x + bias).toNat).word.toNat = i.word.toNat % 16384 +
      (x + (131071 : Nat)).toNat * 16384 + i.word.toNat / 4294967296 * 4294967296 :=
    toNat_replaceBits (s := 18) (by decide) (by decide) (by rw [bias]; omega)
  rw [reading_eq hop, reading_of_toNat hw (show _ = op.number by omega)]
  simp [Reading.ofWord, hm]
  omega

lemma Sets.changed?_eq_some {r : Instruction × Bool} {able : Prop} {new : Reading}
    (h : Sets i r able new) (ha : able) : changed? r = some r.1 ∧ r.1.reading = new :=
  ⟨if_pos (h.reported.mpr ha), h.changed ha⟩

lemma withSBx?_eq_some (h : i.op? = some op) (hm : op.mode = .asbx) (hx : fitsOffset x = true) :
    ∃ j, i.withSBx? x = some j ∧ j.IsAsBx op i.argA x := by
  obtain ⟨hj, hr⟩ := (sets_withSBx i x).changed?_eq_some
    ⟨(mode?_of_op? h).trans (congrArg some hm), hx⟩
  simp only [reading, Reading.mk.injEq] at hr
  obtain ⟨hop, ha, -, -, -, hs, -⟩ := hr
  exact ⟨_, hj, hop.trans h, ha, hs⟩

lemma withA?_eq_some (a : UInt8) (h : i.op? = some op) (hm : op.mode = .asbx) :
    ∃ j, i.withA? a = some j ∧ j.IsAsBx op a.toNat i.argSBx := by
  obtain ⟨hj, hr⟩ := (sets_withA i a).changed?_eq_some (hasA_iff.mpr ⟨op, h, by simp [hm]⟩)
  simp only [reading, Reading.mk.injEq] at hr
  obtain ⟨hop, ha, -, -, -, hs, -⟩ := hr
  exact ⟨_, hj, hop.trans h, ha, hs⟩

/-- A word with an operation is what its constructor makes of all that is read from it. What a
constructor is given is read from its word. Setting an argument changes what is read as this
argument only, and gives the same word back where there is no such argument or no room for the
value. A constant as an operand is told from every register. -/
theorem fields_correspond : (∀ (i : Instruction) op, i.op? = some op → i.reading.build op = .ok i) ∧
    ((∀ (op : OpCode) (a : UInt8) b c, op.mode = .abc → b ≤ maxB → c ≤ maxC →
        ∃ i, abc op a b c = .ok i ∧ i.reading = { op, a := a.toNat, b, c }) ∧
      (∀ (op : OpCode) (a : UInt8) bx, op.mode = .abx → bx ≤ maxBx →
        ∃ i, abx op a bx = .ok i ∧ i.reading = { op, a := a.toNat, bx }) ∧
      (∀ (op : OpCode) (a : UInt8) x, op.mode = .asbx → -131071 ≤ x ∧ x ≤ 131072 →
        ∃ i, asbx op a x = .ok i ∧ i.reading = { op, a := a.toNat, sbx := x }) ∧
      ∀ ax, ax ≤ maxAx → ∃ i, extraArgument ax = .ok i ∧ i.reading = { op := some .extraArg, ax }) ∧
    (∀ i : Instruction, (∀ a, Sets i (i.withA a) i.hasA { i.reading with a := a.toNat }) ∧
      (∀ b, Sets i (i.withB b) (i.mode? = some .abc ∧ b ≤ maxB) { i.reading with b }) ∧
      (∀ c, Sets i (i.withC c) (i.mode? = some .abc ∧ c ≤ maxC) { i.reading with c }) ∧
      ∀ x, Sets i (i.withSBx x) (i.mode? = some .asbx ∧ -131071 ≤ x ∧ x ≤ 131072)
        { i.reading with sbx := x }) ∧
    (∀ k : Nat, k ≤ Operand.maxConstant → ∃ arg, Operand.ofConstant k = .ok arg ∧ arg ≤ maxB ∧
      Operand.isConstant arg = true ∧ Operand.constantIndex arg = k) ∧
    (∀ arg, arg ≤ maxB → Operand.isConstant arg = true →
      Operand.ofConstant (Operand.constantIndex arg) = .ok arg) ∧
    ∀ register : UInt8, Operand.isConstant register.toNat = false := by
  refine ⟨fun _ _ => build_reading, ⟨fun _ _ _ _ => reading_abc, fun _ _ _ => reading_abx,
    fun _ _ _ hm hx => reading_asbx hm (fitsOffset_iff.mpr hx), fun _ => reading_extraArgument⟩,
    fun i => ⟨sets_withA i, sets_withB i, sets_withC i, fun x => ?_⟩,
    fun _ => Operand.ofConstant_eq_ok, fun _ => Operand.ofConstant_constantIndex,
    fun register => Operand.isConstant_eq_false register.toNat_lt⟩
  rw [← fitsOffset_iff]
  exact sets_withSBx i x

end Instruction

end LuaBytecode
