import LuaBytecode.Proofs.Instruction
import LuaBytecode.Prototype

namespace LuaBytecode

namespace Operand

def registers (arg : Nat) : List Nat := if isConstant arg then [] else [arg]

def constants (arg : Nat) : List Nat := if isConstant arg then [constantIndex arg] else []

end Operand

namespace OpCode

def registers (a b c : Nat) : OpCode → List Nat
  | .move | .unm | .bnot | .not | .len | .testSet => [a, b]
  | .loadK | .loadKX | .loadBool | .getUpval | .setUpval | .newTable | .test | .closure => [a]
  | .loadNil => List.range' a (b + 1)
  | .getTabUp => a :: Operand.registers c
  | .getTable => a :: b :: Operand.registers c
  | .setTabUp | .eq | .lt | .le => Operand.registers b ++ Operand.registers c
  | .setTable | .add | .sub | .mul | .mod | .pow | .div | .idiv | .band | .bor | .bxor | .shl
  | .shr => a :: (Operand.registers b ++ Operand.registers c)
  | .self => a :: (a + 1) :: b :: Operand.registers c
  | .concat => a :: List.range' b (c + 1 - b)
  | .jmp | .extraArg => []
  -- Where the number of values is open, the first of them counts.
  | .call => List.range' a (max b 1) ++ List.range' a (c - 1)
  | .tailCall => List.range' a (max b 1)
  | .return | .vararg => if b = 0 then [a] else List.range' a (b - 1)
  | .forLoop => List.range' a 4
  | .forPrep => List.range' a 3
  -- The iterator is called in the three registers above its state.
  | .tforCall => List.range' a (max 6 (c + 3))
  | .tforLoop => [a, a + 1]
  | .setList => List.range' a (b + 1)

def constants (b c bx : Nat) : OpCode → List Nat
  | .loadK => [bx]
  | .getTabUp | .getTable | .self => Operand.constants c
  | .setTabUp | .setTable | .add | .sub | .mul | .mod | .pow | .div | .idiv | .band | .bor | .bxor
  | .shl | .shr | .eq | .lt | .le => Operand.constants b ++ Operand.constants c
  | _ => []

def upvalues (a b : Nat) : OpCode → List Nat
  | .getUpval | .setUpval | .getTabUp => [b]
  | .setTabUp => [a]
  | _ => []

def closures (bx : Nat) : OpCode → List Nat
  | .closure => [bx]
  | _ => []

end OpCode

namespace Instruction

variable (i : Instruction)

def registers : List Nat := i.op?.elim [] (OpCode.registers i.argA i.argB i.argC)

def constants : List Nat := i.op?.elim [] (OpCode.constants i.argB i.argC i.argBx)

def upvalues : List Nat := i.op?.elim [] (OpCode.upvalues i.argA i.argB)

def closures : List Nat := i.op?.elim [] (OpCode.closures i.argBx)

def isTest : Bool := i.op?.any fun op => op.props.isTest

def isJump : Bool := i.op?.any OpCode.isJump

def takesExtra : Bool :=
  match i.op? with
  | some .loadKX => true
  | some .setList => i.argC = 0
  | _ => false

def leavesOpen : Bool :=
  match i.op? with
  | some .call | some .tailCall => i.argC = 0
  | some .vararg => i.argB = 0
  | _ => false

def takesOpen : Bool :=
  match i.op? with
  | some .call | some .tailCall | some .return | some .setList => i.argB = 0
  | _ => false

def skips : Bool := i.isTest || (i.op? = some .loadBool && i.argC ≠ 0)

def targets (pc : Nat) (i : Instruction) : List Int :=
  if i.isJump then [pc + 1 + i.argSBx] else if i.skips then [pc + 2] else []

end Instruction

def Prototype.Adjacent (f : Prototype) (pc : Nat) (i j : Instruction) : Prop :=
  f.code[pc]? = some i ∧ f.code[pc + 1]? = some j

structure Prototype.Verified (f : Prototype) : Prop where
  stack : f.maxStackSize.toNat ≤ 254
  params : f.numParams.toNat ≤ f.maxStackSize.toNat
  opcodes : ∀ i ∈ f.code, i.op?.isSome
  registers : ∀ i ∈ f.code, ∀ r ∈ i.registers, r < f.maxStackSize.toNat
  constants : ∀ i ∈ f.code, ∀ k ∈ i.constants, k < f.constants.length
  upvalues : ∀ i ∈ f.code, ∀ u ∈ i.upvalues, u < f.upvalues.length
  closures : ∀ i ∈ f.code, ∀ n ∈ i.closures, n < f.functions.length
  targets : ∀ (pc : Nat) (i : Instruction), f.code[pc]? = some i → ∀ t ∈ i.targets pc,
    0 ≤ t ∧ t < f.code.length
  tests : ∀ (pc : Nat) (i : Instruction), f.code[pc]? = some i → i.isTest →
    ∃ j, f.code[pc + 1]? = some j ∧ j.op? = some .jmp
  extra : ∀ (pc : Nat) (i : Instruction), f.code[pc]? = some i → i.takesExtra →
    ∃ j, f.code[pc + 1]? = some j ∧ j.op? = some .extraArg
  extra_only : ∀ (pc : Nat) (j : Instruction), f.code[pc]? = some j → j.op? = some .extraArg →
    ∃ before i, pc = before + 1 ∧ f.code[before]? = some i ∧ i.takesExtra
  extra_constant : ∀ (pc : Nat) (i j : Instruction), f.Adjacent pc i j → i.op? = some .loadKX →
    j.argAx < f.constants.length
  openings : ∀ (pc : Nat) (i : Instruction), f.code[pc]? = some i → i.leavesOpen →
    ∃ j, f.code[pc + 1]? = some j ∧ j.takesOpen
  openings_only : ∀ (pc : Nat) (j : Instruction), f.code[pc]? = some j → j.takesOpen →
    ∃ before i, pc = before + 1 ∧ f.code[before]? = some i ∧ i.leavesOpen
  iterations : ∀ (pc : Nat) (i : Instruction), f.code[pc]? = some i → i.op? = some .tforCall →
    ∃ j, f.code[pc + 1]? = some j ∧ j.op? = some .tforLoop
  ending : ∃ i, f.code.getLast? = some i ∧ i.op? = some .return
  lines : f.lineInfo.length = f.code.length
  -- An upvalue of a nested function is a register or an upvalue of this one.
  captures : ∀ g ∈ f.functions, ∀ u ∈ g.upvalues,
    if u.inStack then u.index.toNat < f.maxStackSize.toNat else u.index.toNat < f.upvalues.length

end LuaBytecode
