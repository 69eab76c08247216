import LuaBytecode.Generator.Scope

/-! How an expression is compiled, as far as its surroundings need to know: into a register, as an
operand, as a test, as a list of values or as the target of an assignment. -/

namespace LuaBytecode

inductive ResultCount where
  | exactly (n : Nat)
  | all
  deriving DecidableEq, Repr

namespace ResultCount

def arg : ResultCount → Nat
  | .exactly n => n + 1
  | .all => 0

def slots : ResultCount → Nat
  | .exactly n => max n 1
  | .all => 1

end ResultCount

inductive AssignTarget where
  | local (register : Nat)
  | upvalue (index : Nat)
  | indexed (table key : Nat)
  | indexedUpvalue (table key : Nat)
  deriving DecidableEq, Repr

structure ExprCode where
  start : Position
  name : Option Bytes := none
  constant : Option Value := none
  numeral : Option Value := none
  body : (dst : Nat) → (fresh : Bool) → Gen Unit
  branch : Option (Bool → Gen (List Nat)) := none
  results : Option ((dst : Nat) → (fresh : Bool) → ResultCount → Gen Unit) := none
  isCall : Bool := false
  chain : List (Gen Unit) := []
  target : Gen AssignTarget := Gen.fault .notAssignable

namespace Gen

def loadValue (dst : Nat) (v : Value) : Gen Unit := do
  match v with
  | .nil => loadNil dst 1
  | .bool b => discard <| emitABC .loadBool dst b.toNat 0
  | v => loadConstant dst (← constant v)

def operandOfValue (v : Value) : Gen Nat := do
  let k ← constant v
  if k ≤ Operand.maxConstant then
    match Operand.ofConstant k with
    | .ok arg => return arg
    | .error e => fault (.encoding e)
  else
    let r ← allocate
    loadConstant r k
    return r

def jumpIfValue (v : Value) (wanted : Bool) : Gen (List Nat) :=
  if v.isTruthy = wanted then jump else return []

def freeUnless (kept r : Nat) : Gen Unit := if r = kept then pure () else free r

def freeOperands (kept : Option Nat) (b c : Nat) : Gen Unit := do
  let release (arg : Nat) : Gen Unit :=
    if Operand.isConstant arg || kept = some arg then pure () else free arg
  if !Operand.isConstant b && !Operand.isConstant c && b < c then
    release c
    release b
  else
    release b
    release c

end Gen

namespace ExprCode

open Gen

def toReg (e : ExprCode) (dst : Nat) (fresh : Bool) : Gen Unit := do
  setPos e.start
  match e.constant with
  | some v => loadValue dst v
  | none => e.body dst fresh

def nextReg (e : ExprCode) : Gen Nat := do
  let r ← reserve 1
  e.toReg r true
  return r

def local? (e : ExprCode) : Gen (Option Nat) :=
  match e.name with
  | some name => register name
  | none => return none

def anyReg (e : ExprCode) : Gen Nat := do
  match ← e.local? with
  | some r => return r
  | none =>
    let r ← allocate
    e.toReg r true
    return r

def operandReg (e : ExprCode) (dst : Nat) (fresh : Bool) : Gen Nat := do
  match ← e.local? with
  | some r => return r
  | none =>
    if fresh then
      e.toReg dst true
      return dst
    else e.anyReg

def operand (e : ExprCode) : Gen Nat :=
  match e.constant with
  | some v => operandOfValue v
  | none => e.anyReg

def leftOperand (e : ExprCode) (dst : Nat) (fresh : Bool) : Gen Nat :=
  match e.constant with
  | some v => operandOfValue v
  | none => e.operandReg dst fresh

def test (e : ExprCode) (wanted : Bool) : Gen (List Nat) := do
  let r ← e.anyReg
  setPos e.start
  free r
  discard <| emitABC .test r 0 wanted.toNat
  jump

def jumpIf (e : ExprCode) (wanted : Bool) : Gen (List Nat) := do
  setPos e.start
  match e.constant, e.branch with
  | some v, _ => jumpIfValue v wanted
  | none, some branch => branch wanted
  | none, none => e.test wanted

/-- The operands that a concatenation with this one on its right has. -/
def operands (e : ExprCode) : List (Gen Unit) :=
  if e.chain.isEmpty then [discard e.nextReg] else e.chain

def upvalue? (e : ExprCode) : Gen (Option Nat) :=
  match e.name with
  | some name => Gen.upvalue? name
  | none => return none

end ExprCode

end LuaBytecode
