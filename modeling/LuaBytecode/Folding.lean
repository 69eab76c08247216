import LuaBytecode.Instruction
import LuaBytecode.Number.Power
import LuaBytecode.Operator
import LuaBytecode.Value

namespace LuaBytecode

def BinaryOp.arithmetic? : BinaryOp → Option OpCode
  | .add => some .add
  | .sub => some .sub
  | .mul => some .mul
  | .mod => some .mod
  | .pow => some .pow
  | .div => some .div
  | .idiv => some .idiv
  | .band => some .band
  | .bor => some .bor
  | .bxor => some .bxor
  | .shl => some .shl
  | .shr => some .shr
  | _ => none

def UnaryOp.opCode : UnaryOp → OpCode
  | .neg => .unm
  | .bnot => .bnot
  | .not => .not
  | .len => .len

def OpCode.isIntegral : OpCode → Bool
  | .band | .bor | .bxor | .shl | .shr | .bnot => true
  | _ => false

structure FoldingFault where
  isInteger : Bool
  operator : Bytes
  deriving DecidableEq, Repr

def FoldingFault.message (f : FoldingFault) : Bytes :=
  .ofString (if f.isInteger then "unhandled integer operator " else "unhandled float operator ") ++
    f.operator

namespace Folding

def integer? (op : OpCode) (a b : Int64) : Option Int64 :=
  match op with
  | .add => some (a + b)
  | .sub => some (a - b)
  | .mul => some (a * b)
  | .mod => some (Integer.floorMod a b)
  | .idiv => some (Integer.floorDiv a b)
  | .band => some (a &&& b)
  | .bor => some (a ||| b)
  | .bxor => some (a ^^^ b)
  | .shl => some (Integer.shiftLeft a b)
  | .shr => some (Integer.shiftRight a b)
  | .unm => some (-a)
  | .bnot => some (~~~a)
  | _ => none

def float? (op : OpCode) (x y : Binary64) : Option Binary64 :=
  match op with
  | .add => some (x.add y)
  | .sub => some (x.sub y)
  | .mul => some (x.mul y)
  | .div => some (x.div y)
  | .pow => some (x.pow y)
  | .idiv => some (x.floorDiv y)
  | .unm => some x.neg
  | .mod => some (x.floorMod y)
  | _ => none

def integerResult (op : OpCode) (a b : Int64) : Except FoldingFault (Option Value) :=
  match integer? op a b with
  | some i => .ok (some (.integer i))
  | none => .error ⟨true, op.text⟩

/-- A float result, unless it is zero or no number. -/
def floatResult (op : OpCode) (x y : Binary64) : Except FoldingFault (Option Value) :=
  match float? op x y with
  | some z => .ok (if z.isZero || z.isNaN then none else some (.float z))
  | none => .error ⟨false, op.text⟩

def dividesByZero (op : OpCode) (y : Binary64) : Bool :=
  (op = .mod || op = .idiv || op = .div) && y.isZero

def numbers (op : OpCode) (v w : Value) (x y : Binary64) : Except FoldingFault (Option Value) :=
  if op.isIntegral then
    match v.exactInteger?, w.exactInteger? with
    | some a, some b => integerResult op a b
    | _, _ => .ok none
  else if dividesByZero op y then .ok none
  else if op = .div || op = .pow then floatResult op x y
  else
    match v.toInteger?, w.toInteger? with
    | some a, some b => integerResult op a b
    | _, _ => floatResult op x y

end Folding

def fold (op : OpCode) (v w : Value) : Except FoldingFault (Option Value) :=
  let w := if op = .unm || op = .bnot then .integer 0 else w
  match v.toFloat?, w.toFloat? with
  | some x, some y => Folding.numbers op v w x y
  | _, _ => .ok none

def foldNumbered (n : Nat) (v w : Value) : Except FoldingFault (Option Value) :=
  match OpCode.ofNumber? n with
  | some op => fold op v w
  | none =>
    if v.isNumber && w.isNumber then
      .error ⟨v.isInteger && w.isInteger, numberedText "OpCode" 0 (OpCode.all.map OpCode.text) n⟩
    else .ok none

end LuaBytecode
