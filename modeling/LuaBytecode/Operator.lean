import LuaBytecode.Bytes

namespace LuaBytecode

inductive BinaryOp where
  | or | and
  | bor | bxor | band
  | eq | ne | lt | le | gt | ge
  | shl | shr
  | concat
  | add | sub
  | mul | div | idiv | mod
  | pow
  deriving DecidableEq, Repr

namespace BinaryOp

def all : List BinaryOp :=
  [.or, .and, .bor, .bxor, .band, .eq, .ne, .lt, .le, .gt, .ge, .shl, .shr, .concat, .add, .sub,
   .mul, .div, .idiv, .mod, .pow]

def text : BinaryOp → Bytes
  | .or => "or"
  | .and => "and"
  | .bor => "|"
  | .bxor => "~"
  | .band => "&"
  | .eq => "=="
  | .ne => "~="
  | .lt => "<"
  | .le => "<="
  | .gt => ">"
  | .ge => ">="
  | .shl => "<<"
  | .shr => ">>"
  | .concat => ".."
  | .add => "+"
  | .sub => "-"
  | .mul => "*"
  | .div => "/"
  | .idiv => "//"
  | .mod => "%"
  | .pow => "^"

def ofText? (s : Bytes) : Option BinaryOp := all.find? fun op => op.text == s

def number (op : BinaryOp) : Nat := op.ctorIdx + 1

def isComparison : BinaryOp → Bool
  | .eq | .ne | .lt | .le | .gt | .ge => true
  | _ => false

def isLogical : BinaryOp → Bool
  | .or | .and => true
  | _ => false

def powers : BinaryOp → Nat × Nat
  | .or => (2, 2)
  | .and => (4, 4)
  | .bor | .bxor => (6, 6)
  | .band => (8, 8)
  | .eq | .ne => (10, 10)
  | .lt | .le | .gt | .ge => (12, 12)
  | .shl | .shr => (14, 14)
  | .concat => (16, 15)
  | .add | .sub => (18, 18)
  | .mul | .div | .idiv | .mod => (20, 20)
  | .pow => (26, 25)

end BinaryOp

inductive UnaryOp where
  | not | neg | bnot | len
  deriving DecidableEq, Repr

namespace UnaryOp

def all : List UnaryOp := [.not, .neg, .bnot, .len]

def text : UnaryOp → Bytes
  | .not => "not"
  | .neg => "-"
  | .bnot => "~"
  | .len => "#"

def ofText? (s : Bytes) : Option UnaryOp := all.find? fun op => op.text == s

def number (op : UnaryOp) : Nat := op.ctorIdx + 1

/-- The binding power of every unary operator: only exponentiation binds tighter. -/
def power : Nat := 22

end UnaryOp

end LuaBytecode
