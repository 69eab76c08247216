import LuaBytecode.Bytes

namespace LuaBytecode

inductive OpMode where
  | abc | abx | asbx | ax
  deriving DecidableEq, Repr

namespace OpMode

def all : List OpMode := [.abc, .abx, .asbx, .ax]

def text : OpMode → Bytes
  | .abc => "iABC"
  | .abx => "iABx"
  | .asbx => "iAsBx"
  | .ax => "iAx"

end OpMode

/-- How an instruction uses an argument: not at all, as such, as a register or a jump, as a constant
or a register. -/
inductive ArgKind where
  | unused | used | register | constant
  deriving DecidableEq, Repr

namespace ArgKind

def all : List ArgKind := [.unused, .used, .register, .constant]

def text : ArgKind → Bytes
  | .unused => "N"
  | .used => "U"
  | .register => "R"
  | .constant => "K"

end ArgKind

inductive OpCode where
  | move | loadK | loadKX | loadBool | loadNil
  | getUpval | getTabUp | getTable | setTabUp | setUpval | setTable
  | newTable | self
  | add | sub | mul | mod | pow | div | idiv | band | bor | bxor | shl | shr
  | unm | bnot | not | len | concat
  | jmp | eq | lt | le | test | testSet
  | call | tailCall | return
  | forLoop | forPrep | tforCall | tforLoop
  | setList | closure | vararg | extraArg
  deriving DecidableEq, Repr

structure OpProps where
  name : String
  isTest : Bool
  setsA : Bool
  b : ArgKind
  c : ArgKind
  mode : OpMode

namespace OpCode

def all : List OpCode :=
  [.move, .loadK, .loadKX, .loadBool, .loadNil, .getUpval, .getTabUp, .getTable, .setTabUp,
   .setUpval, .setTable, .newTable, .self, .add, .sub, .mul, .mod, .pow, .div, .idiv, .band, .bor,
   .bxor, .shl, .shr, .unm, .bnot, .not, .len, .concat, .jmp, .eq, .lt, .le, .test, .testSet,
   .call, .tailCall, .return, .forLoop, .forPrep, .tforCall, .tforLoop, .setList, .closure,
   .vararg, .extraArg]

def number (op : OpCode) : Nat := op.ctorIdx

def ofNumber? (n : Nat) : Option OpCode := all[n]?

theorem ofNumber?_number (op : OpCode) : ofNumber? op.number = some op := by
  cases op <;> rfl

theorem number_lt (op : OpCode) : op.number < 47 := by
  cases op <;> decide

def props : OpCode → OpProps
  | .move => ⟨"MOVE", false, true, .register, .unused, .abc⟩
  | .loadK => ⟨"LOADK", false, true, .constant, .unused, .abx⟩
  | .loadKX => ⟨"LOADKX", false, true, .unused, .unused, .abx⟩
  | .loadBool => ⟨"LOADBOOL", false, true, .used, .used, .abc⟩
  | .loadNil => ⟨"LOADNIL", false, true, .used, .unused, .abc⟩
  | .getUpval => ⟨"GETUPVAL", false, true, .used, .unused, .abc⟩
  | .getTabUp => ⟨"GETTABUP", false, true, .used, .constant, .abc⟩
  | .getTable => ⟨"GETTABLE", false, true, .register, .constant, .abc⟩
  | .setTabUp => ⟨"SETTABUP", false, false, .constant, .constant, .abc⟩
  | .setUpval => ⟨"SETUPVAL", false, false, .used, .unused, .abc⟩
  | .setTable => ⟨"SETTABLE", false, false, .constant, .constant, .abc⟩
  | .newTable => ⟨"NEWTABLE", false, true, .used, .used, .abc⟩
  | .self => ⟨"SELF", false, true, .register, .constant, .abc⟩
  | .add => ⟨"ADD", false, true, .constant, .constant, .abc⟩
  | .sub => ⟨"SUB", false, true, .constant, .constant, .abc⟩
  | .mul => ⟨"MUL", false, true, .constant, .constant, .abc⟩
  | .mod => ⟨"MOD", false, true, .constant, .constant, .abc⟩
  | .pow => ⟨"POW", false, true, .constant, .constant, .abc⟩
  | .div => ⟨"DIV", false, true, .constant, .constant, .abc⟩
  | .idiv => ⟨"IDIV", false, true, .constant, .constant, .abc⟩
  | .band => ⟨"BAND", false, true, .constant, .constant, .abc⟩
  | .bor => ⟨"BOR", false, true, .constant, .constant, .abc⟩
  | .bxor => ⟨"BXOR", false, true, .constant, .constant, .abc⟩
  | .shl => ⟨"SHL", false, true, .constant, .constant, .abc⟩
  | .shr => ⟨"SHR", false, true, .constant, .constant, .abc⟩
  | .unm => ⟨"UNM", false, true, .register, .unused, .abc⟩
  | .bnot => ⟨"BNOT", false, true, .register, .unused, .abc⟩
  | .not => ⟨"NOT", false, true, .register, .unused, .abc⟩
  | .len => ⟨"LEN", false, true, .register, .unused, .abc⟩
  | .concat => ⟨"CONCAT", false, true, .register, .register, .abc⟩
  | .jmp => ⟨"JMP", false, false, .register, .unused, .asbx⟩
  | .eq => ⟨"EQ", true, false, .constant, .constant, .abc⟩
  | .lt => ⟨"LT", true, false, .constant, .constant, .abc⟩
  | .le => ⟨"LE", true, false, .constant, .constant, .abc⟩
  | .test => ⟨"TEST", true, false, .unused, .used, .abc⟩
  | .testSet => ⟨"TESTSET", true, true, .register, .used, .abc⟩
  | .call => ⟨"CALL", false, true, .used, .used, .abc⟩
  | .tailCall => ⟨"TAILCALL", false, true, .used, .used, .abc⟩
  | .return => ⟨"RETURN", false, false, .used, .unused, .abc⟩
  | .forLoop => ⟨"FORLOOP", false, true, .register, .unused, .asbx⟩
  | .forPrep => ⟨"FORPREP", false, true, .register, .unused, .asbx⟩
  | .tforCall => ⟨"TFORCALL", false, false, .unused, .used, .abc⟩
  | .tforLoop => ⟨"TFORLOOP", false, true, .register, .unused, .asbx⟩
  | .setList => ⟨"SETLIST", false, false, .used, .used, .abc⟩
  | .closure => ⟨"CLOSURE", false, true, .used, .unused, .abx⟩
  | .vararg => ⟨"VARARG", false, true, .used, .unused, .abc⟩
  | .extraArg => ⟨"EXTRAARG", false, false, .used, .used, .ax⟩

def mode (op : OpCode) : OpMode := op.props.mode

def text (op : OpCode) : Bytes := .ofString op.props.name

def isJump : OpCode → Bool
  | .jmp | .forLoop | .forPrep | .tforLoop => true
  | _ => false

end OpCode

def fieldsPerFlush : Nat := 50

namespace Operand

def constantBit : Nat := 256

def maxConstant : Nat := 255

def isConstant (arg : Nat) : Bool := arg &&& constantBit ≠ 0

def constantIndex (arg : Nat) : Nat := (arg.toUInt16 &&& ~~~constantBit.toUInt16).toNat

end Operand

inductive EncodingFault where
  | wrongMode (mode : OpMode)
  | outOfRange (mode : OpMode)
  | constantOutOfRange
  deriving DecidableEq, Repr

def EncodingFault.message : EncodingFault → Bytes
  | .wrongMode .abc => "ABCInstruction with invalid OpCode"
  | .wrongMode .abx => "ABxInstruction with invalid OpCode"
  | .wrongMode .asbx => "ABsBxInstruction with invalid OpCode"
  | .wrongMode .ax => "ExtraArgument with invalid OpCode"
  | .outOfRange .abc => "ABCInstruction argument out of range"
  | .outOfRange .abx => "Bx argument out of range"
  | .outOfRange .asbx => "sBx argument out of range"
  | .outOfRange .ax => "ExtraArgument argument out of range"
  | .constantOutOfRange => "RKConstant argument out of range"

def Operand.ofConstant (k : Int) : Except EncodingFault Nat :=
  if 0 ≤ k ∧ k ≤ maxConstant then .ok (k.toNat ||| constantBit) else .error .constantOutOfRange

structure Instruction where
  word : UInt32
  deriving DecidableEq, Repr, Inhabited

namespace Instruction

-- From the low end: the operation, A, C and B; Bx lies on C and B, Ax on A, C and B.
def posA : UInt32 := 6
def posC : UInt32 := 14
def posB : UInt32 := 23

def maxA : Nat := 255
def maxB : Nat := 511
def maxC : Nat := 511
def maxBx : Nat := 262143
def maxAx : Nat := 67108863

def bias : Nat := 131071

def fitsOffset (i : Int) : Bool := -bias ≤ i && i ≤ (maxBx : Int) - bias

def ofFields (op : OpCode) (a : UInt8) (bx : Nat) : Instruction :=
  ⟨op.number.toUInt32 ||| a.toUInt32 <<< posA ||| bx.toUInt32 <<< posC⟩

def abc (op : OpCode) (a : UInt8) (b c : Nat) : Except EncodingFault Instruction :=
  if op.mode ≠ .abc then .error (.wrongMode .abc)
  else if maxB < b ∨ maxC < c then .error (.outOfRange .abc)
  else
    .ok ⟨op.number.toUInt32 ||| a.toUInt32 <<< posA ||| b.toUInt32 <<< posB ||| c.toUInt32 <<< posC⟩

def abx (op : OpCode) (a : UInt8) (bx : Nat) : Except EncodingFault Instruction :=
  if op.mode ≠ .abx then .error (.wrongMode .abx)
  else if maxBx < bx then .error (.outOfRange .abx)
  else .ok (ofFields op a bx)

def asbx (op : OpCode) (a : UInt8) (sbx : Int) : Except EncodingFault Instruction :=
  if op.mode ≠ .asbx then .error (.wrongMode .asbx)
  else if !fitsOffset sbx then .error (.outOfRange .asbx)
  else .ok (ofFields op a (sbx + bias).toNat)

def extraArgument (ax : Nat) : Except EncodingFault Instruction :=
  if maxAx < ax then .error (.outOfRange .ax)
  else .ok ⟨OpCode.extraArg.number.toUInt32 ||| ax.toUInt32 <<< posA⟩

def ofNumber (mode : OpMode) (n : Nat) (build : OpCode → Except EncodingFault Instruction) :
    Except EncodingFault Instruction :=
  match OpCode.ofNumber? n with
  | some op => build op
  | none => .error (.wrongMode mode)

def opNumber (i : Instruction) : Nat := (i.word &&& 63).toNat

def op? (i : Instruction) : Option OpCode := OpCode.ofNumber? i.opNumber

def mode? (i : Instruction) : Option OpMode := i.op?.map OpCode.mode

def hasA (i : Instruction) : Bool :=
  match i.mode? with
  | some .abc | some .abx | some .asbx => true
  | _ => false

def argA (i : Instruction) : Nat := if i.hasA then (i.word >>> posA).toUInt8.toNat else 0

def argB (i : Instruction) : Nat :=
  if i.mode? = some .abc then ((i.word >>> posB).toUInt16 &&& maxB.toUInt16).toNat else 0

def argC (i : Instruction) : Nat :=
  if i.mode? = some .abc then ((i.word >>> posC).toUInt16 &&& maxC.toUInt16).toNat else 0

def argBx (i : Instruction) : Nat := if i.mode? = some .abx then (i.word >>> posC).toNat else 0

def argSBx (i : Instruction) : Int :=
  if i.mode? = some .asbx then (i.word >>> posC).toNat - (bias : Int) else 0

def argAx (i : Instruction) : Nat := if i.mode? = some .ax then (i.word >>> posA).toNat else 0

def replaceBits (i : Instruction) (max : Nat) (pos : UInt32) (value : Nat) : Instruction :=
  ⟨i.word &&& ~~~(max.toUInt32 <<< pos) ||| value.toUInt32 <<< pos⟩

def withA (i : Instruction) (a : UInt8) : Instruction × Bool :=
  if i.hasA then (i.replaceBits maxA posA a.toNat, true) else (i, false)

def withB (i : Instruction) (b : Nat) : Instruction × Bool :=
  if i.mode? = some .abc ∧ b ≤ maxB then (i.replaceBits maxB posB b, true) else (i, false)

def withC (i : Instruction) (c : Nat) : Instruction × Bool :=
  if i.mode? = some .abc ∧ c ≤ maxC then (i.replaceBits maxC posC c, true) else (i, false)

def withSBx (i : Instruction) (sbx : Int) : Instruction × Bool :=
  if i.mode? = some .asbx ∧ fitsOffset sbx then
    (i.replaceBits maxBx posC (sbx + bias).toNat, true)
  else (i, false)

def changed? (r : Instruction × Bool) : Option Instruction := if r.2 then some r.1 else none

def withA? (i : Instruction) (a : UInt8) : Option Instruction := changed? (i.withA a)

def withB? (i : Instruction) (b : Nat) : Option Instruction := changed? (i.withB b)

def withC? (i : Instruction) (c : Nat) : Option Instruction := changed? (i.withC c)

def withSBx? (i : Instruction) (sbx : Int) : Option Instruction := changed? (i.withSBx sbx)

/-- An operand in a listing: constants are counted down from -1. -/
def operandText (arg : Nat) : Bytes :=
  if Operand.isConstant arg then .ofInt (-1 - (Operand.constantIndex arg : Int)) else .ofNat arg

def padRight (width : Nat) (s : Bytes) : Bytes := s ++ List.replicate (width - s.length) (byte ' ')

def argsText (i : Instruction) (op : OpCode) : Bytes :=
  match op.mode with
  | .abc =>
    .ofNat i.argA ++ (if op.props.b = .unused then [] else byte ' ' :: operandText i.argB) ++
      (if op.props.c = .unused then [] else byte ' ' :: operandText i.argC)
  | .abx =>
    .ofNat i.argA ++ (match op.props.b with
        | .constant => byte ' ' :: Bytes.ofInt (-1 - (i.argBx : Int))
        | .used => byte ' ' :: Bytes.ofNat i.argBx
        | _ => [])
  | .asbx => .ofNat i.argA ++ byte ' ' :: Bytes.ofInt i.argSBx
  | .ax => .ofInt (-1 - (i.argAx : Int))

def text (i : Instruction) : Bytes :=
  match i.op? with
  | some op => padRight 9 op.text ++ byte '\t' :: i.argsText op
  | none =>
    "Instruction(0x" ++ Bytes.zeroPad 8 (Bytes.hexNat i.word.toNat) ++ [byte ')']

end Instruction

end LuaBytecode
