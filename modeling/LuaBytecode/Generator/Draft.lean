import LuaBytecode.ConstantTable
import LuaBytecode.Folding
import LuaBytecode.Prototype
import LuaBytecode.Text.Escape

/-! Functions under construction, and the ways in which their construction can fail: the program may
be one that cannot be compiled, and the generator may find its own state inconsistent. -/

namespace LuaBytecode

def maxVariables : Nat := 200

def maxIteratorNames : Nat := 2

def maxIteratorExprs : Nat := 3

inductive CompileCause where
  | tooManyLocals
  | tooManyUpvalues
  | tooManyRegisters
  | tooManyConstants
  | tooManyFunctions
  | jumpTooLong
  | constructorTooLong
  | varargOutside
  | breakOutside
  | tooManyIteratorNames
  | tooManyIteratorExprs
  | malformedNumber (raw : Bytes)
  | malformedString (e : EscapeError)
  deriving DecidableEq, Repr

def CompileCause.message : CompileCause → Bytes
  | .tooManyLocals =>
    "too many local variables (limit is " ++ .ofNat maxVariables ++ [byte ')']
  | .tooManyUpvalues => "too many upvalues (limit is " ++ .ofNat maxUpvalues ++ [byte ')']
  | .tooManyRegisters => "function or expression needs too many registers"
  | .tooManyConstants => "too many constants"
  | .tooManyFunctions => "too many functions"
  | .jumpTooLong => "control structure too long"
  | .constructorTooLong => "constructor too long"
  | .varargOutside => "cannot use '...' outside a vararg function"
  | .breakOutside => "break outside a loop"
  | .tooManyIteratorNames =>
    "malformed iterator: too many variables (limit is " ++ .ofNat maxIteratorNames ++ [byte ')']
  | .tooManyIteratorExprs =>
    "malformed iterator: too many expressions (limit is " ++ .ofNat maxIteratorExprs ++ [byte ')']
  | .malformedNumber raw => "malformed number near '" ++ raw ++ [byte '\'']
  | .malformedString e => e.message

structure CompileError where
  source : ChunkName
  pos : Position
  cause : CompileCause
  deriving DecidableEq, Repr

def CompileError.message (e : CompileError) : Bytes :=
  e.source.shown ++ byte ':' :: e.pos.text ++ ": " ++ e.cause.message

inductive GeneratorFault where
  | notAJump (pc : Nat)
  | cannotClose (pc : Nat)
  | encoding (fault : EncodingFault)
  | folding (fault : FoldingFault)
  | openBlocks
  | noEnvironment
  | openCallBelowTop
  | notACall
  | notAssignable
  | noInstruction
  | registers
  | noVariable
  | noBreak
  | noBlock
  deriving DecidableEq, Repr

inductive GenerateError where
  | compile (e : CompileError)
  | internal (fault : GeneratorFault)
  deriving DecidableEq, Repr

structure Block where
  firstBreak : Nat
  numActive : Nat
  isCaptured : Bool
  isLoop : Bool
  deriving DecidableEq, Repr

structure PendingBreak where
  jumps : List Nat
  numActive : Nat
  deriving DecidableEq, Repr

structure Draft where
  source : ChunkName
  numParams : UInt8
  isVararg : Bool
  lineDefined : Int64
  lastLineDefined : Int64
  maxStackSize : Nat
  code : Array Instruction
  lineInfo : Array Int64
  constants : ConstantTable
  upvalues : Array UpvalueDescriptor
  functions : Array Prototype
  localVariables : Array LocalVariable
  blocks : List Block
  breaks : Array PendingBreak
  active : Array Nat
  firstFree : Nat
  released : List Nat
  lastTarget : Nat
  pending : List Nat
  line : Int
  pos : Position

namespace Draft

def new (source : ChunkName) (numParams : UInt8) (isVararg : Bool)
    (lineDefined lastLineDefined : Int) (upvalues : Array UpvalueDescriptor) : Draft where
  source := source
  numParams := numParams
  isVararg := isVararg
  lineDefined := .ofInt lineDefined
  lastLineDefined := .ofInt lastLineDefined
  maxStackSize := 2
  code := #[]
  lineInfo := #[]
  constants := .empty
  upvalues := upvalues
  functions := #[]
  localVariables := #[]
  blocks := []
  breaks := #[]
  active := #[]
  firstFree := 0
  released := []
  lastTarget := 0
  pending := []
  line := 1
  pos := ⟨1, 0⟩

def error (d : Draft) (cause : CompileCause) : GenerateError := .compile ⟨d.source, d.pos, cause⟩

def prototype (d : Draft) : Prototype where
  numParams := d.numParams
  isVararg := d.isVararg
  maxStackSize := d.maxStackSize.toUInt8
  code := d.code.toList
  constants := d.constants.values.toList
  upvalues := d.upvalues.toList
  functions := d.functions.toList
  source := d.source
  lineDefined := d.lineDefined
  lastLineDefined := d.lastLineDefined
  lineInfo := d.lineInfo.toList
  localVariables := d.localVariables.toList

def setPos (d : Draft) (p : Position) : Draft :=
  if p.isValid then { d with pos := p, line := p.line } else d

end Draft

structure Generator extends Draft where
  enclosing : List Draft

abbrev Gen := StateT Generator (Except GenerateError)

namespace Gen

@[noinline] def read {α : Type} (f : Draft → α) : Gen α := fun g => .ok (f g.toDraft, g)

@[inline] def update (f : Draft → Draft) : Gen Unit :=
  fun g => .ok ((), { g with toDraft := f g.toDraft })

@[inline] def updateOrFail (f : Draft → Except GenerateError Draft) : Gen Unit := fun g =>
  match f g.toDraft with
  | .ok d => .ok ((), { g with toDraft := d })
  | .error e => .error e

def fail {α : Type} (cause : CompileCause) : Gen α := fun g => .error (g.error cause)

def fault {α : Type} (f : GeneratorFault) : Gen α := fun _ => .error (.internal f)

def setPos (p : Position) : Gen Unit := update (·.setPos p)

def setLine (line : Int) : Gen Unit := update ({ · with line })

end Gen

end LuaBytecode
