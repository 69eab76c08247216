import LuaBytecode.ChunkName
import LuaBytecode.Instruction
import LuaBytecode.Value

namespace LuaBytecode

def maxRegisters : Nat := 255

def maxUpvalues : Nat := 255

def environmentName : Bytes := "_ENV"

/-- Where a closure finds an upvalue when it is made: in a register of the enclosing function, or
among that function's own upvalues. -/
structure UpvalueDescriptor where
  name : Bytes
  inStack : Bool
  index : UInt8
  deriving DecidableEq, Repr, Inhabited

/-- The scope of a local variable: the instructions from `startPC` up to, not including, `endPC`. -/
structure LocalVariable where
  name : Bytes
  startPC : Int64
  endPC : Int64
  deriving DecidableEq, Inhabited

/-- How a loaded function's debug texts were written, where the function itself does not tell. -/
structure DumpForm where
  sourceWritten : Bool
  upvalueNamesWritten : Bool
  absentLocalNames : List Nat
  absentUpvalueNames : List Nat
  deriving DecidableEq, Repr

def DumpForm.plain : DumpForm := ⟨false, false, [], []⟩

structure Prototype where
  numParams : UInt8
  isVararg : Bool
  maxStackSize : UInt8
  code : List Instruction
  constants : List Value
  upvalues : List UpvalueDescriptor
  functions : List Prototype
  source : ChunkName
  lineDefined : Int64
  lastLineDefined : Int64
  lineInfo : List Int64
  localVariables : List LocalVariable
  form : Option DumpForm := none

instance : Inhabited Prototype :=
  ⟨{ numParams := 0, isVararg := false, maxStackSize := 0, code := [], constants := [],
     upvalues := [], functions := [], source := [], lineDefined := 0, lastLineDefined := 0,
     lineInfo := [], localVariables := [] }⟩

namespace Prototype

def isMain (f : Prototype) : Bool := f.lineDefined = 0

def lineAt (f : Prototype) (pc : Int) : Int64 :=
  if pc < 0 then 0 else f.lineInfo[pc.toNat]?.getD 0

def localNameIn (pc : Int) : List LocalVariable → Int → Option Bytes
  | [], _ => none
  | v :: rest, n =>
    if pc < v.startPC.toInt then none
    else if v.endPC.toInt ≤ pc then localNameIn pc rest n
    else if n = 0 then some v.name
    else localNameIn pc rest (n - 1)

def localName? (f : Prototype) (n pc : Int) : Option Bytes := localNameIn pc f.localVariables n

def upvalueText (f : Prototype) (i : Nat) : Bytes :=
  match f.upvalues[i]? with
  | some u => if u.name.isEmpty then [byte '-'] else u.name
  | none => [byte '-']

mutual

/-- The function without names of sources, lines, local variables and upvalue names, at every depth.
-/
def strip : Prototype → Prototype
  | ⟨numParams, isVararg, maxStackSize, code, constants, upvalues, functions, _, lineDefined,
      lastLineDefined, _, _, _⟩ =>
      { numParams, isVararg, maxStackSize, code, constants
        upvalues := upvalues.map fun u => { u with name := [] }
        functions := stripAll functions
        source := [], lineDefined, lastLineDefined, lineInfo := [], localVariables := [] }

def stripAll : List Prototype → List Prototype
  | [] => []
  | f :: rest => f.strip :: stripAll rest

end

def nested? (f : Prototype) : List Nat → Option Prototype
  | [] => some f
  | i :: path => f.functions[i]? >>= fun g => nested? g path

end Prototype

end LuaBytecode
