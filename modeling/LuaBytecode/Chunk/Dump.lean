import LuaBytecode.Chunk

namespace LuaBytecode

inductive FunctionFault where
  | lineDefined (fault : WriteFault)
  | lastLineDefined (fault : WriteFault)
  | constant (i : Nat) (fault : WriteFault)
  | lineInfo (fault : WriteFault)
  | other (fault : WriteFault)
  deriving DecidableEq, Repr

def FunctionFault.message : FunctionFault → Bytes
  | .lineDefined fault => "line defined: " ++ fault.message
  | .lastLineDefined fault => "last line defined: " ++ fault.message
  | .constant i fault => "constants[" ++ .ofNat i ++ "]: " ++ fault.message
  | .lineInfo fault => "line info: " ++ fault.message
  | .other fault => fault.message

inductive DumpError where
  | header (fault : HeaderFault)
  | noMain
  | tooManyUpvalues (n : Nat)
  | upvalueCount (stated actual : Nat)
  | function (fault : FunctionFault)
  deriving DecidableEq, Repr

def DumpError.detail : DumpError → Bytes
  | .header fault => fault.message
  | .noMain => "missing main function"
  | .tooManyUpvalues n => "too many upvalues (" ++ .ofNat n ++ [byte ')']
  | .upvalueCount stated actual =>
    "upvalue count (" ++ .ofNat stated ++
      ") != main function upvalue count (" ++ .ofNat actual ++ [byte ')']
  | .function fault => fault.message

def DumpError.message (e : DumpError) : Bytes := "dump lua chunk: " ++ e.detail

namespace Layout

def flag (b : Bool) : UInt8 := if b then 1 else 0

def writeInt (l : Layout) (i : Int) : Except WriteFault Bytes := l.order.signedWord l.int i

def writeCount (l : Layout) (n : Nat) : Except FunctionFault Bytes := (l.writeInt n).mapError .other

def writeString (l : Layout) (s : Bytes) : Bytes :=
  if s.length + 1 ≤ Value.maxShortString then (s.length + 1).toUInt8 :: s
  else 0xff :: (l.order.word l.sizeT (s.length + 1) ++ s)

def writeName (l : Layout) (isAbsent : Bool) (name : Bytes) : Bytes :=
  if name.isEmpty && isAbsent then [0] else l.writeString name

def writeInstruction (l : Layout) (i : Instruction) : Bytes := l.order.word .four i.word.toNat

def writeConstant (l : Layout) (v : Value) : Except WriteFault Bytes :=
  match v with
  | .nil => .ok [v.tag]
  | .bool b => .ok [v.tag, flag b]
  | .integer i => (l.order.signedWord l.integer i.toInt).map (v.tag :: ·)
  | .float x => .ok (v.tag :: l.order.float l.number x)
  | .string s => .ok (v.tag :: l.writeString s)

def writeConstants (l : Layout) (ks : List Value) : Except FunctionFault Bytes := do
  let count ← l.writeCount ks.length
  let parts ← ks.zipIdx.mapM fun (v, i) => (l.writeConstant v).mapError (.constant i)
  return count ++ parts.flatten

def writeCode (l : Layout) (code : List Instruction) : Except FunctionFault Bytes := do
  let count ← l.writeCount code.length
  return count ++ code.flatMap l.writeInstruction

def writeUpvalues (l : Layout) (us : List UpvalueDescriptor) : Except FunctionFault Bytes := do
  let count ← l.writeCount us.length
  return count ++ us.flatMap fun u => [flag u.inStack, u.index]

def writeLineInfo (l : Layout) (lines : List Int64) : Except FunctionFault Bytes := do
  let count ← l.writeCount lines.length
  let parts ← lines.mapM fun line => (l.writeInt line.toInt).mapError FunctionFault.lineInfo
  return count ++ parts.flatten

def writeLocals (l : Layout) (absent : List Nat) (vs : List LocalVariable) :
    Except FunctionFault Bytes := do
  let count ← l.writeCount vs.length
  let parts ← vs.zipIdx.mapM fun (v, i) => do
    let start ← (l.writeInt v.startPC.toInt).mapError FunctionFault.other
    let stop ← (l.writeInt v.endPC.toInt).mapError FunctionFault.other
    return l.writeName (absent.contains i) v.name ++ (start ++ stop)
  return count ++ parts.flatten

/-- The names of upvalues: none at all unless one of them is not empty, or a form asks for them. -/
def writeUpvalueNames (l : Layout) (form : DumpForm) (us : List UpvalueDescriptor) :
    Except FunctionFault Bytes := do
  if us.any (fun u => !u.name.isEmpty) || form.upvalueNamesWritten then
    let count ← l.writeCount us.length
    let names := us.zipIdx.flatMap fun (u, i) =>
      l.writeName (form.absentUpvalueNames.contains i) u.name
    return count ++ names
  else l.writeCount 0

mutual

def writeFunction (l : Layout) (parent : ChunkName) : Prototype → Except FunctionFault Bytes
  | ⟨numParams, isVararg, maxStackSize, code, constants, upvalues, functions, source, lineDefined,
      lastLineDefined, lineInfo, localVariables, form⟩ => do
      let form := form.getD .plain
      let writesSource := form.sourceWritten || (!source.isEmpty && source != parent)
      let name := if writesSource then l.writeString source else [0]
      let first ← (l.writeInt lineDefined.toInt).mapError FunctionFault.lineDefined
      let last ← (l.writeInt lastLineDefined.toInt).mapError FunctionFault.lastLineDefined
      let code ← l.writeCode code
      let constants ← l.writeConstants constants
      let descriptors ← l.writeUpvalues upvalues
      let count ← l.writeCount functions.length
      let nested ← writeFunctions l source functions
      let lines ← l.writeLineInfo lineInfo
      let locals ← l.writeLocals form.absentLocalNames localVariables
      let names ← l.writeUpvalueNames form upvalues
      return name ++ (first ++ (last ++ ([numParams, flag isVararg, maxStackSize] ++
        (code ++ (constants ++ (descriptors ++ (count ++ (nested ++ (lines ++ (locals ++
          names))))))))))

def writeFunctions (l : Layout) (parent : ChunkName) : List Prototype → Except FunctionFault Bytes
  | [] => .ok []
  | f :: rest => do
      let head ← writeFunction l parent f
      let tail ← writeFunctions l parent rest
      return head ++ tail

end

def writeHeader (l : Layout) (upvalueCount : UInt8) : Bytes :=
  Chunk.signature ++ [l.header.version, l.header.format] ++ Chunk.integrityMark ++
    [l.header.intSize, l.header.sizeTSize, l.header.instructionSize, l.header.integerSize,
      l.header.numberSize] ++
    l.order.word l.integer Chunk.orderMark ++ l.order.float l.number Chunk.floatMark ++
    [upvalueCount]

end Layout

def Chunk.dump (c : Chunk) : Except DumpError Bytes := do
  let l ← c.header.layout.mapError .header
  match c.main with
  | none => throw .noMain
  | some main =>
    if maxUpvalues < main.upvalues.length then throw (.tooManyUpvalues main.upvalues.length)
    if c.upvalueCount.toNat ≠ main.upvalues.length then
      throw (.upvalueCount c.upvalueCount.toNat main.upvalues.length)
    let body ← (l.writeFunction [] main).mapError DumpError.function
    return l.writeHeader c.upvalueCount ++ body

end LuaBytecode
