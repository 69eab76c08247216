import LuaBytecode.Chunk

namespace LuaBytecode

def Bytes.hasLength (n : Nat) (s : Bytes) : Bool := n = 0 || !(s.drop (n - 1)).isEmpty

theorem Bytes.hasLength_iff {n : Nat} {s : Bytes} : s.hasLength n = true ↔ n ≤ s.length := by
  cases n with
  | zero => simp [hasLength]
  | succ n =>
    have h : s.drop n = [] ↔ s.length ≤ n := List.drop_eq_nil_iff
    have hd : s.hasLength (n + 1) = true ↔ ¬s.drop n = [] := by simp [hasLength]
    rw [hd, h]
    omega

abbrev Reader (ε : Type) := StateT Bytes (Except ε)

namespace Reader

def repeatFrom {ε α : Type} (item : Nat → Reader ε α) :
    (count index : Nat) → List α → Bytes → Except ε (List α × Bytes)
  | 0, _, done, s => .ok (done.reverse, s)
  | count + 1, index, done, s =>
    match item index s with
    | .error e => .error e
    | .ok (a, s) => repeatFrom item count (index + 1) (a :: done) s

def times {ε α : Type} (count : Nat) (item : Nat → Reader ε α) : Reader ε (List α) :=
  repeatFrom item count 0 []

def mapError {ε ε' α : Type} (f : ε → ε') (r : Reader ε α) : Reader ε' α :=
  fun s => (r s).mapError f

def literal {ε : Type} (text : Bytes) (e : ε) : Reader ε Unit := fun s =>
  match Bytes.cut? text s with
  | some rest => .ok ((), rest)
  | none => .error e

end Reader

inductive FieldFault where
  | unexpectedEnd
  | negativeCount (n : Int)
  | needsLongForm (length : Nat)
  | needsShortForm (length : Int)
  | badFlag
  | badNumber
  | noString
  | wrongStringTag (tag : UInt8) (length : Nat)
  | unknownTag (tag : UInt8)
  | tooManyUpvalues (n : Nat)
  | nameCount (n expected : Nat)
  deriving DecidableEq, Repr

def FieldFault.message : FieldFault → Bytes
  | .unexpectedEnd => "unexpected EOF"
  | .negativeCount n => "negative count (" ++ .ofInt n ++ [byte ')']
  | .needsLongForm length =>
    "string length " ++ .ofNat length ++ " must use the long form"
  | .needsShortForm length =>
    "string length " ++ .ofInt length ++ " must use the short form"
  | .badFlag => "missing or invalid boolean"
  | .badNumber => "missing or invalid number"
  | .noString => "missing string"
  | .wrongStringTag tag length =>
    "string type 0x" ++ Bytes.hex tag ++ " does not match length " ++ .ofNat length
  | .unknownTag tag => "unknown type 0x" ++ Bytes.hex tag
  | .tooManyUpvalues n => "too many upvalues (" ++ .ofNat n ++ [byte ')']
  | .nameCount n expected =>
    "length (" ++ .ofNat n ++ ") does not match table (" ++ .ofNat expected ++ [byte ')']

inductive FunctionPlace where
  | whole
  | source
  | lineDefined
  | lastLineDefined
  | numParams
  | isVararg
  | maxStackSize
  | codeSize
  | constantCount
  | constants
  | constant (i : Nat)
  | upvalues
  | upvalue (i : Nat)
  | functions
  | lineInfo
  | localVariables
  | localName (i : Nat)
  | localStart (i : Nat)
  | localEnd (i : Nat)
  | upvalueNames
  | upvalueName (i : Nat)
  deriving DecidableEq, Repr

def FunctionPlace.text (place : FunctionPlace) : Bytes :=
  let item (list : String) (i : Nat) (field : String) : Bytes :=
    .ofString list ++ " [" ++ .ofNat i ++ "]: " ++ .ofString field
  match place with
  | .whole => []
  | .source => "source: "
  | .lineDefined => "line defined: "
  | .lastLineDefined => "last line defined: "
  | .numParams => "number of parameters: "
  | .isVararg => "is vararg: "
  | .maxStackSize => "max stack size: "
  | .codeSize => "instruction length: "
  | .constantCount => "constant table size: "
  | .constants => "constant table: "
  | .constant i => item "constant table" i ""
  | .upvalues => "upvalues: "
  | .upvalue i => item "upvalues" i "in stack: "
  | .functions => "prototypes: "
  | .lineInfo => "line info: "
  | .localVariables => "local variables: "
  | .localName i => item "local variables" i "name: "
  | .localStart i => item "local variables" i "start pc: "
  | .localEnd i => item "local variables" i "end pc: "
  | .upvalueNames => "upvalue names: "
  | .upvalueName i => item "upvalue names" i ""

inductive PreambleFault where
  | notBinary
  | unexpectedEnd
  | version
  | format
  | corrupted
  | sizes (fault : HeaderFault)
  | byteOrder
  | floatFormat
  deriving DecidableEq, Repr

def PreambleFault.message : PreambleFault → Bytes
  | .notBinary => "not a binary chunk"
  | .unexpectedEnd => "unexpected EOF"
  | .version => "version mismatch"
  | .format => "format mismatch"
  | .corrupted => "corrupted chunk"
  | .sizes fault => fault.message
  | .byteOrder => "endianness mismatch"
  | .floatFormat => "float format mismatch"

inductive UndumpError where
  | preamble (fault : PreambleFault)
  | function (place : FunctionPlace) (fault : FieldFault)
  | trailingData
  | upvalueCount (stated actual : Nat)
  deriving DecidableEq, Repr

def UndumpError.detail : UndumpError → Bytes
  | .preamble fault => fault.message
  | .function place fault => "load function: " ++ place.text ++ fault.message
  | .trailingData => "trailing data"
  | .upvalueCount stated actual =>
    "header upvalue count (" ++ .ofNat stated ++
      ") != prototype upvalue count (" ++ .ofNat actual ++ [byte ')']

def UndumpError.message (e : UndumpError) : Bytes :=
  "load lua chunk: bad binary format: " ++ e.detail

namespace Layout

def readByte {ε : Type} (e : ε) : Reader ε UInt8
  | [] => .error e
  | b :: rest => .ok (b, rest)

def readFlag : Reader FieldFault Bool
  | 0 :: rest => .ok (false, rest)
  | 1 :: rest => .ok (true, rest)
  | _ => .error .badFlag

def readWord {ε : Type} (l : Layout) (w : Width) (e : ε) : Reader ε Nat := fun s =>
  let b := s.take w.size
  if b.length = w.size then .ok (l.order.decode b, s.drop w.size) else .error e

def readInt (l : Layout) : Reader FieldFault Int64 := do
  let n ← l.readWord l.int .unexpectedEnd
  return .ofInt (l.int.signed n)

/-- The length of a list whose items take at least `itemSize` bytes each, all of them there. -/
def readCount (l : Layout) (itemSize : Nat) : Reader FieldFault Nat := do
  let n ← l.readInt
  if n < 0 then throw (.negativeCount n.toInt)
  let count := n.toInt.toNat
  if !(← get).hasLength (count * itemSize) then throw .unexpectedEnd
  return count

def readNumber (l : Layout) : Reader FieldFault Binary64 := do
  let n ← l.readWord l.number .badNumber
  match l.number with
  | .eight => return .ofBitsNat n
  | .four =>
    match Binary64.ofSingle? n.toUInt32 with
    | some x => return x
    | none => throw .badNumber

def readBytes (length : Nat) : Reader FieldFault Bytes := fun s =>
  if s.hasLength length then .ok (s.take length, s.drop length) else .error .unexpectedEnd

def readString (l : Layout) : Reader FieldFault (Option Bytes) := do
  let b ← readByte .unexpectedEnd
  if b = 0 then return none
  else if b = 0xff then
    let size ← l.readWord l.sizeT .unexpectedEnd
    if size ≤ Value.maxShortString then throw (.needsShortForm (size - 1))
    some <$> readBytes (size - 1)
  else if Value.maxShortString < b.toNat then throw (.needsLongForm (b.toNat - 1))
  else some <$> readBytes (b.toNat - 1)

def readInstruction (l : Layout) : Reader FieldFault Instruction := do
  let n ← l.readWord .four .unexpectedEnd
  return ⟨n.toUInt32⟩

def inPlace {α : Type} (place : FunctionPlace) (r : Reader FieldFault α) : Reader UndumpError α :=
  r.mapError (.function place)

/-- A byte that is zero if the input ends before it. -/
def readByteOrZero {ε : Type} : Reader ε UInt8
  | [] => .ok (0x00, [])
  | b :: rest => .ok (b, rest)

def readConstant (l : Layout) (i : Nat) : Reader UndumpError Value := do
  let tag ← readByteOrZero
  if tag = 0x00 then return .nil
  else if tag = 0x01 then .bool <$> inPlace (.constant i) readFlag
  else if tag = 0x03 then .float <$> inPlace (.constant i) l.readNumber
  else if tag = 0x13 then
    let n ← inPlace .constants (l.readWord l.integer .unexpectedEnd)
    return .integer (.ofInt (l.integer.signed n))
  else if tag = 0x04 || tag = 0x14 then
    inPlace (.constant i) do
      match ← l.readString with
      | none => throw .noString
      | some s =>
        if (Value.string s).tag ≠ tag then throw (.wrongStringTag tag s.length)
        return .string s
  else inPlace (.constant i) (throw (.unknownTag tag))

def readUpvalue (i : Nat) : Reader UndumpError UpvalueDescriptor := do
  let inStack ← inPlace (.upvalue i) readFlag
  let index ← readByteOrZero
  return { name := [], inStack, index }

def readLocal (l : Layout) (i : Nat) : Reader UndumpError (LocalVariable × Bool) := do
  let name ← inPlace (.localName i) l.readString
  let startPC ← inPlace (.localStart i) l.readInt
  let endPC ← inPlace (.localEnd i) l.readInt
  return ({ name := name.getD [], startPC, endPC }, name.isSome)

def absentPlaces (isPresent : List Bool) : List Nat :=
  isPresent.zipIdx.filterMap fun (present, i) => if present then none else some i

def nameUpvalues (us : List UpvalueDescriptor) (names : List (Option Bytes)) :
    List UpvalueDescriptor :=
  if names.isEmpty then us
  else us.zipWith (fun u name => { u with name := name.getD [] }) names

def readFunction (l : Layout) : (depth : Nat) → (parent : ChunkName) → Reader UndumpError Prototype
  | 0, _ => inPlace .source (throw .unexpectedEnd)
  | depth + 1, parent => do
      let name ← inPlace .source l.readString
      let source := name.getD parent
      let lineDefined ← inPlace .lineDefined l.readInt
      let lastLineDefined ← inPlace .lastLineDefined l.readInt
      let numParams ← inPlace .numParams (readByte .unexpectedEnd)
      let isVararg ← inPlace .isVararg readFlag
      let maxStackSize ← inPlace .maxStackSize (readByte .unexpectedEnd)
      let codeSize ← inPlace .codeSize (l.readCount 4)
      let code ← inPlace .codeSize (Reader.times codeSize fun _ => l.readInstruction)
      let constantCount ← inPlace .constantCount (l.readCount 1)
      let constants ← Reader.times constantCount l.readConstant
      let upvalueCount ← inPlace .upvalues (l.readCount 2)
      if maxUpvalues < upvalueCount then
        throw (.function .whole (.tooManyUpvalues upvalueCount))
      let descriptors ← Reader.times upvalueCount readUpvalue
      let functionCount ← inPlace .functions (l.readCount 1)
      let functions ← Reader.times functionCount fun _ => readFunction l depth source
      let lineCount ← inPlace .lineInfo (l.readCount l.int.size)
      let lineInfo ← inPlace .lineInfo (Reader.times lineCount fun _ => l.readInt)
      let localCount ← inPlace .localVariables (l.readCount 1)
      let locals ← Reader.times localCount l.readLocal
      let nameCount ← inPlace .upvalueNames (l.readCount 1)
      if nameCount ≠ 0 ∧ nameCount ≠ descriptors.length then
        throw (.function .upvalueNames (.nameCount nameCount descriptors.length))
      let names ← Reader.times nameCount fun i => inPlace (.upvalueName i) l.readString
      return {
        numParams, isVararg, maxStackSize, code, constants
        upvalues := nameUpvalues descriptors names
        functions, source, lineDefined, lastLineDefined, lineInfo
        localVariables := locals.map Prod.fst
        form := some {
          sourceWritten := name.isSome
          upvalueNamesWritten := 0 < nameCount
          absentLocalNames := absentPlaces (locals.map Prod.snd)
          absentUpvalueNames := absentPlaces (names.map Option.isSome) } }

def orderOf (word : Bytes) : Option ByteOrder :=
  if ByteOrder.little.decode word = Chunk.orderMark then some .little
  else if ByteOrder.big.decode word = Chunk.orderMark then some .big
  else none

def readPreamble : Reader PreambleFault (Layout × UInt8) := do
  Reader.literal Chunk.signature .notBinary
  let version ← readByte .unexpectedEnd
  if version ≠ Header.currentVersion then throw .version
  let format ← readByte .unexpectedEnd
  if format ≠ Header.currentFormat then throw .format
  Reader.literal Chunk.integrityMark .corrupted
  let intSize ← readByte .unexpectedEnd
  let sizeTSize ← readByte .unexpectedEnd
  let instructionSize ← readByte .unexpectedEnd
  let integerSize ← readByte .unexpectedEnd
  let numberSize ← readByte .unexpectedEnd
  let sizes : Header := {
    version, format, intSize, sizeTSize, instructionSize, integerSize, numberSize
    byteOrder := some .little }
  match sizes.layout with
  | .error fault => throw (.sizes fault)
  | .ok l =>
    let mark ← (readBytes l.integer.size).mapError fun _ => .unexpectedEnd
    match orderOf mark with
    | none => throw .byteOrder
    | some order =>
      let l := { l with order }
      let number ← l.readNumber.mapError fun _ => .unexpectedEnd
      if number ≠ Chunk.floatMark then throw .floatFormat
      let upvalueCount ← readByte .unexpectedEnd
      return (l, upvalueCount)

end Layout

def Chunk.undump (data : Bytes) : Except UndumpError Chunk := do
  let ((l, upvalueCount), rest) ← (Layout.readPreamble data).mapError .preamble
  let (main, rest) ← l.readFunction (rest.length + 1) [] rest
  if !rest.isEmpty then throw .trailingData
  if upvalueCount.toNat ≠ main.upvalues.length then
    throw (.upvalueCount upvalueCount.toNat main.upvalues.length)
  return { header := l.header, upvalueCount, main := some main }

end LuaBytecode
