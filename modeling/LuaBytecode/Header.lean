import LuaBytecode.ByteOrder

namespace LuaBytecode

structure Header where
  version : UInt8
  format : UInt8
  intSize : UInt8
  sizeTSize : UInt8
  instructionSize : UInt8
  integerSize : UInt8
  numberSize : UInt8
  byteOrder : Option ByteOrder
  deriving DecidableEq, Repr

structure Layout where
  int : Width
  sizeT : Width
  integer : Width
  number : Width
  order : ByteOrder
  deriving DecidableEq, Repr

inductive HeaderFault where
  | version (n : UInt8)
  | format (n : UInt8)
  | instructionSize (n : UInt8)
  | width (field : String) (n : UInt8)
  | noByteOrder
  deriving DecidableEq, Repr

def HeaderFault.message : HeaderFault → Bytes
  | .version n => "version mismatch (0x" ++ Bytes.hex n ++ [byte ')']
  | .format n => "format mismatch (" ++ .ofNat n.toNat ++ [byte ')']
  | .instructionSize n =>
    "instruction size must be 4 (got " ++ .ofNat n.toNat ++ [byte ')']
  | .width field n =>
    "unsupported " ++ .ofString field ++ " size (" ++ .ofNat n.toNat ++ [byte ')']
  | .noByteOrder => "byte order not set"

namespace Header

def currentVersion : UInt8 := 0x53

def currentFormat : UInt8 := 0

def default : Header where
  version := currentVersion
  format := currentFormat
  intSize := 4
  sizeTSize := 8
  instructionSize := 4
  integerSize := 8
  numberSize := 8
  byteOrder := some .little

def unset : Header := ⟨0, 0, 0, 0, 0, 0, 0, none⟩

def width (field : String) (n : UInt8) : Except HeaderFault Width :=
  match Width.ofSize? n.toNat with
  | some w => .ok w
  | none => .error (.width field n)

def layout (h : Header) : Except HeaderFault Layout := do
  if h.version ≠ currentVersion then throw (.version h.version)
  if h.format ≠ currentFormat then throw (.format h.format)
  if h.instructionSize ≠ 4 then throw (.instructionSize h.instructionSize)
  let int ← width "int" h.intSize
  let sizeT ← width "size_t" h.sizeTSize
  let integer ← width "lua_Integer" h.integerSize
  let number ← width "lua_Number" h.numberSize
  match h.byteOrder with
  | some order => return { int, sizeT, integer, number, order }
  | none => throw .noByteOrder

end Header

namespace Layout

def header (l : Layout) : Header where
  version := Header.currentVersion
  format := Header.currentFormat
  intSize := l.int.size.toUInt8
  sizeTSize := l.sizeT.size.toUInt8
  instructionSize := 4
  integerSize := l.integer.size.toUInt8
  numberSize := l.number.size.toUInt8
  byteOrder := some l.order

theorem layout_header (l : Layout) : l.header.layout = .ok l := by
  obtain ⟨int, sizeT, integer, number, order⟩ := l
  cases int <;> cases sizeT <;> cases integer <;> cases number <;> rfl

end Layout

end LuaBytecode
