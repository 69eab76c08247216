import LuaBytecode.ChunkName
import LuaBytecode.Header
import LuaBytecode.Sha256

namespace LuaBytecode

def varint (n : Nat) : Bytes :=
  if n < 128 then [n.toUInt8] else (n % 128 + 128).toUInt8 :: varint (n / 128)

namespace Cache

def counted (s : Bytes) : Bytes := varint s.length ++ s

def formatVersion : Bytes := "luac53 cache v1"

def orderName : Option ByteOrder → Bytes
  | none => []
  | some .little => "LittleEndian"
  | some .big => "BigEndian"

def keyText (name : ChunkName) (header : Header) (source : Bytes) : Bytes :=
  counted formatVersion ++ counted name ++
    [header.version, header.format, header.intSize, header.sizeTSize, header.instructionSize,
      header.integerSize, header.numberSize] ++
    counted (orderName header.byteOrder) ++ counted source

abbrev Key := Digest

namespace Key

def ofSource (name : ChunkName) (header : Header) (source : Bytes) : Key :=
  sha256 (keyText name header source)

def ofBytes (s : Bytes) : Key :=
  let bytes := s.toArray
  .ofFn fun i => bytes[i.val]?.getD 0

def hex (k : Key) : Bytes := k.toList.flatMap Bytes.hex

end Key

end Cache

end LuaBytecode
