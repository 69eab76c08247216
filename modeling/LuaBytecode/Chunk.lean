import LuaBytecode.Header
import LuaBytecode.Prototype

namespace LuaBytecode

structure Chunk where
  header : Header
  upvalueCount : UInt8
  main : Option Prototype

namespace Chunk

def unset : Chunk := ⟨.unset, 0, none⟩

def strip (c : Chunk) : Chunk := { c with main := c.main.map Prototype.strip }

def signature : Bytes := [0x1b, byte 'L', byte 'u', byte 'a']

def integrityMark : Bytes := [0x19, 0x93, 0x0d, 0x0a, 0x1a, 0x0a]

def orderMark : Nat := 0x5678

def floatMark : Binary64 := .ofQuotient false 741 2

def isBinary (data : Bytes) : Bool := data.startsWith signature

end Chunk

end LuaBytecode
