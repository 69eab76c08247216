import LuaBytecode.Bytes

namespace LuaBytecode

def isSpace (c : UInt8) : Bool :=
  c = byte ' ' || c = byte '\n' || c = byte '\t' || c = byte '\r' || c = 0x0c || c = 0x0b

def isLetter (c : UInt8) : Bool := (byte 'a' ≤ c && c ≤ byte 'z') || (byte 'A' ≤ c && c ≤ byte 'Z')

def isDigit (c : UInt8) : Bool := byte '0' ≤ c && c ≤ byte '9'

def isNameStart (c : UInt8) : Bool := isLetter c || c = byte '_'

def isNamePart (c : UInt8) : Bool := isLetter c || isDigit c || c = byte '_'

def isPrintable (c : UInt8) : Bool := 0x20 ≤ c && c < 0x7f

def digitValue (c : UInt8) : Nat := c.toNat - (byte '0').toNat

def hexValue? (c : UInt8) : Option Nat :=
  if isDigit c then some (digitValue c)
  else if byte 'a' ≤ c && c ≤ byte 'f' then some (c.toNat - (byte 'a').toNat + 10)
  else if byte 'A' ≤ c && c ≤ byte 'F' then some (c.toNat - (byte 'A').toNat + 10)
  else none

theorem hexValue?_lt {c : UInt8} {d : Nat} (h : hexValue? c = some d) : d < 16 := by
  simp only [hexValue?, isDigit, digitValue, Bool.and_eq_true, decide_eq_true_eq,
    UInt8.le_iff_toNat_le] at h
  have h9 : (byte '0').toNat = 48 ∧ (byte '9').toNat = 57 := by decide
  have hf : (byte 'a').toNat = 97 ∧ (byte 'f').toNat = 102 := by decide
  have hF : (byte 'A').toNat = 65 ∧ (byte 'F').toNat = 70 := by decide
  split at h
  · cases h
    omega
  · split at h
    · cases h
      omega
    · split at h
      · cases h
        omega
      · cases h

def isHexDigit (c : UInt8) : Bool := (hexValue? c).isSome

end LuaBytecode
