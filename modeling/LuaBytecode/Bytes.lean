namespace LuaBytecode

abbrev Bytes := List UInt8

def byte (c : Char) : UInt8 := c.toNat.toUInt8

namespace Bytes

def ofString (s : String) : Bytes := s.toList.map byte

instance : Coe String Bytes := ⟨ofString⟩

def ofNat (n : Nat) : Bytes := (Nat.toDigits 10 n).map byte

def ofInt : Int → Bytes
  | .ofNat n => ofNat n
  | .negSucc n => byte '-' :: ofNat (n + 1)

def hexDigit (n : Nat) : UInt8 := byte (Nat.digitChar (n % 16))

def hex (b : UInt8) : Bytes := [hexDigit (b.toNat / 16), hexDigit b.toNat]

def hexNat (n : Nat) : Bytes := (Nat.toDigits 16 n).map byte

def zeroPad (width : Nat) (s : Bytes) : Bytes := List.replicate (width - s.length) (byte '0') ++ s

def cut? : (start text : Bytes) → Option Bytes
  | [], text => some text
  | _ :: _, [] => none
  | a :: start, b :: text => if a = b then cut? start text else none

theorem cut?_eq_some_iff {start text rest : Bytes} :
    cut? start text = some rest ↔ text = start ++ rest := by
  induction start generalizing text with
  | nil => simp [cut?, eq_comm]
  | cons a start ih =>
    cases text with
    | nil => simp [cut?]
    | cons b text =>
      by_cases h : a = b
      · simp [cut?, h, ih]
      · simp [cut?, h, Ne.symm h]

def startsWith (text start : Bytes) : Bool := (cut? start text).isSome

end Bytes

def numberedText (family : String) (first : Nat) (texts : List Bytes) (n : Int) : Bytes :=
  let other := Bytes.ofString family ++ byte '(' :: Bytes.ofInt n ++ [byte ')']
  if n < first then other else texts[(n - first).toNat]?.getD other

end LuaBytecode
