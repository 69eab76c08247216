import LuaBytecode.Number.Arithmetic
import LuaBytecode.Text.IntegerLiteral

namespace LuaBytecode

inductive Number where
  | integer (i : Int64)
  | float (x : Binary64)
  deriving DecidableEq

namespace Numeral

structure Parts where
  whole : Bytes
  fraction : Bytes
  exponent : Option (Bool × Bytes)
  deriving DecidableEq

def isDecimalMark (c : UInt8) : Bool := c = byte 'e' || c = byte 'E'

def isBinaryMark (c : UInt8) : Bool := c = byte 'p' || c = byte 'P'

def cutSign : Bytes → Bool × Bytes
  | [] => (false, [])
  | c :: rest =>
    if c = byte '-' then (true, rest) else if c = byte '+' then (false, rest)
    else (false, c :: rest)

def exponentParts? (s : Bytes) : Option (Bool × Bytes) :=
  let (negative, digits) := cutSign s
  if digits.isEmpty || !digits.all isDigit then none else some (negative, digits)

/-- Splits a numeral into digits before and after the point and an exponent, which one of two
letters opens. -/
def parts? (isDigitOf : UInt8 → Bool) (mark : UInt8 → Bool) (s : Bytes) : Option Parts :=
  let whole := s.takeWhile isDigitOf
  let rest := s.dropWhile isDigitOf
  let (fraction, rest) := match rest with
    | c :: after =>
      if c = byte '.' then (after.takeWhile isDigitOf, after.dropWhile isDigitOf) else ([], rest)
    | [] => ([], [])
  if whole.isEmpty && fraction.isEmpty then none
  else
    match rest with
    | [] => some ⟨whole, fraction, none⟩
    | c :: rest =>
      if mark c then (exponentParts? rest).map fun e => ⟨whole, fraction, some e⟩ else none

def exponentValue : Option (Bool × Bytes) → Int
  | none => 0
  | some (negative, digits) =>
    let n := digits.foldl (fun n c => if n < 10000 then n * 10 + digitValue c else n) 0
    if negative then -(n : Int) else n

def digitsValue (base : Nat) (s : Bytes) : Nat :=
  s.foldl (fun n c => n * base + (hexValue? c).getD 0) 0

def ofDecimal (mantissa : Nat) (exponent : Int) : Binary64 :=
  let width : Int := (Nat.toDigits 10 mantissa).length
  if mantissa = 0 then ⟨0⟩
  else if 310 < width + exponent then .ofBitsNat FloatFormat.double.infinityBits
  else if width + exponent < -330 then ⟨0⟩
  else
    match exponent with
    | .ofNat e => .ofQuotient false (mantissa * Nat.pow 10 e) 1
    | .negSucc e => .ofQuotient false mantissa (Nat.pow 10 (e + 1))

def ofBinary (mantissa : Nat) (exponent : Int) : Binary64 :=
  let width : Int := Nat.log2 mantissa
  if mantissa = 0 then ⟨0⟩
  else if 1100 < width + exponent then .ofBitsNat FloatFormat.double.infinityBits
  else if width + exponent < -1100 then ⟨0⟩
  else
    let (num, den) := scaleByTwo mantissa exponent
    .ofQuotient false num den

def decimalFloat? (s : Bytes) : Option Binary64 := do
  let p ← parts? isDigit isDecimalMark s
  return ofDecimal (digitsValue 10 (p.whole ++ p.fraction))
    (exponentValue p.exponent - p.fraction.length)

def hexFloat? (s : Bytes) : Option Binary64 := do
  let p ← parts? isHexDigit isBinaryMark s
  let e ← p.exponent
  return ofBinary (digitsValue 16 (p.whole ++ p.fraction))
    (exponentValue (some e) - 4 * p.fraction.length)

def cutHexMark? : Bytes → Option Bytes
  | zero :: mark :: rest =>
    if zero = byte '0' && (mark = byte 'x' || mark = byte 'X') then some rest else none
  | _ => none

def lower (c : UInt8) : UInt8 := if byte 'A' ≤ c && c ≤ byte 'Z' then c + 0x20 else c

def special? (s : Bytes) : Option Binary64 :=
  let (negative, word) := cutSign s
  if word.map lower = ("inf" : Bytes) || word.map lower = ("infinity" : Bytes) then
    some (.ofBitsNat (FloatFormat.double.withSign negative FloatFormat.double.infinityBits))
  else if s.map lower = ("nan" : Bytes) then some ⟨0x7ff8000000000001⟩
  else none

def separatedFloat? (s : Bytes) : Option Binary64 :=
  match cutHexMark? s with
  | some rest =>
    if IntegerLiteral.separated isHexDigit true rest then hexFloat? (rest.filter (· ≠ byte '_'))
    else none
  | none =>
    if IntegerLiteral.separated isDigit false s then decimalFloat? (s.filter (· ≠ byte '_'))
    else none

/-- Reads a number in a wider syntax: with a sign, with underscores between the digits, as a word,
and in hexadecimal only with an exponent. One that is out of range is read as infinite. -/
def readFloat? (s : Bytes) : Option Binary64 :=
  match special? s with
  | some x => some x
  | none =>
    let (negative, digits) := cutSign s
    (separatedFloat? digits).map fun x => if negative then x.neg else x

def hexWord? : (x : UInt64) → Bytes → Option UInt64
  | x, [] => some x
  | x, c :: rest =>
    match hexValue? c with
    | some d => hexWord? (x <<< 4 ||| d.toUInt64) rest
    | none => none

def isMarked (mark : UInt8 → Bool) (s : Bytes) : Bool := s.any fun c => c = byte '.' || mark c

end Numeral

open Numeral in
def parseNumeral? (s : Bytes) : Option Number :=
  if s = [] || s.head? = some (byte '+') || s.head? = some (byte '-') ||
      s.contains (byte '_') then none
  else
    match cutHexMark? s with
    | some rest =>
      if isMarked isBinaryMark rest then
        (readFloat? (if rest.any isBinaryMark then s else s ++ "p0")).map .float
      else if rest = [] then none
      else (hexWord? 0 rest).map fun x => .integer x.toInt64
    | none =>
      if isMarked isDecimalMark s then (readFloat? s).map .float
      else
        match readInteger s (some 10) with
        | .ok i => some (.integer i)
        | .error .malformed => none
        | .error .outOfRange => (readFloat? s).map .float

end LuaBytecode
