import LuaBytecode.Number.Integer
import LuaBytecode.Text.CharClass

namespace LuaBytecode

inductive IntegerFault where
  | malformed
  | outOfRange
  deriving DecidableEq, Repr

namespace IntegerLiteral

def digit? (c : UInt8) : Option Nat :=
  if isDigit c then some (digitValue c)
  else if byte 'a' ≤ c && c ≤ byte 'z' then some (c.toNat - (byte 'a').toNat + 10)
  else if byte 'A' ≤ c && c ≤ byte 'Z' then some (c.toNat - (byte 'A').toNat + 10)
  else none

def radix? (letter : UInt8) : Option Nat :=
  if letter = byte 'b' || letter = byte 'B' then some 2
  else if letter = byte 'o' || letter = byte 'O' then some 8
  else if letter = byte 'x' || letter = byte 'X' then some 16
  else none

def split : Bytes → Nat × Bytes × Bool
  | zero :: letter :: c :: rest =>
    if zero = byte '0' then
      match radix? letter with
      | some radix => (radix, c :: rest, true)
      | none => (8, zero :: letter :: c :: rest, false)
    else (10, zero :: letter :: c :: rest, false)
  | s => (if s.head? = some (byte '0') then 8 else 10, s, false)

def magnitude (separators : Bool) (radix : Nat) : (n : Nat) → Bytes → Except IntegerFault Nat
  | n, [] => .ok n
  | n, c :: rest =>
    if separators && c = byte '_' then magnitude separators radix n rest
    else
      match digit? c with
      | none => .error .malformed
      | some d =>
        if radix ≤ d then .error .malformed
        else if UInt64.size ≤ radix * n + d then .error .outOfRange
        else magnitude separators radix (radix * n + d) rest

/-- Whether each underscore stands behind a digit or the mark of the radix, and before a digit. -/
def separated (digit : UInt8 → Bool) : (behind : Bool) → Bytes → Bool
  | _, [] => true
  | behind, c :: rest =>
    if c = byte '_' then behind && rest.head?.any digit && separated digit false rest
    else separated digit (digit c) rest

/-- Without a radix it is told by a mark, and underscores may separate the digits. -/
def unsigned (radix? : Option Nat) (s : Bytes) : Except IntegerFault Nat := do
  if s = [] then throw .malformed
  match radix? with
  | some radix => magnitude false radix 0 s
  | none =>
    let (radix, digits, marked) := split s
    let n ← magnitude true radix 0 digits
    if separated (· ≠ byte '_') marked digits then return n else throw .malformed

def inRange (i : Int) : Except IntegerFault Int64 := (int64? i).elim (.error .outOfRange) .ok

end IntegerLiteral

open IntegerLiteral in
def readInteger (s : Bytes) (radix? : Option Nat := none) : Except IntegerFault Int64 :=
  match Bytes.cut? [byte '-'] s with
  | some rest => (unsigned radix? rest).bind fun n => inRange (-n)
  | none => (unsigned radix? ((Bytes.cut? [byte '+'] s).getD s)).bind fun n => inRange n

end LuaBytecode
