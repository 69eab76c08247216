import LuaBytecode.Bytes
import LuaBytecode.Number.Binary

/-! Decimal text of a positive quotient, rounded to a number of significant digits, a tie going to
the even digit. -/

namespace LuaBytecode

def roundScaled (num den : Nat) : (places : Int) → Nat
  | .ofNat n => roundDiv (num * Nat.pow 10 n) den
  | .negSucc n => roundDiv num (den * Nat.pow 10 (n + 1))

/-- Significant digits, the first of them worth `10 ^ exponent`. -/
structure Decimal where
  digits : Bytes
  exponent : Int
  deriving DecidableEq, Repr

namespace Decimal

def reaches (num den : Nat) : (e : Int) → Bool
  | .ofNat n => decide (den * Nat.pow 10 n ≤ num)
  | .negSucc n => decide (den ≤ num * Nat.pow 10 (n + 1))

def exponentBelow (num den : Nat) : (fuel : Nat) → (e : Int) → Int
  | 0, e => e
  | fuel + 1, e => if reaches num den e then e else exponentBelow num den fuel (e - 1)

def decimalExponent (num den : Nat) : Int :=
  let width := fun n => (Nat.toDigits 10 n).length
  exponentBelow num den 3 ((width num : Int) - width den)

def trimZeros (digits : Bytes) : Bytes := (digits.reverse.dropWhile (· = byte '0')).reverse

def round (precision num den : Nat) : Decimal :=
  let exponent := decimalExponent num den
  let scaled := roundScaled num den ((precision : Int) - 1 - exponent)
  let carried := decide (Nat.pow 10 precision ≤ scaled)
  ⟨trimZeros (Bytes.ofNat scaled), if carried then exponent + 1 else exponent⟩

/-- How a decimal is written: exponents from `positionalFrom` up to, not including, `positionalTo`
are written positionally, and others behind an `e` with at least two digits. -/
structure Layout where
  precision : Nat
  positionalFrom : Int
  positionalTo : Int

def exponentText (e : Int) : Bytes :=
  byte 'e' :: (if e < 0 then byte '-' else byte '+') :: Bytes.zeroPad 2 (Bytes.ofNat e.natAbs)

def scientific (d : Decimal) : Bytes :=
  match d.digits with
  | [] => []
  | [c] => c :: exponentText d.exponent
  | c :: rest => c :: byte '.' :: rest ++ exponentText d.exponent

def positional (d : Decimal) : Bytes :=
  match d.exponent with
  | .negSucc n => byte '0' :: byte '.' :: List.replicate n (byte '0') ++ d.digits
  | .ofNat n =>
    let whole := d.digits.take (n + 1)
    let fraction := d.digits.drop (n + 1)
    whole ++ List.replicate (n + 1 - whole.length) (byte '0') ++
      (if fraction.isEmpty then [] else byte '.' :: fraction)

def write (layout : Layout) (d : Decimal) : Bytes :=
  if layout.positionalFrom ≤ d.exponent ∧ d.exponent < layout.positionalTo then d.positional
  else d.scientific

end Decimal

namespace Binary64

def layout : Decimal.Layout := ⟨14, -4, 14⟩

def magnitudeText (mantissa : Nat) (exponent : Int) : Bytes :=
  if mantissa = 0 then [byte '0']
  else
    let (num, den) := scaleByTwo mantissa exponent
    (Decimal.round layout.precision num den).write layout

def text (x : Binary64) : Bytes :=
  match x.datum with
  | .nan .. => "nan"
  | .infinite negative => .ofString (if negative then "-inf" else "inf")
  | .finite negative mantissa exponent =>
    let s := magnitudeText mantissa exponent
    let s := if s.any fun c => c = byte '.' || c = byte 'e' then s else s ++ ".0"
    if negative then byte '-' :: s else s

end Binary64

end LuaBytecode
