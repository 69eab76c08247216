import LuaBytecode.Number.Binary

namespace LuaBytecode

namespace Integer

def floorDiv (a b : Int64) : Int64 :=
  if b = -1 then -a
  else
    let q := a / b
    if a ^^^ b < 0 && a % b != 0 then q - 1 else q

def floorMod (a b : Int64) : Int64 :=
  if b = -1 then 0
  else
    let r := a % b
    if r != 0 && r ^^^ b < 0 then r + b else r

def shiftLeft (a n : Int64) : Int64 :=
  if n ≤ -64 || 64 ≤ n then 0
  else if n < 0 then (a.toUInt64 >>> (-n).toUInt64).toInt64
  else (a.toUInt64 <<< n.toUInt64).toInt64

def shiftRight (a n : Int64) : Int64 :=
  if n = Int64.minValue then 0 else shiftLeft a (-n)

end Integer

namespace Binary64

def toFloat (x : Binary64) : Float := Float.ofBits x.bits

def ofFloat (f : Float) : Binary64 := ⟨f.toBits⟩

def add (x y : Binary64) : Binary64 := ofFloat (x.toFloat + y.toFloat)

def sub (x y : Binary64) : Binary64 := ofFloat (x.toFloat - y.toFloat)

def mul (x y : Binary64) : Binary64 := ofFloat (x.toFloat * y.toFloat)

def div (x y : Binary64) : Binary64 := ofFloat (x.toFloat / y.toFloat)

def neg (x : Binary64) : Binary64 := ⟨x.bits ^^^ 0x8000000000000000⟩

def sqrt (x : Binary64) : Binary64 := ofFloat x.toFloat.sqrt

def isBelow (x y : Binary64) : Bool := x.toFloat < y.toFloat

def isNegative (x : Binary64) : Bool := x.toFloat < 0

def floor (x : Binary64) : Binary64 :=
  match x.datum with
  | .finite negative mantissa exponent =>
    let (num, den) := scaleByTwo mantissa exponent
    if num % den = 0 then x
    else if negative then ofQuotient true (num / den + 1) 1
    else ofQuotient false (num / den) 1
  | _ => x

def remainder (x y : Binary64) : Binary64 :=
  match x.datum, y.datum with
  | .finite negative m e, .finite _ n f =>
    let low := min e f
    let r := (m <<< (e - low).toNat) % (n <<< (f - low).toNat)
    let (num, den) := scaleByTwo r low
    if n = 0 then ofBitsNat (FloatFormat.double.infinityBits + 1) else ofQuotient negative num den
  | .finite .., .infinite _ => x
  | _, _ => ofBitsNat (FloatFormat.double.infinityBits + 1)

def floorDiv (x y : Binary64) : Binary64 := (x.div y).floor

def floorMod (x y : Binary64) : Binary64 :=
  let r := x.remainder y
  if (r.mul y).isNegative then r.add y else r

end Binary64

end LuaBytecode
