import LuaBytecode.Number.Arithmetic

namespace LuaBytecode

namespace Binary64

def one : Binary64 := ⟨0x3ff0000000000000⟩

def two : Binary64 := ⟨0x4000000000000000⟩

def half : Binary64 := ⟨0x3fe0000000000000⟩

def nan : Binary64 := ofBitsNat (FloatFormat.double.infinityBits + 1)

def extreme (negative infinite : Bool) : Binary64 := ofBitsNat (FloatFormat.double.withSign negative
    (if infinite then FloatFormat.double.infinityBits else 0))

def abs (x : Binary64) : Binary64 := if x.isNegative then x.neg else x

def isOdd (x : Binary64) : Bool :=
  match x.toInt? with
  | some i => i % 2 = 1
  | none => false

end Binary64

/-- The value `significand * 2 ^ exponent`. -/
structure ScaledFloat where
  significand : Binary64
  exponent : Int
  deriving DecidableEq, Repr

namespace ScaledFloat

def one : ScaledFloat := ⟨.one, 0⟩

def ofFloat (x : Binary64) : ScaledFloat :=
  match x.datum with
  | .finite negative mantissa exponent =>
    let length := mantissa.log2 + 1
    ⟨.ofQuotient negative mantissa (1 <<< length), exponent + length⟩
  | _ => ⟨x, 0⟩

def toFloat (x : ScaledFloat) : Binary64 :=
  match x.significand.datum with
  | .finite negative mantissa exponent =>
    let (num, den) := scaleByTwo mantissa (exponent + x.exponent)
    .ofQuotient negative num den
  | _ => x.significand

def mul (x y : ScaledFloat) : ScaledFloat :=
  ⟨x.significand.mul y.significand, x.exponent + y.exponent⟩

def square (x : ScaledFloat) : ScaledFloat :=
  let s := x.significand.mul x.significand
  if s.isBelow .half then ⟨s.add s, 2 * x.exponent - 1⟩ else ⟨s, 2 * x.exponent⟩

def inverse (x : ScaledFloat) : ScaledFloat := ⟨Binary64.one.div x.significand, -x.exponent⟩

def mulPow (x base : ScaledFloat) (n : Nat) : ScaledFloat :=
  if n = 0 then x
  else if 4096 < base.exponent.natAbs then { x with exponent := x.exponent + base.exponent }
  else mulPow (if n % 2 = 1 then x.mul base else x) base.square (n / 2)
  termination_by n

end ScaledFloat

namespace Binary64

def powInt (x : Binary64) (i : Int) : Binary64 :=
  let p := ScaledFloat.one.mulPow (.ofFloat x) i.natAbs
  if i < 0 then p.inverse.toFloat else p.toFloat

def pow (x y : Binary64) : Binary64 :=
  if y = two then x.mul x
  else if y.isZero || x = one then one
  else
    match x.datum, y.datum with
    | .nan .., _ => nan
    | _, .nan .. => nan
    | _, .infinite below =>
      if x.abs = one then one else extreme false (x.abs.isBelow one == below)
    | .infinite negative, .finite below .. => extreme (negative && y.isOdd) (!below)
    | .finite negative mantissa _, .finite below .. =>
      if mantissa = 0 then extreme (negative && y.isOdd) below
      else
        match y.toInt? with
        | some i => x.powInt i
        | none =>
          if y = half then x.sqrt
          else if y = half.neg then one.div x.sqrt
          else ofFloat (Float.pow x.toFloat y.toFloat)

end Binary64

end LuaBytecode
