namespace LuaBytecode

/-- A binary interchange format, by the widths of its two fields below the sign bit. -/
structure FloatFormat where
  fractionBits : Nat
  exponentBits : Nat
  deriving DecidableEq, Repr

def FloatFormat.single : FloatFormat := ⟨23, 8⟩

def FloatFormat.double : FloatFormat := ⟨52, 11⟩

inductive FloatDatum where
  | nan (negative : Bool) (fraction : Nat)
  | infinite (negative : Bool)
  | finite (negative : Bool) (mantissa : Nat) (exponent : Int)
  deriving DecidableEq, Repr

def roundDiv (num den : Nat) : Nat :=
  let q := num / den
  let twice := 2 * (num % den)
  if den < twice ∨ (twice = den ∧ q % 2 = 1) then q + 1 else q

def scaleByTwo (mantissa : Nat) : (exponent : Int) → Nat × Nat
  | .ofNat e => (mantissa <<< e, 1)
  | .negSucc e => (mantissa, 1 <<< (e + 1))

def isBelowPower (num den : Nat) : (exponent : Int) → Bool
  | .ofNat e => num < den <<< e
  | .negSucc e => num <<< (e + 1) < den

def roundAt (num den : Nat) : (exponent : Int) → Nat
  | .ofNat e => roundDiv num (den <<< e)
  | .negSucc e => roundDiv (num <<< (e + 1)) den

namespace FloatFormat

def infinityBits (f : FloatFormat) : Nat := (1 <<< f.exponentBits - 1) <<< f.fractionBits

def signBit (f : FloatFormat) : Nat := 1 <<< (f.fractionBits + f.exponentBits)

def minExponent (f : FloatFormat) : Int := 2 - (1 <<< (f.exponentBits - 1) : Nat) - f.fractionBits

def withSign (f : FloatFormat) (negative : Bool) (magnitude : Nat) : Nat :=
  if negative then f.signBit + magnitude else magnitude

def decode (f : FloatFormat) (bits : Nat) : FloatDatum :=
  let negative := bits / f.signBit % 2 = 1
  let exponent := (bits >>> f.fractionBits) % (1 <<< f.exponentBits)
  let fraction := bits % (1 <<< f.fractionBits)
  if exponent = 1 <<< f.exponentBits - 1 then
    if fraction = 0 then .infinite negative else .nan negative fraction
  else if exponent = 0 then .finite negative fraction f.minExponent
  else .finite negative (1 <<< f.fractionBits + fraction) (f.minExponent + (exponent - 1))

/-- The greatest `e` with `2 ^ e ≤ num / den`, for a positive quotient. -/
def binaryExponent (num den : Nat) : Int :=
  let guess : Int := (Nat.log2 num : Int) - Nat.log2 den
  if isBelowPower num den guess then guess - 1 else guess

/-- The pattern of the magnitude nearest to `num / den`, infinity if that is too large. -/
def nearest (f : FloatFormat) (num den : Nat) : Nat :=
  if num = 0 then 0
  else
    let exponent := max (binaryExponent num den - f.fractionBits) f.minExponent
    let mantissa := roundAt num den exponent
    min f.infinityBits ((exponent - f.minExponent).toNat <<< f.fractionBits + mantissa)

def ofQuotient (f : FloatFormat) (negative : Bool) (num den : Nat) : Nat :=
  f.withSign negative (f.nearest num den)

def ofInt (f : FloatFormat) (i : Int) : Nat := f.ofQuotient (decide (i < 0)) i.natAbs 1

def convert (source target : FloatFormat) (bits : Nat) : Nat :=
  match source.decode bits with
  | .infinite negative => target.withSign negative target.infinityBits
  | .nan negative fraction =>
    let kept := fraction <<< target.fractionBits >>> source.fractionBits
    let quiet := 1 <<< (target.fractionBits - 1)
    target.withSign negative (target.infinityBits + quiet + kept % quiet)
  | .finite negative mantissa exponent =>
    let (num, den) := scaleByTwo mantissa exponent
    target.ofQuotient negative num den

def isSignaling (f : FloatFormat) (bits : Nat) : Bool :=
  match f.decode bits with
  | .nan _ fraction => decide (fraction < 1 <<< (f.fractionBits - 1))
  | _ => false

end FloatFormat

/-- A 64-bit float, held as its bit pattern: equality is that of bits. -/
structure Binary64 where
  bits : UInt64
  deriving DecidableEq, Repr, Hashable

namespace Binary64

def datum (x : Binary64) : FloatDatum := FloatFormat.double.decode x.bits.toNat

def ofBitsNat (n : Nat) : Binary64 := ⟨n.toUInt64⟩

def ofQuotient (negative : Bool) (num den : Nat) : Binary64 :=
  ofBitsNat (FloatFormat.double.ofQuotient negative num den)

def ofInt (i : Int) : Binary64 := ofBitsNat (FloatFormat.double.ofInt i)

def isNaN (x : Binary64) : Bool :=
  match x.datum with
  | .nan .. => true
  | _ => false

def isZero (x : Binary64) : Bool :=
  match x.datum with
  | .finite _ mantissa _ => mantissa = 0
  | _ => false

def toInt? (x : Binary64) : Option Int :=
  match x.datum with
  | .finite negative mantissa exponent =>
    let (num, den) := scaleByTwo mantissa exponent
    if num % den = 0 then
      let n : Int := num / den
      some (if negative then -n else n)
    else none
  | _ => none

def toSingle (x : Binary64) : UInt32 := (FloatFormat.double.convert .single x.bits.toNat).toUInt32

/-- Widens a 32-bit pattern, unless it is a signaling NaN: that would not narrow to itself. -/
def ofSingle? (bits : UInt32) : Option Binary64 :=
  if FloatFormat.single.isSignaling bits.toNat then none
  else some (ofBitsNat (FloatFormat.single.convert .double bits.toNat))

end Binary64

end LuaBytecode
