/-! Small floats in which table sizes are written: a number of at most three bits, or `1xxx` in
binary times a power of two, in the form `eeeeexxx`. -/

namespace LuaBytecode.FloatingByte

/-- Halves a number of at least 16 until four bits are left, counting the steps in `e`. -/
def scale (x e : Nat) : Nat × Nat :=
  if 128 ≤ x then scale ((x + 15) / 16) (e + 4)
  else if 16 ≤ x then scale ((x + 1) / 2) (e + 1)
  else (x, e)
termination_by x
decreasing_by all_goals omega

def ofNat (x : Nat) : Nat :=
  if x < 8 then x
  else
    let (m, e) := scale x 0
    (e + 1) * 8 + (m - 8)

def toNat (b : Nat) : Nat := if b < 8 then b else (b % 8 + 8) <<< (b / 8 - 1)

def lowBits (x : Int64) : UInt16 := .ofNat (x.toInt % 0x10000).toNat

def ofInt64 (x : Int64) : UInt16 :=
  if x < 8 then lowBits x
  else if x + 15 < x then lowBits ((40 : Int64) ||| ((x + 15) >>> (4 : Int64) - 8))
  else .ofNat (ofNat x.toInt.toNat)

def toInt64 (b : UInt16) : Int64 := .ofNat (toNat b.toNat)

end LuaBytecode.FloatingByte
