import LuaBytecode.Bytes

namespace LuaBytecode.Utf8

/-- The low `6 * n` bits of a value in `n` continuation bytes, high bits first. -/
def continuation : Nat → Nat → Bytes
  | 0, _ => []
  | n + 1, x => (0x80 + (x >>> (6 * n)) % 64).toUInt8 :: continuation n x

def encode (x : Nat) : Bytes :=
  if x < 0x80 then [x.toUInt8]
  else if x < 0x800 then (0xc0 + x >>> 6).toUInt8 :: continuation 1 x
  else if x < 0x10000 then (0xe0 + x >>> 12).toUInt8 :: continuation 2 x
  else (0xf0 + x >>> 18).toUInt8 :: continuation 3 x

/-- Fills a buffer from its end. `room` places are left in front of `done`, `x` is what is still to
be written, and `mask` has the bits that the first byte can hold of it. -/
def fill : (room : Nat) → (x mask : UInt32) → (done : Bytes) → Bytes
  | 0, _, _, done => done
  | room + 1, x, mask, done =>
    let done := (0x80 ||| x &&& 0x3f).toUInt8 :: done
    let x := x >>> 6
    let mask := mask >>> 1
    if x ≤ mask then (~~~mask <<< 1 ||| x).toUInt8 :: done else fill room x mask done

/-- UTF-8 with forms of five and six bytes, for numbers of up to 31 bits. -/
def extended (x : UInt32) : Bytes := if x < 0x80 then [x.toUInt8] else fill 8 x 0x3f []

def within (low high b : UInt8) : Bool := low ≤ b && b ≤ high

def isContinuation (b : UInt8) : Bool := within 0x80 0xbf b

/-- The range of the second byte after a given first byte of a three- or four-byte form. -/
def secondRange (a : UInt8) : UInt8 × UInt8 :=
  if a = 0xe0 then (0xa0, 0xbf)
  else if a = 0xed then (0x80, 0x9f)
  else if a = 0xf0 then (0x90, 0xbf)
  else if a = 0xf4 then (0x80, 0x8f)
  else (0x80, 0xbf)

def payload (b : UInt8) : Nat := b.toNat % 64

def decode? : Bytes → Option (Nat × Nat)
  | [] => none
  | a :: rest =>
    let second := fun b => within (secondRange a).1 (secondRange a).2 b
    if a < 0x80 then some (a.toNat, 1)
    else if within 0xc2 0xdf a then
      match rest with
      | b :: _ => if isContinuation b then some (a.toNat % 32 * 64 + payload b, 2) else none
      | [] => none
    else if within 0xe0 0xef a then
      match rest with
      | b :: c :: _ =>
        if second b && isContinuation c then
          some ((a.toNat % 16 * 64 + payload b) * 64 + payload c, 3)
        else none
      | _ => none
    else if within 0xf0 0xf4 a then
      match rest with
      | b :: c :: d :: _ =>
        if second b && isContinuation c && isContinuation d then
          some (((a.toNat % 8 * 64 + payload b) * 64 + payload c) * 64 + payload d, 4)
        else none
      | _ => none
    else none

def validFrom : (skip : Nat) → Bytes → Bool
  | _, [] => true
  | skip + 1, _ :: rest => validFrom skip rest
  | 0, c :: rest =>
    match decode? (c :: rest) with
    | none => false
    | some (_, size) => validFrom (size - 1) rest

def isValid (s : Bytes) : Bool := validFrom 0 s

end LuaBytecode.Utf8
