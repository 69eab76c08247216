import LuaBytecode.Bytes
import LuaBytecode.Number.Binary

/-! Numbers in a fixed number of bytes, in either byte order, and an append-only buffer for them. -/

namespace LuaBytecode

inductive ByteOrder where
  | little
  | big
  deriving DecidableEq, Repr

namespace ByteOrder

def lowBytes : (count : Nat) → Nat → Bytes
  | 0, _ => []
  | count + 1, n => (n % 256).toUInt8 :: lowBytes count (n / 256)

def ofLowBytes : Bytes → Nat
  | [] => 0
  | b :: rest => b.toNat + 256 * ofLowBytes rest

theorem length_lowBytes (count n : Nat) : (lowBytes count n).length = count := by
  induction count generalizing n with
  | zero => rfl
  | succ count ih => simp [lowBytes, ih]

theorem ofLowBytes_lowBytes (count n : Nat) :
    ofLowBytes (lowBytes count n) = n % Nat.pow 256 count := by
  induction count generalizing n with
  | zero => exact (Nat.mod_one n).symm
  | succ count ih =>
    have h : n % (256 * Nat.pow 256 count) = n % 256 + 256 * (n / 256 % Nat.pow 256 count) :=
      Nat.mod_mul
    have step : Nat.pow 256 (count + 1) = 256 * Nat.pow 256 count := Nat.mul_comm ..
    rw [step, h, lowBytes, ofLowBytes, ih]
    simp

def encode (order : ByteOrder) (count n : Nat) : Bytes :=
  match order with
  | .little => lowBytes count n
  | .big => (lowBytes count n).reverse

def decode (order : ByteOrder) (b : Bytes) : Nat :=
  match order with
  | .little => ofLowBytes b
  | .big => ofLowBytes b.reverse

theorem decode_encode (order : ByteOrder) (count n : Nat) :
    order.decode (order.encode count n) = n % Nat.pow 256 count := by
  cases order
  · exact ofLowBytes_lowBytes count n
  · rw [decode, encode, List.reverse_reverse, ofLowBytes_lowBytes]

end ByteOrder

inductive Width where
  | four
  | eight
  deriving DecidableEq, Repr

namespace Width

def size : Width → Nat
  | .four => 4
  | .eight => 8

def ofSize? (size : Int) : Option Width :=
  if size = 4 then some .four else if size = 8 then some .eight else none

def words : Width → Nat
  | .four => 0x100000000
  | .eight => 0x10000000000000000

theorem words_eq (w : Width) : w.words = Nat.pow 256 w.size := by
  cases w <;> rfl

def signed (w : Width) (n : Nat) : Int := Int.bmod n w.words

def unsigned (w : Width) (i : Int) : Nat := (i % w.words).toNat

def holds (w : Width) (i : Int) : Bool :=
  -((w.words / 2 : Nat) : Int) ≤ i && i < ((w.words / 2 : Nat) : Int)

end Width

inductive WriteFault where
  | doesNotFit (i : Int) (w : Width)
  | unsupportedIntegerSize (size : Int)
  | unsupportedFloatSize (size : Int)
  deriving DecidableEq, Repr

def WriteFault.message : WriteFault → Bytes
  | .doesNotFit i w =>
    .ofInt i ++ " does not fit in " ++ .ofNat w.size ++ " bytes"
  | .unsupportedIntegerSize size => "unsupported integer size " ++ .ofInt size
  | .unsupportedFloatSize size => "unsupported float size " ++ .ofInt size

namespace ByteOrder

def word (order : ByteOrder) (w : Width) (n : Nat) : Bytes := order.encode w.size n

def signedWord (order : ByteOrder) (w : Width) (i : Int) : Except WriteFault Bytes :=
  if w.holds i then .ok (order.word w (w.unsigned i)) else .error (.doesNotFit i w)

def float (order : ByteOrder) (w : Width) (x : Binary64) : Bytes :=
  match w with
  | .four => order.word .four x.toSingle.toNat
  | .eight => order.word .eight x.bits.toNat

end ByteOrder

structure ByteBuffer where
  content : Bytes
  order : Option ByteOrder
  deriving DecidableEq, Repr

namespace ByteBuffer

def byteOrder (b : ByteBuffer) : ByteOrder := b.order.getD .little

def append (b : ByteBuffer) (s : Bytes) : ByteBuffer := { b with content := b.content ++ s }

def writeUInt (b : ByteBuffer) (size : Int) (n : Nat) : Except WriteFault ByteBuffer :=
  match Width.ofSize? size with
  | some w => .ok (b.append (b.byteOrder.word w n))
  | none => .error (.unsupportedIntegerSize size)

def writeInt (b : ByteBuffer) (size i : Int) : Except WriteFault ByteBuffer :=
  match Width.ofSize? size with
  | some w => (b.byteOrder.signedWord w i).map b.append
  | none => .error (.unsupportedIntegerSize size)

def writeFloat (b : ByteBuffer) (size : Int) (x : Binary64) : Except WriteFault ByteBuffer :=
  match Width.ofSize? size with
  | some w => .ok (b.append (b.byteOrder.float w x))
  | none => .error (.unsupportedFloatSize size)

def offer (b : ByteBuffer) (room : Nat) : Bytes × Bool :=
  (b.content.take room, decide (b.content.length ≤ room))

end ByteBuffer

end LuaBytecode
