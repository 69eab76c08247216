import LuaBytecode.Bytes

namespace LuaBytecode

structure Position where
  line : Int
  column : Int
  deriving DecidableEq, Repr, Inhabited

namespace Position

def first : Position := ⟨1, 1⟩

def isValid (p : Position) : Bool := decide (0 < p.line) && decide (0 ≤ p.column)

def text (p : Position) : Bytes :=
  if !p.isValid then "<invalid position>"
  else if p.column = 0 then .ofInt p.line
  else Bytes.ofInt p.line ++ byte ':' :: Bytes.ofInt p.column

def checked? (line column : Int) : Option Position :=
  let p : Position := ⟨line, column⟩
  if p.isValid then some p else none

def nextLine (p : Position) : Position := ⟨p.line + 1, 1⟩

def nextColumn (p : Position) (b : UInt8) : Position :=
  if b = byte '\t' then { p with column := (p.column + 8) / 8 * 8 }
  else { p with column := p.column + 1 }

end Position

def isLineBreak (b : UInt8) : Bool := b = byte '\n' || b = byte '\r'

theorem isLineBreak_iff {b : UInt8} : isLineBreak b = true ↔ b = byte '\n' ∨ b = byte '\r' := by
  simp [isLineBreak]

theorem isLineBreak_of_class {f : UInt8 → Bool} (hn : f (byte '\n') = false)
    (hr : f (byte '\r') = false) {b : UInt8} (h : f b = true) : isLineBreak b = false := by
  rw [Bool.eq_false_iff, Ne, isLineBreak_iff]
  rintro (rfl | rfl)
  · exact Bool.false_ne_true (hn.symm.trans h)
  · exact Bool.false_ne_true (hr.symm.trans h)

/-- How many bytes belong to the line break that starts with `b` and goes on with `rest`. -/
def lineBreakSize (b : UInt8) : Bytes → Nat
  | [] => 1
  | c :: _ => if isLineBreak c && c != b then 2 else 1

namespace Position

def advanceFrom : (skip : Nat) → Position → Bytes → Position
  | _, p, [] => p
  | skip + 1, p, _ :: rest => advanceFrom skip p rest
  | 0, p, b :: rest =>
    if isLineBreak b then advanceFrom (lineBreakSize b rest - 1) p.nextLine rest
    else advanceFrom 0 (p.nextColumn b) rest

def advance (p : Position) (text : Bytes) : Position := advanceFrom 0 p text

end Position

structure Span where
  start : Position
  stop : Position
  deriving DecidableEq, Repr, Inhabited

def Span.text (s : Span) : Bytes := s.start.text

def Span.at (p : Position) : Span := ⟨p, p⟩

end LuaBytecode
