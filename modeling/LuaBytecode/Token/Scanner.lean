import LuaBytecode.Token.Lexeme

namespace LuaBytecode

structure LexicalError where
  pos : Position
  cause : LexicalCause
  deriving DecidableEq, Repr

def LexicalError.message (e : LexicalError) : Bytes := e.pos.text ++ ": " ++ e.cause.message

inductive Scanned where
  | token (t : Token)
  | fault (span : Span) (error : LexicalError)
  deriving DecidableEq, Repr

structure Cursor where
  rest : Bytes
  pos : Position
  deriving DecidableEq, Repr

namespace Cursor

def ofSource (src : Bytes) : Cursor := ⟨src, .first⟩

def skip (c : Cursor) (n : Nat) : Cursor := ⟨c.rest.drop n, c.pos.advance (c.rest.take n)⟩

def skipSpaces (c : Cursor) : Cursor :=
  ⟨c.rest.dropWhile isSpace, c.pos.advance (c.rest.takeWhile isSpace)⟩

/-- What a lexeme that starts here is, and where it ends. -/
def element (start : Cursor) (lexeme : Lexeme) : Scanned × Cursor :=
  let after := start.skip lexeme.size
  let span : Span := ⟨start.pos, after.pos⟩
  match lexeme.result with
  | .token kind value long => (.token ⟨kind, span, value, long⟩, after)
  | .fault before cause => (.fault span ⟨(start.skip before).pos, cause⟩, after)

end Cursor

structure Scanner where
  cursor : Cursor
  marks : List Cursor := []
  deriving DecidableEq, Repr

namespace Scanner

def ofSource (src : Bytes) : Scanner := { cursor := .ofSource src }

def skip (s : Scanner) (n : Nat) : Scanner := { s with cursor := s.cursor.skip n }

def mark (s : Scanner) : Scanner := { s with marks := s.cursor :: s.marks }

def restore? (s : Scanner) : Option Scanner :=
  match s.marks with
  | [] => none
  | c :: marks => some ⟨c, marks⟩

def release? (s : Scanner) : Option Scanner :=
  match s.marks with
  | [] => none
  | _ :: marks => some { s with marks }

/-- The level of the long bracket that opens here and the scanner behind it, or the scanner as it
was. -/
def openBracket? (s : Scanner) : Option (Option Nat × Scanner) :=
  match s.cursor.rest with
  | c :: rest =>
    if c = byte '[' then
      let inside := s.mark.skip 1
      match Lexeme.longOpen 0 rest with
      | (level, true) => (inside.skip (level + 1)).release?.map (some level, ·)
      | (_, false) => inside.restore?.map (none, ·)
    else some (none, s)
  | [] => some (none, s)

def comment (start : Cursor) (s : Scanner) : Scanned × Scanner :=
  match s.openBracket? with
  | some (level?, s) =>
    let lexeme := match level? with
      | some level => Lexeme.long .comment level (level + 4) s.cursor.rest
      | none => Lexeme.shortComment s.cursor.rest
    let (t, cursor) := start.element lexeme
    (t, { s with cursor })
  | none => (.fault ⟨start.pos, s.cursor.pos⟩ ⟨s.cursor.pos, .noMark⟩, s)

def next (s : Scanner) : Scanned × Scanner :=
  let start := s.cursor.skipSpaces
  match start.rest with
  | [] => (.token { kind := .eof, span := .at start.pos }, { s with cursor := start })
  | b :: rest =>
    if b = byte '-' && Bytes.startsWith rest [byte '-'] then
      comment start { s with cursor := start.skip 2 }
    else
      let (t, cursor) := start.element (Lexeme.plain b rest)
      (t, { s with cursor })

def peek (s : Scanner) : Scanned := s.mark.next.1

def afterPeek? (s : Scanner) : Option Scanner := s.mark.next.2.restore?

def elementsFrom : (fuel : Nat) → (done : List Scanned) → Scanner → List Scanned
  | 0, done, _ => done.reverse
  | fuel + 1, done, s =>
    let (t, after) := s.next
    match t with
    | .token token =>
      if token.kind = .eof then (t :: done).reverse else elementsFrom fuel (t :: done) after
    | .fault .. => elementsFrom fuel (t :: done) after

end Scanner

def elements (src : Bytes) : List Scanned :=
  Scanner.elementsFrom (src.length + 1) [] (.ofSource src)

namespace Lexeme

/-- A comment, with its long bracket found by looking ahead instead of going back to a mark. -/
def comment (body : Bytes) : Lexeme :=
  match body with
  | c :: rest =>
    if c = byte '[' then
      match longOpen 0 rest with
      | (level, true) => long .comment level (level + 4) (rest.drop (level + 1))
      | (_, false) => shortComment body
    else shortComment body
  | [] => shortComment body

def read (c : UInt8) (rest : Bytes) : Lexeme :=
  if c = byte '-' && Bytes.startsWith rest [byte '-'] then comment (rest.drop 1) else plain c rest

end Lexeme

namespace Cursor

theorem element_snd (start : Cursor) (lexeme : Lexeme) :
    (start.element lexeme).2 = start.skip lexeme.size := by
  unfold element
  dsimp only
  split <;> rfl

def next (c : Cursor) : Scanned × Cursor :=
  let start := c.skipSpaces
  match start.rest with
  | [] => (.token { kind := .eof, span := .at start.pos }, start)
  | b :: rest => start.element (Lexeme.read b rest)

theorem skip_append (a b : Bytes) (p : Position) :
    skip ⟨a ++ b, p⟩ a.length = ⟨b, p.advance a⟩ := by
  simp [skip]

section

variable {b : UInt8} {rest value : Bytes} {p : Position} {size before : Nat} {kind : TokenKind}
  {long : Bool} {cause : LexicalCause}

theorem skipSpaces_of_not_space (h : isSpace b = false) :
    skipSpaces ⟨b :: rest, p⟩ = ⟨b :: rest, p⟩ := by
  simp [skipSpaces, h, Position.advance, Position.advanceFrom]

theorem next_eq_token (hb : isSpace b = false)
    (h : Lexeme.read b rest = ⟨size, .token kind value long⟩) :
    next ⟨b :: rest, p⟩ =
      let after := skip ⟨b :: rest, p⟩ size
      (.token ⟨kind, ⟨p, after.pos⟩, value, long⟩, after) := by
  simp only [next, skipSpaces_of_not_space hb, h, element]

theorem next_eq_fault (hb : isSpace b = false)
    (h : Lexeme.read b rest = ⟨size, .fault before cause⟩) :
    next ⟨b :: rest, p⟩ =
      let after := skip ⟨b :: rest, p⟩ size
      (.fault ⟨p, after.pos⟩ ⟨(skip ⟨b :: rest, p⟩ before).pos, cause⟩, after) := by
  simp only [next, skipSpaces_of_not_space hb, h, element]

end

end Cursor

namespace Scanner

theorem comment_eq (start : Cursor) (s : Scanner) : s.comment start =
    let (t, cursor) := start.element (Lexeme.comment s.cursor.rest)
    (t, { s with cursor }) := by
  unfold comment openBracket? Lexeme.comment
  cases hrest : s.cursor.rest with
  | nil => simp only [hrest]
  | cons c rest =>
    by_cases hc : c = byte '['
    · obtain ⟨level, isLong, hopen⟩ : ∃ level isLong, Lexeme.longOpen 0 rest = (level, isLong) :=
        ⟨_, _, rfl⟩
      cases isLong <;> simp [hc, hopen, mark, skip, Cursor.skip, release?, restore?, hrest]
    · simp only [if_neg hc, hrest]

/-- The marks that a comment sets are gone behind it, and there always is one to go back to. -/
theorem next_eq (s : Scanner) :
    s.next = (s.cursor.next.1, { s with cursor := s.cursor.next.2 }) := by
  unfold next Cursor.next
  dsimp only
  split
  · rfl
  · next b rest hrest =>
    unfold Lexeme.read
    split
    · rw [comment_eq]
      simp [Cursor.skip, hrest]
    · rfl

theorem afterPeek?_eq (s : Scanner) : s.afterPeek? = some s := by
  rw [afterPeek?, next_eq]
  rfl

end Scanner

end LuaBytecode
