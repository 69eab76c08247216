import LuaBytecode.Numeral
import LuaBytecode.Text.Escape
import LuaBytecode.Text.Quoted
import LuaBytecode.Token

namespace LuaBytecode

inductive LexicalCause where
  | malformedNumber (text : Bytes)
  | endInString
  | unfinishedString
  | escape (cause : EscapeError)
  | invalidLongDelimiter
  | endInLongBracket
  | unknownCharacter (c : UInt8)
  | noMark
  deriving DecidableEq, Repr

def LexicalCause.message : LexicalCause → Bytes
  | .malformedNumber text => "malformed number near '" ++ text ++ [byte '\'']
  | .endInString => "unexpected EOF in string"
  | .unfinishedString => "unfinished string"
  | .escape cause => cause.message
  | .invalidLongDelimiter => "invalid long string delimiter"
  | .endInLongBracket => "unexpected EOF in long bracket"
  | .unknownCharacter c => "unknown character " ++ quoteByte c
  | .noMark => "no mark"

inductive LexemeResult where
  | token (kind : TokenKind) (value : Bytes) (long : Bool)
  | fault (before : Nat) (cause : LexicalCause)
  deriving DecidableEq, Repr

structure Lexeme where
  size : Nat
  result : LexemeResult
  deriving DecidableEq, Repr

namespace Lexeme

/-- The number of bytes of a numeral: hexadecimal digits, points, and exponent letters with an
optional sign. -/
def numeralSize (mark : UInt8 → Bool) : (afterMark : Bool) → (size : Nat) → Bytes → Nat
  | _, size, [] => size
  | afterMark, size, c :: rest =>
    if afterMark && (c = byte '+' || c = byte '-') then numeralSize mark false (size + 1) rest
    else if mark c then numeralSize mark true (size + 1) rest
    else if isHexDigit c || c = byte '.' then numeralSize mark false (size + 1) rest
    else size

def isDecimalMark (c : UInt8) : Bool := c = byte 'E' || c = byte 'e'

def isHexMark (c : UInt8) : Bool := c = byte 'P' || c = byte 'p'

def numeral (text : Bytes) : Lexeme :=
  let size := match Numeral.cutHexMark? text with
    | some rest => numeralSize isHexMark false 2 rest
    | none => numeralSize isDecimalMark false 1 (text.drop 1)
  let value := text.take size
  if (parseNumeral? value).isSome then ⟨size, .token .number value false⟩
  else ⟨size, .fault 0 (.malformedNumber value)⟩

inductive StringEnd where
  | closed
  | lineBreak
  | endOfText
  deriving DecidableEq, Repr

inductive StringMode where
  | plain
  | escaped
  | skippingSpaces
  | inLineBreak
  deriving DecidableEq, Repr

def shortStringEnd (quote : UInt8) : StringMode → (size : Nat) → Bytes → StringEnd × Nat
  | _, size, [] => (.endOfText, size)
  | .inLineBreak, size, _ :: rest => shortStringEnd quote .plain (size + 1) rest
  | .escaped, size, c :: rest =>
    let mode :=
      if c = byte 'z' then .skippingSpaces
      else if isLineBreak c && lineBreakSize c rest = 2 then .inLineBreak
      else .plain
    shortStringEnd quote mode (size + 1) rest
  | mode, size, c :: rest =>
    if mode = .skippingSpaces && isSpace c then
      shortStringEnd quote .skippingSpaces (size + 1) rest
    else if c = quote then (.closed, size + 1)
    else if isLineBreak c then (.lineBreak, size + lineBreakSize c rest)
    else if c = byte '\\' then shortStringEnd quote .escaped (size + 1) rest
    else shortStringEnd quote .plain (size + 1) rest

def shortString (quote : UInt8) (body : Bytes) : Lexeme :=
  match shortStringEnd quote .plain 1 body with
  | (.endOfText, size) => ⟨size, .fault size .endInString⟩
  | (.lineBreak, size) => ⟨size, .fault 0 .unfinishedString⟩
  | (.closed, size) =>
    let raw := body.take (size - 2)
    match unescape raw with
    | .ok _ => ⟨size, .token .string raw false⟩
    | .error (offset, cause) => ⟨size, .fault (offset + 1) (.escape cause)⟩

/-- The level of a long bracket and whether it is one, after its first bracket. -/
def longOpen : (level : Nat) → Bytes → Nat × Bool
  | level, [] => (level, false)
  | level, c :: rest =>
    if c = byte '=' then longOpen (level + 1) rest else (level, decide (c = byte '['))

def longCloses : (level : Nat) → Bytes → Bool
  | _, [] => false
  | 0, c :: _ => c = byte ']'
  | level + 1, c :: rest => c = byte '=' && longCloses level rest

/-- The text up to the closing long bracket with its line breaks made uniform, and the number of
bytes up to and with that bracket. -/
def longBody (level : Nat) : (skip : Nat) → (done : Bytes) → (size : Nat) → Bytes →
    Option Bytes × Nat
  | _, _, size, [] => (none, size)
  | skip + 1, done, size, _ :: rest => longBody level skip done (size + 1) rest
  | 0, done, size, c :: rest =>
    if c = byte ']' && longCloses level rest then (some done.reverse, size + level + 2)
    else if isLineBreak c then
      longBody level (lineBreakSize c rest - 1) (byte '\n' :: done) (size + 1) rest
    else longBody level 0 (c :: done) (size + 1) rest

def leadingBreak : Bytes → Nat
  | [] => 0
  | c :: rest => if isLineBreak c then lineBreakSize c rest else 0

def long (kind : TokenKind) (level opened : Nat) (body : Bytes) : Lexeme :=
  match longBody level (leadingBreak body) [] opened body with
  | (some value, size) => ⟨size, .token kind value true⟩
  | (none, size) => ⟨size, .fault size .endInLongBracket⟩

def shortComment (body : Bytes) : Lexeme :=
  let value := body.takeWhile fun c => !isLineBreak c
  ⟨value.length + 2, .token .comment value false⟩

def sign (c : UInt8) (rest : Bytes) : Lexeme :=
  match signs.find? fun s => Bytes.startsWith (c :: rest) s with
  | some s => ⟨s.length, .token .sign s false⟩
  | none => ⟨1, .fault 0 (.unknownCharacter c)⟩

def startsWithDigit : Bytes → Bool
  | [] => false
  | c :: _ => isDigit c

def plain (c : UInt8) (rest : Bytes) : Lexeme :=
  if isNameStart c then
    let word := c :: rest.takeWhile isNamePart
    ⟨word.length, .token (wordKind word) word false⟩
  else if isDigit c || (c = byte '.' && startsWithDigit rest) then numeral (c :: rest)
  else if c = byte '\'' || c = byte '"' then shortString c rest
  else if c = byte '[' then
    match longOpen 0 rest with
    | (level, true) => long .string level (level + 2) (rest.drop (level + 1))
    | (0, false) => sign c rest
    | (_, false) => ⟨1, .fault 0 .invalidLongDelimiter⟩
  else sign c rest

end Lexeme

end LuaBytecode
