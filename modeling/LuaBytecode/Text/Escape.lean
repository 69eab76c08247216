import LuaBytecode.Position
import LuaBytecode.Text.CharClass
import LuaBytecode.Text.Utf8

namespace LuaBytecode

inductive EscapeError where
  | unfinished
  | hexDigitExpected
  | missingOpenBrace
  | missingCloseBrace
  | valueTooLarge
  | unknown
  | decimalTooLarge
  deriving DecidableEq, Repr

def EscapeError.message : EscapeError → Bytes
  | .unfinished => "unfinished string"
  | .hexDigitExpected => "hexadecimal digit expected"
  | .missingOpenBrace => "missing '\x7b' in \\u\x7bxxxx\x7d"
  | .missingCloseBrace => "missing '\x7d' in \\u\x7bxxxx\x7d"
  | .valueTooLarge => "UTF-8 value too large"
  | .unknown => "invalid escape sequence"
  | .decimalTooLarge => "decimal escape too large"

namespace Escape

def single? (c : UInt8) : Option UInt8 :=
  if c = byte 'a' then some 0x07
  else if c = byte 'b' then some 0x08
  else if c = byte 'f' then some 0x0c
  else if c = byte 'n' then some 0x0a
  else if c = byte 'r' then some 0x0d
  else if c = byte 't' then some 0x09
  else if c = byte 'v' then some 0x0b
  else if c = byte '\\' || c = byte '"' || c = byte '\'' then some c
  else none

def codePoint : (value : UInt32) → (digits : Nat) → Bytes → Except EscapeError (UInt32 × Nat)
  | _, _, [] => .error .missingCloseBrace
  | value, digits, c :: rest =>
    if c = byte '\x7d' then
      if digits = 0 then .error .missingCloseBrace else .ok (value, digits)
    else
      match hexValue? c with
      | none => .error .hexDigitExpected
      | some d =>
        if (0x7fffffff : UInt32) >>> 4 < value then .error .valueTooLarge
        else codePoint (value <<< 4 ||| d.toUInt32) (digits + 1) rest

def decimalDigits (text : Bytes) : Bytes := (text.take 3).takeWhile isDigit

def decimalValue (digits : Bytes) : Nat := digits.foldl (fun n c => n * 10 + digitValue c) 0

def read : Bytes → Except EscapeError (Bytes × Nat)
  | [] => .error .unfinished
  | c :: rest =>
    match single? c with
    | some b => .ok ([b], 1)
    | none =>
      if isLineBreak c then .ok ([byte '\n'], lineBreakSize c rest)
      else if c = byte 'z' then .ok ([], 1 + (rest.takeWhile isSpace).length)
      else if c = byte 'x' then
        match rest with
        | h :: l :: _ =>
          match hexValue? h, hexValue? l with
          | some h, some l => .ok ([(h * 16 + l).toUInt8], 3)
          | _, _ => .error .hexDigitExpected
        | _ => .error .hexDigitExpected
      else if c = byte 'u' then
        match rest with
        | b :: rest =>
          if b = byte '\x7b' then
            match codePoint 0 0 rest with
            | .ok (value, digits) => .ok (Utf8.extended value, digits + 3)
            | .error e => .error e
          else .error .missingOpenBrace
        | [] => .error .missingOpenBrace
      else if isDigit c then
        let digits := decimalDigits (c :: rest)
        let value := decimalValue digits
        if 0xff < value then .error .decimalTooLarge
        else .ok ([value.toUInt8], digits.length)
      else .error .unknown

def decodeFrom : (skip offset : Nat) → (done : Bytes) → Bytes → Except (Nat × EscapeError) Bytes
  | _, _, done, [] => .ok done.reverse
  | skip + 1, offset, done, _ :: rest => decodeFrom skip (offset + 1) done rest
  | 0, offset, done, c :: rest =>
    if c = byte '\\' then
      match read rest with
      | .error e => .error (offset, e)
      | .ok (out, size) => decodeFrom size (offset + 1) (out.reverse ++ done) rest
    else decodeFrom 0 (offset + 1) (c :: done) rest

end Escape

def unescape (raw : Bytes) : Except (Nat × EscapeError) Bytes := Escape.decodeFrom 0 0 [] raw

end LuaBytecode
