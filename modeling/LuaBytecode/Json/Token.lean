import LuaBytecode.Json
import LuaBytecode.Text.Utf8

namespace LuaBytecode

inductive JsonToken where
  | openObject
  | closeObject
  | openArray
  | closeArray
  | colon
  | comma
  | scalar (v : JsonValue)
  deriving Repr

namespace JsonToken

def escaped? (letter : UInt8) : Option UInt8 :=
  if letter = byte '"' || letter = byte '\\' || letter = byte '/' then some letter
  else if letter = byte 'b' then some 0x08
  else if letter = byte 'f' then some 0x0c
  else if letter = byte 'n' then some 0x0a
  else if letter = byte 'r' then some 0x0d
  else if letter = byte 't' then some 0x09
  else none

def unit? (a b c d : UInt8) : Option Nat := do
  let a ← hexValue? a
  let b ← hexValue? b
  let c ← hexValue? c
  let d ← hexValue? d
  return ((a * 16 + b) * 16 + c) * 16 + d

def isHighSurrogate (x : Nat) : Bool := 0xd800 ≤ x && x < 0xdc00

def isLowSurrogate (x : Nat) : Bool := 0xdc00 ≤ x && x < 0xe000

def unescapeFrom (done : Bytes) : Bytes → Option Bytes
  | [] => some done.reverse
  | c :: rest =>
    if c < 0x20 then none
    else if c ≠ byte '\\' then unescapeFrom (c :: done) rest
    else
      match rest with
      | [] => none
      | letter :: rest =>
        match escaped? letter with
        | some c => unescapeFrom (c :: done) rest
        | none =>
          if letter ≠ byte 'u' then none
          else
            match rest with
            | a :: b :: c :: d :: rest =>
              match unit? a b c d with
              | none => none
              | some x =>
                if isLowSurrogate x then none
                else if isHighSurrogate x then
                  match rest with
                  | p :: q :: a :: b :: c :: d :: rest =>
                    match unit? a b c d with
                    | none => none
                    | some y =>
                      if p = byte '\\' && q = byte 'u' && isLowSurrogate y then
                        let z := 0x10000 + (x - 0xd800) * 0x400 + (y - 0xdc00)
                        unescapeFrom ((Utf8.encode z).reverse ++ done) rest
                      else none
                  | _ => none
                else unescapeFrom ((Utf8.encode x).reverse ++ done) rest
            | _ => none

def string? (raw : Bytes) : Option JsonValue :=
  if Utf8.isValid raw then (unescapeFrom [] raw).map .string else none

def digits? (s : Bytes) : Option Bytes :=
  match s with
  | c :: rest => if isDigit c then some (rest.dropWhile isDigit) else none
  | [] => none

def whole? (s : Bytes) : Option Bytes :=
  match Bytes.cut? [byte '0'] s with
  | some rest => some rest
  | none => digits? s

def fraction? (s : Bytes) : Option Bytes :=
  match Bytes.cut? [byte '.'] s with
  | some rest => digits? rest
  | none => some s

def exponent? (s : Bytes) : Option Bytes :=
  match s with
  | c :: rest =>
    if c = byte 'e' || c = byte 'E' then
      match rest with
      | sign :: rest' =>
        digits? (if sign = byte '+' || sign = byte '-' then rest' else rest)
      | [] => none
    else some s
  | [] => some []

def isNumber (s : Bytes) : Bool :=
  let unsigned := (Bytes.cut? [byte '-'] s).getD s
  (do exponent? (← fraction? (← whole? unsigned))) == some []

def word? (s : Bytes) : Option JsonValue :=
  if s = "null" then some .null
  else if s = "true" then some (.bool true)
  else if s = "false" then some (.bool false)
  else if isNumber s then some (.number s)
  else none

def isWordByte (c : UInt8) : Bool :=
  isDigit c || isLetter c || c = byte '-' || c = byte '+' || c = byte '.'

def isBlank (c : UInt8) : Bool := c = 0x20 || c = 0x09 || c = 0x0d || c = 0x0a

def mark? (c : UInt8) : Option JsonToken :=
  if c = byte '\x7b' then some .openObject
  else if c = byte '\x7d' then some .closeObject
  else if c = byte '[' then some .openArray
  else if c = byte ']' then some .closeArray
  else if c = byte ':' then some .colon
  else if c = byte ',' then some .comma
  else none

inductive Mode where
  | between
  | slash
  | lineComment
  | blockComment (star : Bool)
  | string (text : Bytes)
  | escape (text : Bytes)
  | word (text : Bytes)
  deriving Repr

structure Scan where
  mode : Mode
  tokens : List JsonToken
  deriving Repr

namespace Scan

def push (s : Scan) (v? : Option JsonValue) : Option Scan :=
  v?.map fun v => ⟨.between, .scalar v :: s.tokens⟩

def start (s : Scan) (c : UInt8) : Option Scan :=
  if isBlank c then some s
  else if c = byte '/' then some { s with mode := .slash }
  else if c = byte '"' then some { s with mode := .string [] }
  else if isWordByte c then some { s with mode := .word [c] }
  else (mark? c).map fun t => { s with tokens := t :: s.tokens }

def next (s : Scan) (c : UInt8) : Option Scan :=
  match s.mode with
  | .between => s.start c
  | .slash =>
    if c = byte '/' then some { s with mode := .lineComment }
    else if c = byte '*' then some { s with mode := .blockComment false }
    else none
  | .lineComment => some (if c = byte '\n' then { s with mode := .between } else s)
  | .blockComment star =>
    if star && c = byte '/' then some { s with mode := .between }
    else some { s with mode := .blockComment (c = byte '*') }
  | .string text =>
    if c = byte '"' then s.push (string? text.reverse)
    else if c = byte '\\' then some { s with mode := .escape (c :: text) }
    else some { s with mode := .string (c :: text) }
  | .escape text => some { s with mode := .string (c :: text) }
  | .word text =>
    if isWordByte c then some { s with mode := .word (c :: text) }
    else do (← s.push (word? text.reverse)).start c

def finish (s : Scan) : Option (List JsonToken) :=
  match s.mode with
  | .between => some s.tokens.reverse
  | .word text => (s.push (word? text.reverse)).map (·.tokens.reverse)
  | _ => none

end Scan

def scan? (s : Bytes) : Option (List JsonToken) := do
  (← s.foldlM Scan.next ⟨.between, []⟩).finish

end JsonToken

end LuaBytecode
