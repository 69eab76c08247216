import LuaBytecode.Text.CharClass
import LuaBytecode.Text.Utf8

namespace LuaBytecode

namespace Quoted

def controlLetter? (c : UInt8) : Option Char :=
  if c = 0x07 then some 'a'
  else if c = 0x08 then some 'b'
  else if c = 0x0c then some 'f'
  else if c = 0x0a then some 'n'
  else if c = 0x0d then some 'r'
  else if c = 0x09 then some 't'
  else if c = 0x0b then some 'v'
  else none

/-- A byte with a spelling of its own: itself, or one escaped letter. -/
def short? (c : UInt8) : Option Bytes :=
  if c = byte '\\' || c = byte '"' then some [byte '\\', c]
  else if isPrintable c then some [c]
  else (controlLetter? c).map fun letter => [byte '\\', byte letter]

def codePointEscape (x : Nat) : Bytes := "\\u\x7b" ++ Bytes.hexNat x ++ [byte '\x7d']

def hexEscape (c : UInt8) : Bytes := "\\x" ++ Bytes.hex c

def decimalEscape (c : UInt8) : Bytes := byte '\\' :: Bytes.zeroPad 3 (Bytes.ofNat c.toNat)

def spellFrom : (skip : Nat) → (done : Bytes) → Bytes → Bytes
  | _, done, [] => done.reverse
  | skip + 1, done, _ :: rest => spellFrom skip done rest
  | 0, done, c :: rest =>
    match Utf8.decode? (c :: rest) with
    | none => spellFrom 0 ((hexEscape c).reverse ++ done) rest
    | some (x, size) =>
      match (if size = 1 then short? c else none) with
      | some s => spellFrom 0 (s.reverse ++ done) rest
      | none => spellFrom (size - 1) ((codePointEscape x).reverse ++ done) rest

def spellByte (c : UInt8) : Bytes := (short? c).getD (decimalEscape c)

end Quoted

def quote (s : Bytes) : Bytes := byte '"' :: Quoted.spellFrom 0 [] s ++ [byte '"']

def quoteBytes (s : Bytes) : Bytes := byte '"' :: s.flatMap Quoted.spellByte ++ [byte '"']

def quoteByte (c : UInt8) : Bytes :=
  byte '\'' :: (if isPrintable c then [c] else Quoted.hexEscape c) ++ [byte '\'']

end LuaBytecode
