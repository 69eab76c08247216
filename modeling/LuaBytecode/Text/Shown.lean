import LuaBytecode.Text.Printable
import LuaBytecode.Text.Quoted

namespace LuaBytecode

namespace Shown

def codePointEscape (x : Nat) : Bytes :=
  if x < 0x20 || x = 0x7f then "\\x" ++ Bytes.zeroPad 2 (Bytes.hexNat x)
  else if x < 0x10000 then "\\u" ++ Bytes.zeroPad 4 (Bytes.hexNat x)
  else "\\U" ++ Bytes.zeroPad 8 (Bytes.hexNat x)

def short? (size : Nat) (c : UInt8) : Option Bytes := if size = 1 then Quoted.short? c else none

def spellFrom : (skip : Nat) → (done : Bytes) → Bytes → Bytes
  | _, done, [] => done.reverse
  | skip + 1, done, _ :: rest => spellFrom skip done rest
  | 0, done, c :: rest =>
    match Utf8.decode? (c :: rest) with
    | none => spellFrom 0 ((Quoted.hexEscape c).reverse ++ done) rest
    | some (x, size) =>
      let s := match short? size c with
        | some s => s
        | none => if isPrintableChar x then (c :: rest).take size else codePointEscape x
      spellFrom (size - 1) (s.reverse ++ done) rest

end Shown

def shown (s : Bytes) : Bytes := byte '"' :: Shown.spellFrom 0 [] s ++ [byte '"']

end LuaBytecode
