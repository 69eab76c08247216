import LuaBytecode.Position

namespace LuaBytecode

inductive TokenKind where
  | error
  | name
  | number
  | string
  | sign
  | keyword
  | comment
  | nil
  | boolean
  | eof
  deriving DecidableEq, Repr, Inhabited

namespace TokenKind

def all : List TokenKind :=
  [.error, .name, .number, .string, .sign, .keyword, .comment, .nil, .boolean, .eof]

def text : TokenKind → Bytes
  | .error => "error"
  | .name => "name"
  | .number => "number"
  | .string => "string"
  | .sign => "sign"
  | .keyword => "keyword"
  | .comment => "comment"
  | .nil => "nil"
  | .boolean => "boolean"
  | .eof => "eof"

end TokenKind

structure Token where
  kind : TokenKind
  span : Span
  value : Bytes := []
  long : Bool := false
  deriving DecidableEq, Repr, Inhabited

namespace Token

def text (t : Token) : Bytes :=
  match t.kind with
  | .eof => "<eof>"
  | .error => "<error>"
  | .string =>
    if t.long then "[[" ++ t.value ++ "]]"
    else byte '"' :: t.value ++ [byte '"']
  | .comment => "--" ++ t.value
  | _ => t.value

def is (t : Token) (text : Bytes) : Bool := (t.kind = .sign || t.kind = .keyword) && t.value == text

end Token

def keywords : List Bytes :=
  ["and", "break", "do", "else", "elseif", "end", "for", "fun", "function", "goto", "if", "in",
   "let", "local", "not", "or", "repeat", "return", "then", "until", "while"].map .ofString

def wordKind (word : Bytes) : TokenKind :=
  if word == "nil" then .nil
  else if word == "true" || word == "false" then .boolean
  else if keywords.contains word then .keyword
  else .name

def isReserved (word : Bytes) : Bool := wordKind word != .name

def signs : List Bytes := ["...", "..", "==", "~=", "<=", ">=", "<<", ">>", "//", "::",
   "+", "-", "*", "/", "%", "^", "#", "&", "~", "|", "<", ">", "=",
   "(", ")", "\x7b", "\x7d", "[", "]", ";", ":", ",", "."].map .ofString

end LuaBytecode
