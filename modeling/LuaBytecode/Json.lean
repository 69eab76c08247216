import LuaBytecode.Number.Integer
import LuaBytecode.Text.CharClass

namespace LuaBytecode

inductive JsonValue where
  | null
  | bool (b : Bool)
  | number (text : Bytes)
  | string (s : Bytes)
  | array (items : List JsonValue)
  | object (members : List (Bytes × JsonValue))
  deriving Repr

namespace JsonValue

def bool? : JsonValue → Option Bool
  | .null => some false
  | .bool b => some b
  | _ => none

def string? : JsonValue → Option Bytes
  | .null => some []
  | .string s => some s
  | _ => none

def decimal? (digits : Bytes) : Option Nat :=
  if digits = [] then none
  else digits.foldlM (fun n c => if isDigit c then some (10 * n + digitValue c) else none) 0

def integer? (text : Bytes) : Option Int64 :=
  match Bytes.cut? [byte '-'] text with
  | some digits => (decimal? digits).bind fun n => int64? (-n)
  | none => (decimal? text).bind fun n => int64? n

def int? : JsonValue → Option Int64
  | .null => some 0
  | .number text => integer? text
  | _ => none

def members? : JsonValue → Option (List (Bytes × JsonValue))
  | .object members => some members
  | _ => none

end JsonValue

end LuaBytecode
