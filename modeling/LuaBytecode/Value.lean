import LuaBytecode.Number.Decimal
import LuaBytecode.Numeral
import LuaBytecode.Text.Quoted

namespace LuaBytecode

inductive Value where
  | nil
  | bool (b : Bool)
  | integer (i : Int64)
  | float (x : Binary64)
  | string (s : Bytes)
  deriving DecidableEq

namespace Value

def ofNumber : Number → Value
  | .integer i => .integer i
  | .float x => .float x

def isNil : Value → Bool
  | .nil => true
  | _ => false

def isBool : Value → Bool
  | .bool _ => true
  | _ => false

def isInteger : Value → Bool
  | .integer _ => true
  | _ => false

def isNumber : Value → Bool
  | .integer _ | .float _ => true
  | _ => false

def isString : Value → Bool
  | .string _ => true
  | _ => false

def isTruthy : Value → Bool
  | .nil | .bool false => false
  | _ => true

def toFloat? : Value → Option Binary64
  | .integer i => some (.ofInt i.toInt)
  | .float x => some x
  | _ => none

def toInteger? : Value → Option Int64
  | .integer i => some i
  | _ => none

def exactInteger? : Value → Option Int64
  | .integer i => some i
  | .float x =>
    x.toInt?.bind int64?
  | _ => none

def unquoted : Value → Bytes
  | .string s => s
  | .integer i => .ofInt i.toInt
  | .float x => x.text
  | _ => []

def plainText : Value → Bytes
  | .nil => "nil"
  | .bool b => .ofString (if b then "true" else "false")
  | v => v.unquoted

def text : Value → Bytes
  | .string s => quote s
  | v => v.plainText

def listingText : Value → Bytes
  | .string s => quoteBytes s
  | v => v.plainText

def maxShortString : Nat := 40

def tag : Value → UInt8
  | .nil => 0x00
  | .bool _ => 0x01
  | .float _ => 0x03
  | .integer _ => 0x13
  | .string s => if maxShortString < s.length then 0x14 else 0x04

end Value

end LuaBytecode
