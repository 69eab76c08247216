import LuaBytecode.Json.Token

namespace LuaBytecode

inductive JsonFrame where
  | array (items : List JsonValue)
  | object (members : List (Bytes × JsonValue)) (key : Bytes)

inductive JsonReader where
  | value (frames : List JsonFrame)
  | name (members : List (Bytes × JsonValue)) (frames : List JsonFrame)
  | colon (members : List (Bytes × JsonValue)) (key : Bytes) (frames : List JsonFrame)
  | afterItem (items : List JsonValue) (frames : List JsonFrame)
  | afterMember (members : List (Bytes × JsonValue)) (frames : List JsonFrame)
  | finished (v : JsonValue)

namespace JsonReader

def maxDepth : Nat := 10000

def place (v : JsonValue) : List JsonFrame → JsonReader
  | [] => .finished v
  | .array items :: frames => .afterItem (v :: items) frames
  | .object members key :: frames => .afterMember ((key, v) :: members) frames

def next (r : JsonReader) (t : JsonToken) : Option JsonReader :=
  match r, t with
  | .value frames, .scalar v => some (place v frames)
  | .value frames, .openArray =>
    if frames.length < maxDepth then some (.value (.array [] :: frames)) else none
  | .value frames, .openObject =>
    if frames.length < maxDepth then some (.name [] frames) else none
  | .value (.array items :: frames), .closeArray =>
    some (place (.array items.reverse) frames)
  | .name members frames, .scalar (.string key) =>
    if members.any (·.1 == key) then none else some (.colon members key frames)
  | .name members frames, .closeObject => some (place (.object members.reverse) frames)
  | .colon members key frames, .colon => some (.value (.object members key :: frames))
  | .afterItem items frames, .comma => some (.value (.array items :: frames))
  | .afterItem items frames, .closeArray => some (place (.array items.reverse) frames)
  | .afterMember members frames, .comma => some (.name members frames)
  | .afterMember members frames, .closeObject => some (place (.object members.reverse) frames)
  | _, _ => none

def finished? : JsonReader → Option JsonValue
  | .finished v => some v
  | _ => none

end JsonReader

def JsonValue.read? (file : Bytes) : Option JsonValue := do
  (← (← JsonToken.scan? file).foldlM JsonReader.next (.value [])).finished?

end LuaBytecode
