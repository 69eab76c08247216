import LuaBytecode.Header
import LuaBytecode.Json.Reader

namespace LuaBytecode

def ByteOrder.ofName? (name : Bytes) : Option ByteOrder :=
  if name = "little" then some .little
  else if name = "big" then some .big
  else none

def ByteOrder.name : ByteOrder → Bytes
  | .little => "little"
  | .big => "big"

structure HeaderSettings where
  intSize : Int64
  sizeTSize : Int64
  integerSize : Int64
  numberSize : Int64
  byteOrder : Option ByteOrder
  deriving DecidableEq, Repr

structure HeaderSettingsFault where
  field : String
  size : Int64
  deriving DecidableEq, Repr

def HeaderSettingsFault.message (f : HeaderSettingsFault) : Bytes :=
  "header." ++ .ofString f.field ++ " must be 4 or 8 (got " ++ .ofInt f.size.toInt ++ [byte ')']

namespace HeaderSettings

def default : HeaderSettings := ⟨0, 0, 0, 0, none⟩

def size (field : String) (given : Int64) (usual : UInt8) : Except HeaderSettingsFault UInt8 :=
  if given = 0 then .ok usual
  else if given = 4 then .ok 4
  else if given = 8 then .ok 8
  else .error ⟨field, given⟩

def header (s : HeaderSettings) : Except HeaderSettingsFault Header := do
  let usual := Header.default
  let intSize ← size "intSize" s.intSize usual.intSize
  let sizeTSize ← size "sizeTSize" s.sizeTSize usual.sizeTSize
  let integerSize ← size "integerSize" s.integerSize usual.integerSize
  let numberSize ← size "numberSize" s.numberSize usual.numberSize
  return { usual with
    intSize, sizeTSize, integerSize, numberSize
    byteOrder := s.byteOrder.or usual.byteOrder }

def set (s : HeaderSettings) (name : Bytes) (v : JsonValue) : Option HeaderSettings :=
  if name = "intSize" then v.int?.map ({ s with intSize := · })
  else if name = "sizeTSize" then v.int?.map ({ s with sizeTSize := · })
  else if name = "integerSize" then v.int?.map ({ s with integerSize := · })
  else if name = "numberSize" then v.int?.map ({ s with numberSize := · })
  else if name = "byteOrder" then
    (v.string?.bind ByteOrder.ofName?).map ({ s with byteOrder := some · })
  else some s

def merge (s : HeaderSettings) (v : JsonValue) : Option HeaderSettings := do
  (← v.members?).foldlM (fun s (name, v) => s.set name v) s

end HeaderSettings

structure Settings where
  debug : Bool
  stripDebug : Bool
  listing : Int64
  cacheFile : Bytes
  cache : Bool
  jobs : Int64
  header : HeaderSettings
  deriving DecidableEq, Repr

namespace Settings

def default (processors : Int64 := 0) : Settings where
  debug := false
  stripDebug := false
  listing := 0
  cacheFile := []
  cache := true
  jobs := processors
  header := .default

def set (s : Settings) (name : Bytes) (v : JsonValue) : Option Settings :=
  if name = "debug" then v.bool?.map ({ s with debug := · })
  else if name = "stripDebug" then v.bool?.map ({ s with stripDebug := · })
  else if name = "listing" then v.int?.map ({ s with listing := · })
  else if name = "cacheDB" then v.string?.map ({ s with cacheFile := · })
  else if name = "cache" then v.bool?.map ({ s with cache := · })
  else if name = "jobs" then v.int?.map ({ s with jobs := · })
  else if name = "header" then (s.header.merge v).map ({ s with header := · })
  else some s

def merge (s : Settings) (v : JsonValue) : Option Settings := do
  (← v.members?).foldlM (fun s (name, v) => s.set name v) s

def mergeFile (s : Settings) (file : Bytes) : Option Settings := do
  s.merge (← JsonValue.read? file)

end Settings

end LuaBytecode
