import LuaBytecode.Cache
import LuaBytecode.Chunk.Combine
import LuaBytecode.Chunk.Listing
import LuaBytecode.Command.Error
import LuaBytecode.Tree.Yaml

namespace LuaBytecode

structure Input where
  name : Bytes
  content : Except FileError Bytes

def standardName : Bytes := [byte '-']

structure Job where
  source : Bytes
  undump : Bool
  header : Header
  listing : Int64
  rawPC : Bool
  parseOnly : Bool
  stripDebug : Bool

namespace Job

def chunkName (j : Job) (name : Bytes) : ChunkName :=
  if j.source ≠ [] then j.source
  else if name = standardName then .ofDescription "stdin"
  else .ofFile name

def compileInto (j : Job) (now : Int) (cache : Option Database) (name data : Bytes) :
    Except CommandError Chunk × Option Database :=
  match compile (j.chunkName name) data with
  | .error e => (.error (.source e), cache)
  | .ok chunk =>
    let chunk := { chunk with header := j.header }
    match cache with
    | none => (.ok chunk, none)
    | some d =>
      -- The chunk is written out also where the database cannot keep it.
      match chunk.dump with
      | .error e => (.error (.cacheEntry name e), some d)
      | .ok bytecode =>
        (.ok chunk, some (d.put (.ofSource (j.chunkName name) j.header data) bytecode now))

def cached (j : Job) (now : Int) (name data : Bytes) :
    Option Database → Option Chunk × Option Database
  | none => (none, none)
  | some d =>
    let (bytecode?, d) := d.get (.ofSource (j.chunkName name) j.header data) now
    (bytecode?.bind fun bytecode => (Chunk.undump bytecode).toOption, some d)

def load (j : Job) (now : Int) (cache : Option Database) (input : Input) :
    Except CommandError Chunk × Option Database :=
  match input.content with
  | .error e => (.error (.file e), cache)
  | .ok data =>
    if j.undump || Chunk.isBinary data then
      ((Chunk.undump data).mapError (.undump input.name), cache)
    else
      match j.cached now input.name data cache with
      | (some chunk, cache) => (.ok chunk, cache)
      | (none, cache) => j.compileInto now cache input.name data

def loadAll (j : Job) (now : Int) (cache : Option Database) :
    List Input → Except CommandError (List Chunk) × Option Database
  | [] => (.ok [], cache)
  | input :: rest =>
    match j.load now cache input with
    | (.error e, cache) => (.error e, cache)
    | (.ok chunk, cache) =>
      match j.loadAll now cache rest with
      | (.error e, cache) => (.error e, cache)
      | (.ok chunks, cache) => (.ok (chunk :: chunks), cache)

def combine (j : Job) (chunks : List Chunk) : Except CommandError Chunk :=
  match Chunk.combine chunks with
  | .error fault => .error (.combine fault)
  | .ok chunk => .ok { chunk with header := j.header }

def listingOf (j : Job) (chunk : Chunk) : Bytes :=
  if 0 < j.listing then (chunk.listing? ⟨1 < j.listing, j.rawPC⟩).getD [] else []

def bytecode (j : Job) (chunk : Chunk) : Except CommandError (Option Bytes) :=
  if j.parseOnly then .ok none
  else ((if j.stripDebug then chunk.strip else chunk).dump.map some).mapError .dump

def trees (j : Job) (inputs : List Input) : Except CommandError Bytes := do
  let documents ← inputs.mapM fun input => do
    let data ← input.content.mapError .file
    let tree ← (parse (j.chunkName input.name).shown data).mapError fun e => .source (.parse e)
    return tree.yaml
  return (Bytes.ofString "---\n").intercalate documents

end Job

end LuaBytecode
