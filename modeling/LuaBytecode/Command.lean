import LuaBytecode.Command.Arguments
import LuaBytecode.Command.Job
import LuaBytecode.Command.Path

namespace LuaBytecode

structure Host (m : Type → Type) where
  readFile : Bytes → m (Except FileError Bytes)
  writeFile : Bytes → Bytes → m (Except FileError Unit)
  openCache : Bytes → m (Except FileError Database)
  saveCache : Bytes → Cache → m Unit
  readInput : m Bytes
  print : Bytes → m Unit
  startLog : Bool → m Unit
  now : m Int
  processors : m Int64

structure Places where
  configDirs : List Bytes
  cacheDir : Bytes

namespace Command

def ownDirectory : Bytes := "luac53"

def configFiles (places : Places) (o : Options) : List Bytes :=
  (places.configDirs.map fun dir => Path.join [dir, ownDirectory, "config.jwcc"]) ++ o.configFiles

def initialSettings (places : Places) (processors : Int64) : Settings :=
  { Settings.default processors with
    cacheFile :=
      if places.cacheDir = [] then []
      else Path.join [places.cacheDir, ownDirectory, "cache.db"] }

def mergeFile (s : Settings) (path : Bytes) (content : Except FileError Bytes) :
    Except CommandError Settings :=
  match content with
  | .ok file =>
    match s.mergeFile file with
    | some s => .ok s
    | none => .error (.configuration path)
  | .error e => if e.fault = .notFound then .ok s else .error (.file e)

def options (arguments : List Bytes) : Except CommandError Options := do
  let o ← (Options.ofArguments arguments).mapError .flag
  if o.help then return o
  if o.files = [] then throw .noFiles
  if o.cache.isSome && o.noCache.isSome then throw .cacheConflict
  return o

def job (o : Options) (s : Settings) : Except CommandError Job := do
  let header ← s.header.header.mapError .header
  if o.source ≠ [] && 1 < o.files.length then throw .sourceOfSeveral
  return {
    source := o.source
    undump := o.undump
    header
    listing := s.listing
    rawPC := o.rawPC
    parseOnly := o.parseOnly
    stripDebug := s.stripDebug }

def usesCache (o : Options) (s : Settings) : Bool := s.cache && s.cacheFile ≠ [] && !o.undump

def maxAge : Int := 30 * 24 * 60 * 60

def usage : Bytes := .ofString
  "Lua 5.3 compiler

Usage: luac53 [options] FILE [...]

Flags:
      --ast                     print the syntax tree as YAML instead of compiling
      --byte-order little|big   byte order of the written chunk
      --cache                   use the compile cache
      --config file             read configuration from file (can be repeated)
      --debug                   show debugging output
  -h, --help                    help for luac53
      --jobs n                  compile at most n files at once
  -l, --list count              produce a listing of compiled bytecode (twice for full listing)
      --no-cache                do not use the compile cache
  -o, --output filename         output to filename (\"-\" for stdout) (default \"luac.out\")
  -p, --parse-only              do not write bytecode
  -0, --raw-pc                  show literal PC values
      --source name             source name to show in debug information instead of filename
  -s, --strip-debug             strip debug information
      --undump                  treat inputs as binary chunks
"

variable {m : Type → Type} [Monad m]

def settings (h : Host m) (places : Places) (o : Options) : ExceptT CommandError m Settings := do
  let add := fun s path => do mergeFile s path (← h.readFile path)
  (configFiles places o).foldlM add (initialSettings places (← h.processors))

def readInput (h : Host m) (name : Bytes) : m Input := do
  if name = standardName then return ⟨name, .ok (← h.readInput)⟩
  return ⟨name, ← h.readFile name⟩

def readInputs (h : Host m) (names : List Bytes) : m (List Input) := names.mapM (readInput h)

def load (h : Host m) (o : Options) (s : Settings) (j : Job) :
    ExceptT CommandError m (List Chunk) := do
  let cache ←
    if usesCache o s then
      match ← h.openCache s.cacheFile with
      | .ok d => pure (some d)
      | .error e => throw (.cacheDirectory e)
    else pure none
  let inputs ← (readInputs h o.files : m (List Input))
  let now ← h.now
  let (chunks, cache) := j.loadAll now cache inputs
  if let some (.usable c) := cache then
    h.saveCache s.cacheFile (c.prune (now - maxAge)).2
  chunks

def write (h : Host m) (path bytecode : Bytes) : ExceptT CommandError m Unit := do
  if path = standardName then h.print bytecode
  else
    match ← h.writeFile path bytecode with
    | .ok () => return
    | .error e => throw (.file e)

def run (h : Host m) (places : Places) (arguments : List Bytes) : ExceptT CommandError m Unit := do
  let o ← options arguments
  if o.help then
    h.print usage
    return
  let s := o.effective (← settings h places o)
  h.startLog s.debug
  let j ← job o s
  if o.ast then
    let inputs ← (readInputs h o.files : m (List Input))
    h.print (← j.trees inputs)
    return
  let chunk ← j.combine (← load h o s j)
  h.print (j.listingOf chunk)
  if let some bytecode := ← j.bytecode chunk then
    write h o.output bytecode

end Command

end LuaBytecode
