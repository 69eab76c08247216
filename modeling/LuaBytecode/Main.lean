import LuaBytecode.Cache.File
import LuaBytecode.Command
import Std.Time.DateTime.Timestamp

/-! The command line program, on the files and streams of its process. -/

namespace LuaBytecode.Console

def text (s : Bytes) : String :=
  let bytes : ByteArray := ⟨s.toArray⟩
  (String.fromUTF8? bytes).getD (String.ofList (s.map fun c => Char.ofNat c.toNat))

def bytes (s : String) : Bytes := s.toUTF8.toList

def isDirectoryCode : UInt32 := 21

def faultOf : IO.Error → FileFault
  | .noFileOrDirectory .. => .notFound
  | .alreadyExists .. => .notDirectory
  | .inappropriateType _ code _ =>
    if code = isDirectoryCode || code = -isDirectoryCode then .isDirectory else .notDirectory
  | e => .other (bytes (toString e))

def attempt {α : Type} (action : FileAction) (path : Bytes) (act : IO α) :
    IO (Except FileError α) := do
  try
    return .ok (← act)
  catch e =>
    return .error ⟨action, path, faultOf e⟩

def readFile (path : Bytes) : IO (Except FileError Bytes) := do
  match ← attempt .opening path (IO.FS.readBinFile (text path)) with
  | .ok content => return .ok content.toList
  | .error e => return .error (if e.fault = .isDirectory then { e with action := .reading } else e)

def writeFile (path content : Bytes) : IO (Except FileError Unit) :=
  attempt .opening path (IO.FS.writeBinFile (text path) ⟨content.toArray⟩)

def databaseOf : Except FileError Bytes → Database
  | .ok file => ((Cache.ofFile? file).map .usable).getD .broken
  | .error e => if e.fault = .notFound then .usable .empty else .broken

def openCache (path : Bytes) : IO (Except FileError Database) := do
  let dir := Path.directory path
  match ← attempt .makingDirectory dir (IO.FS.createDirAll (text dir)) with
  | .error e => return .error e
  | .ok () => return .ok (databaseOf (← readFile path))

def saveCache (path : Bytes) (c : Cache) : IO Unit := do
  if let .error e := ← writeFile path c.toFile then
    IO.eprintln ("luac53: " ++ text e.message)

partial def readAll (stream : IO.FS.Stream) (done : ByteArray) : IO ByteArray := do
  let more ← stream.read 65536
  if more.isEmpty then return done
  readAll stream (done ++ more)

def print (s : Bytes) : IO Unit := do
  let out ← IO.getStdout
  out.write ⟨s.toArray⟩
  out.flush

def host : Host IO where
  readFile := readFile
  writeFile := writeFile
  openCache := openCache
  saveCache := saveCache
  readInput := do return (← readAll (← IO.getStdin) .empty).toList
  print := print
  startLog _ := return
  processors := return 1
  now := do return (← Std.Time.Timestamp.now).toSecondsSinceUnixEpoch.val

def userDir (name fallback : String) : IO String := do
  match ← IO.getEnv name with
  | some dir => return dir
  | none =>
    match ← IO.getEnv "HOME" with
    | some home => return home ++ "/" ++ fallback
    | none => return ""

def places : IO Places := do
  let system := (← IO.getEnv "XDG_CONFIG_DIRS").getD "/etc/xdg"
  let user ← userDir "XDG_CONFIG_HOME" ".config"
  let dirs := (system.splitOn ":").reverse ++ [user]
  let cacheDir ← userDir "XDG_CACHE_HOME" ".cache"
  return ⟨(dirs.filter (· ≠ "")).map bytes, bytes cacheDir⟩

end LuaBytecode.Console

def main (arguments : List String) : IO UInt32 := do
  let places ← LuaBytecode.Console.places
  let arguments := arguments.map LuaBytecode.Console.bytes
  match ← (LuaBytecode.Command.run LuaBytecode.Console.host places arguments).run with
  | .ok () => return 0
  | .error e =>
    IO.eprintln ("luac53: " ++ LuaBytecode.Console.text e.message)
    return 1
