import LuaBytecode.Command
import LuaBytecode.Command.FileTree

/-! Runs of the command in memory, one after another on the same files. -/

namespace LuaBytecode

structure World where
  tree : FileTree
  input : Bytes
  output : Bytes
  debug : Option Bool
  clock : Int

namespace World

def bytesOf (path : Bytes) : FileContent → Except FileError Bytes
  | .bytes content => .ok content
  | .cache _ => .error ⟨.reading, path, .other "is a cache"⟩

def readFile (path : Bytes) : StateM World (Except FileError Bytes) := do
  let w ← get
  return (w.tree.read path).bind (bytesOf path)

def writeFile (path content : Bytes) : StateM World (Except FileError Unit) := fun w =>
  match w.tree.write path (.bytes content) with
  | .ok tree => (.ok (), { w with tree })
  | .error e => (.error e, w)

def databaseOf : Except FileError FileContent → Database
  | .ok (.cache c) => .usable c
  | .ok (.bytes []) => .usable .empty
  | .ok (.bytes (_ :: _)) => .broken
  | .error e => if e.fault = .notFound then .usable .empty else .broken

def openCache (path : Bytes) : StateM World (Except FileError Database) := fun w =>
  match w.tree.makeDirectories (Path.directory path) with
  | .error e => (.error e, w)
  | .ok tree => (.ok (databaseOf (tree.read path)), { w with tree })

def saveCache (path : Bytes) (c : Cache) : StateM World Unit := fun w =>
  match w.tree.write path (.cache c) with
  | .ok tree => ((), { w with tree })
  | .error _ => ((), w)

def host (processors : Int64 := 1) : Host (StateM World) where
  readFile := readFile
  writeFile := writeFile
  openCache := openCache
  saveCache := saveCache
  readInput := modifyGet fun w => (w.input, { w with input := [] })
  print s := modify fun w => { w with output := w.output ++ s }
  startLog debug := modify fun w => { w with debug := some debug }
  now := do return (← get).clock
  processors := return processors

def run (w : World) (places : Places) (arguments : List Bytes) (input : Bytes) :
    Except CommandError Unit × World :=
  (Command.run host places arguments).run.run { w with input, output := [], debug := none }

end World

end LuaBytecode
