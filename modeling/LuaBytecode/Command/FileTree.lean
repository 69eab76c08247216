import LuaBytecode.Cache
import LuaBytecode.Command.File
import LuaBytecode.Command.Path

namespace LuaBytecode

inductive FileContent where
  | bytes (content : Bytes)
  | cache (c : Cache)
  deriving DecidableEq

structure FileTree where
  files : List (List Bytes × FileContent)
  directories : List (List Bytes)
  deriving DecidableEq

inductive FileTarget where
  | file (path : List Bytes) (content : FileContent)
  | directory (path : List Bytes)
  | vacant (path : List Bytes)
  | nullDevice

namespace FileTree

def isDirectory (t : FileTree) (path : List Bytes) : Bool :=
  path.isEmpty || t.directories.contains path ||
    t.files.any fun (p, _) => path.length < p.length && p.take path.length == path

def walk (t : FileTree) : (base : List Bytes) → List Bytes → Except FileFault FileTarget
  | base, [] => .ok (.directory base)
  | base, part :: rest =>
    if part = [] || part = Path.here then walk t base rest
    else if part = Path.up then
      if base = [] then .error .notFound else walk t base.dropLast rest
    else
      let path := base ++ [part]
      if t.isDirectory path then walk t path rest
      else
        match t.files.lookup path with
        | some content => if rest = [] then .ok (.file path content) else .error .notDirectory
        | none => if rest = [] then .ok (.vacant path) else .error .notFound

def nullPath : Bytes := "/dev/null"

def find (t : FileTree) (path : Bytes) : Except FileFault FileTarget :=
  if path = [] then .error .notFound
  else if path = nullPath then .ok .nullDevice
  else if Path.isRooted path then .error .notFound
  else t.walk [] (Path.parts path)

def put (t : FileTree) (path : List Bytes) (content : FileContent) : FileTree :=
  { t with files := (path, content) :: t.files.filter (·.1 != path) }

def read (t : FileTree) (path : Bytes) : Except FileError FileContent :=
  match t.find path with
  | .ok (.file _ content) => .ok content
  | .ok .nullDevice => .ok (.bytes [])
  | .ok (.directory _) => .error ⟨.reading, path, .isDirectory⟩
  | .ok (.vacant _) => .error ⟨.opening, path, .notFound⟩
  | .error fault => .error ⟨.opening, path, fault⟩

def trimmed (path : Bytes) : Bytes := (path.reverse.dropWhile (· = Path.slash)).reverse

def write (t : FileTree) (path : Bytes) (content : FileContent) : Except FileError FileTree :=
  match t.find (trimmed path) with
  | .error fault => .error ⟨.opening, path, fault⟩
  | .ok target =>
    if path.getLast? = some Path.slash then .error ⟨.opening, path, .isDirectory⟩
    else
      match target with
      | .file place _ | .vacant place => .ok (t.put place content)
      | .nullDevice => .ok t
      | .directory _ => .error ⟨.opening, path, .isDirectory⟩

def makeDirectory (t : FileTree) (path : Bytes) : Except FileError FileTree :=
  match t.find path with
  | .ok (.directory _) => .ok t
  | .ok (.vacant place) => .ok { t with directories := place :: t.directories }
  | .ok (.file ..) | .ok .nullDevice => .error ⟨.makingDirectory, path, .exists⟩
  | .error fault => .error ⟨.makingDirectory, path, fault⟩

def makeWithParents (t : FileTree) : List Bytes → Except FileError FileTree
  | [] => .ok t
  | path :: parents =>
    match t.find path with
    | .ok (.directory _) => .ok t
    | .ok (.file ..) | .ok .nullDevice => .error ⟨.makingDirectory, path, .notDirectory⟩
    | .ok (.vacant _) | .error _ => do (← t.makeWithParents parents).makeDirectory path

def makeDirectories (t : FileTree) (path : Bytes) : Except FileError FileTree :=
  t.makeWithParents (path :: Path.parents path)

end FileTree

end LuaBytecode
