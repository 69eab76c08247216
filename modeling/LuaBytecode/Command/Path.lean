import LuaBytecode.Bytes

namespace LuaBytecode.Path

def slash : UInt8 := byte '/'

def here : Bytes := [byte '.']

def up : Bytes := [byte '.', byte '.']

def parts : Bytes → List Bytes
  | [] => [[]]
  | c :: rest =>
    if c = slash then [] :: parts rest
    else
      match parts rest with
      | part :: others => (c :: part) :: others
      | [] => [[c]]

def ofParts (parts : List Bytes) : Bytes := [slash].intercalate parts

def isRooted (path : Bytes) : Bool := path.head? = some slash

def cleanFrom (rooted : Bool) : (done : List Bytes) → List Bytes → List Bytes
  | done, [] => done
  | done, part :: rest =>
    if part = [] || part = here then cleanFrom rooted done rest
    else if part = up then
      match done with
      | last :: before =>
        if last = up then cleanFrom rooted (up :: done) rest else cleanFrom rooted before rest
      | [] => cleanFrom rooted (if rooted then [] else [up]) rest
    else cleanFrom rooted (part :: done) rest

def clean (path : Bytes) : Bytes :=
  let rooted := isRooted path
  let text := ofParts (cleanFrom rooted [] (parts path)).reverse
  if rooted then slash :: text else if text = [] then here else text

def join (paths : List Bytes) : Bytes :=
  match paths.filter (· ≠ []) with
  | [] => []
  | nonempty => clean (ofParts nonempty)

def throughSlash (path : Bytes) : Bytes := (path.reverse.dropWhile (· ≠ slash)).reverse

def directory (path : Bytes) : Bytes := clean (throughSlash path)

/-- The directories that a path lies in, the innermost first. -/
def parents (path : Bytes) : List Bytes :=
  ((List.range path.length).filter fun i => 0 < i && path[i]? = some slash).reverse.map path.take

end LuaBytecode.Path
