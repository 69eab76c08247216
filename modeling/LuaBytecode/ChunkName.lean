import LuaBytecode.Bytes

namespace LuaBytecode

abbrev ChunkName := Bytes

namespace ChunkName

def ofFile (path : Bytes) : ChunkName := byte '@' :: path

def ofDescription (text : Bytes) : ChunkName := byte '=' :: text

def file? (name : ChunkName) : Option Bytes := Bytes.cut? [byte '@'] name

def description? (name : ChunkName) : Option Bytes := Bytes.cut? [byte '='] name

def shownSize : Nat := 60

def ellipsis : Bytes := "..."

def textRoom : Nat := 45

/-- A chunk's own text as a name: its first line, cut to the room there is. -/
def showText (text : Bytes) : Bytes :=
  let line := text.takeWhile (· != byte '\n')
  let whole := line.length = text.length && text.length < textRoom
  "[string \"" ++ (if whole then text else line.take textRoom ++ ellipsis) ++
    "\"]"

def shown (name : ChunkName) : Bytes :=
  match description? name, file? name with
  | some text, _ => text.take (shownSize - 1)
  | none, some path =>
    if shownSize ≤ path.length then
      ellipsis ++ path.drop (path.length - (shownSize - ellipsis.length - 1))
    else path
  | none, none => showText name

def listed (name : ChunkName) : Bytes :=
  match name with
  | [] => [byte '?']
  | c :: rest =>
    if c = byte '@' || c = byte '=' then rest
    else if c = 0x1b then "(bstring)"
    else "(string)"

end ChunkName

end LuaBytecode
