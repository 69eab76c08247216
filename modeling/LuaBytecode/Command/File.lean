import LuaBytecode.Bytes

namespace LuaBytecode

inductive FileAction where
  | opening
  | reading
  | makingDirectory
  deriving DecidableEq, Repr

def FileAction.text : FileAction → Bytes
  | .opening => "open"
  | .reading => "read"
  | .makingDirectory => "mkdir"

inductive FileFault where
  | notFound
  | isDirectory
  | notDirectory
  | exists
  | other (description : Bytes)
  deriving DecidableEq, Repr

def FileFault.text : FileFault → Bytes
  | .notFound => "no such file or directory"
  | .isDirectory => "is a directory"
  | .notDirectory => "not a directory"
  | .exists => "file exists"
  | .other description => description

structure FileError where
  action : FileAction
  path : Bytes
  fault : FileFault
  deriving DecidableEq, Repr

def FileError.message (e : FileError) : Bytes :=
  e.action.text ++ byte ' ' :: e.path ++ ": " ++ e.fault.text

end LuaBytecode
