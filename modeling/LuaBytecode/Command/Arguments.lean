import LuaBytecode.Command.Flag

namespace LuaBytecode

inductive Argument where
  | file (path : Bytes)
  | assignment (flag : Flag) (value : Bytes)
  | fault (e : FlagError)
  deriving DecidableEq, Repr

namespace Argument

/-- Letters that start so belong to a test runner, and nothing is made of them. -/
def testRunner : Bytes := "test."

/-- The arguments in a cluster of letters, and the last letter if its flag still needs a value. -/
def cluster : Bytes → List Argument × Option (Flag × UInt8)
  | [] => ([], none)
  | c :: rest =>
    if Bytes.startsWith (c :: rest) testRunner then ([], none)
    else
      match Flag.ofLetter? c with
      | none => ([.fault (.unknownLetter c (c :: rest))], none)
      | some flag =>
        match Bytes.cut? [byte '='] rest, flag.implied? with
        | some (v :: value), _ => ([.assignment flag (v :: value)], none)
        | _, some value =>
          let (arguments, pending) := cluster rest
          (.assignment flag value :: arguments, pending)
        | _, none =>
          if rest = [] then ([], some (flag, c)) else ([.assignment flag rest], none)

def long (argument name : Bytes) : Except FlagError (Flag × Option Bytes) :=
  if name.head? = some (byte '-') || name.head? = some (byte '=') then .error (.badForm argument)
  else
    let key := name.takeWhile (· ≠ byte '=')
    match Flag.ofName? key with
    | none => .error (.unknown key)
    | some flag =>
      match Bytes.cut? [byte '='] (name.drop key.length) with
      | some value => .ok (flag, some value)
      | none => .ok (flag, flag.implied?)

def scan : List Bytes → List Argument
  | [] => []
  | argument :: rest =>
    match Bytes.cut? "--" argument, Bytes.cut? [byte '-'] argument with
    | some [], _ => rest.map .file
    | some name, _ =>
      match long argument name with
      | .error e => [.fault e]
      | .ok (flag, some value) => .assignment flag value :: scan rest
      | .ok (flag, none) =>
        match rest with
        | [] => [.fault (.noValue flag)]
        | value :: rest => .assignment flag value :: scan rest
    | none, some (c :: letters) =>
      match cluster (c :: letters) with
      | (arguments, none) => arguments ++ scan rest
      | (arguments, some (flag, letter)) =>
        arguments ++
          match rest with
          | [] => [.fault (.noLetterValue letter)]
          | value :: rest => .assignment flag value :: scan rest
    | _, _ => .file argument :: scan rest

end Argument

namespace Options

def add (o : Options) : Argument → Except FlagError Options
  | .file path => .ok { o with files := o.files ++ [path] }
  | .assignment flag value => (o.assign flag value).mapError (.badValue flag value)
  | .fault e => .error e

def ofArguments (arguments : List Bytes) : Except FlagError Options :=
  (Argument.scan arguments).foldlM add .default

end Options

end LuaBytecode
