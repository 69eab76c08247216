import LuaBytecode.Settings
import LuaBytecode.Text.IntegerLiteral
import LuaBytecode.Text.Shown

namespace LuaBytecode

inductive Flag where
  | ast
  | byteOrder
  | cache
  | config
  | debug
  | help
  | jobs
  | list
  | noCache
  | output
  | parseOnly
  | rawPC
  | source
  | stripDebug
  | undump
  deriving DecidableEq, Repr

namespace Flag

def all : List Flag :=
  [ast, byteOrder, cache, config, debug, help, jobs, list, noCache, output,
    parseOnly, rawPC, source, stripDebug, undump]

def name : Flag → String
  | ast => "ast"
  | byteOrder => "byte-order"
  | cache => "cache"
  | config => "config"
  | debug => "debug"
  | help => "help"
  | jobs => "jobs"
  | list => "list"
  | noCache => "no-cache"
  | output => "output"
  | parseOnly => "parse-only"
  | rawPC => "raw-pc"
  | source => "source"
  | stripDebug => "strip-debug"
  | undump => "undump"

def letter? : Flag → Option Char
  | help => some 'h'
  | list => some 'l'
  | output => some 'o'
  | parseOnly => some 'p'
  | rawPC => some '0'
  | stripDebug => some 's'
  | _ => none

def implied? : Flag → Option Bytes
  | byteOrder | config | jobs | output | source => none
  | list => some "+1"
  | _ => some "true"

def ofName? (name : Bytes) : Option Flag := all.find? fun f => Bytes.ofString f.name == name

def ofLetter? (c : UInt8) : Option Flag := all.find? fun f => f.letter?.map byte == some c

def described (f : Flag) : Bytes :=
  let long := "--" ++ Bytes.ofString f.name
  match f.letter? with
  | some c => [byte '-', byte c] ++ ", " ++ long
  | none => long

end Flag

inductive FlagValueFault where
  | notBool
  | integer (fault : IntegerFault)
  | byteOrder
  deriving DecidableEq, Repr

inductive FlagError where
  | badForm (argument : Bytes)
  | unknown (name : Bytes)
  | unknownLetter (letter : UInt8) (cluster : Bytes)
  | noValue (flag : Flag)
  | noLetterValue (letter : UInt8)
  | badValue (flag : Flag) (value : Bytes) (fault : FlagValueFault)
  deriving DecidableEq, Repr

def shownLetter (c : UInt8) : Bytes :=
  let x := ((Utf8.encode c.toNat).headD 0).toNat
  let s :=
    if c = byte '\'' then [byte '\\', c]
    else if c = byte '"' then [c]
    else if x < 0x80 then (Quoted.short? c).getD (Shown.codePointEscape x)
    else Utf8.encode x
  byte '\'' :: s ++ [byte '\'']

def FlagValueFault.message (value : Bytes) : FlagValueFault → Bytes
  | .notBool => "strconv.ParseBool: parsing " ++ shown value ++ ": invalid syntax"
  | .integer .malformed =>
    "strconv.ParseInt: parsing " ++ shown value ++ ": invalid syntax"
  | .integer .outOfRange =>
    "strconv.ParseInt: parsing " ++ shown value ++ ": value out of range"
  | .byteOrder =>
    "unknown byte order " ++ shown value ++ " (must be \"little\" or \"big\")"

def FlagError.message : FlagError → Bytes
  | .badForm argument => "bad flag syntax: " ++ argument
  | .unknown name => "unknown flag: --" ++ name
  | .unknownLetter letter cluster =>
    "unknown shorthand flag: " ++ shownLetter letter ++ " in -" ++ cluster
  | .noValue flag => "flag needs an argument: --" ++ .ofString flag.name
  | .noLetterValue letter =>
    "flag needs an argument: " ++ shownLetter letter ++ " in -" ++ [letter]
  | .badValue flag value fault =>
    "invalid argument " ++ shown value ++ " for " ++ shown flag.described ++
      " flag: " ++ fault.message value

structure Options where
  ast : Bool
  byteOrder : Option ByteOrder
  cache : Option Bool
  configFiles : List Bytes
  debug : Option Bool
  help : Bool
  jobs : Option Int64
  listing : Option Int64
  noCache : Option Bool
  output : Bytes
  parseOnly : Bool
  rawPC : Bool
  source : Bytes
  stripDebug : Option Bool
  undump : Bool
  files : List Bytes
  deriving DecidableEq, Repr

namespace Options

def default : Options where
  ast := false
  byteOrder := none
  cache := none
  configFiles := []
  debug := none
  help := false
  jobs := none
  listing := none
  noCache := none
  output := "luac.out"
  parseOnly := false
  rawPC := false
  source := []
  stripDebug := none
  undump := false
  files := []

def boolOf? (value : Bytes) : Option Bool :=
  if ["1", "t", "T", "TRUE", "true", "True"].any (Bytes.ofString · == value) then some true
  else if ["0", "f", "F", "FALSE", "false", "False"].any (Bytes.ofString · == value) then some false
  else none

def bool (value : Bytes) : Except FlagValueFault Bool :=
  match boolOf? value with
  | some b => .ok b
  | none => .error .notBool

def integer (value : Bytes) : Except FlagValueFault Int64 := (readInteger value).mapError .integer

def order (value : Bytes) : Except FlagValueFault ByteOrder :=
  match ByteOrder.ofName? value with
  | some o => .ok o
  | none => .error .byteOrder

def count (before : Option Int64) (value : Bytes) : Except FlagValueFault Int64 :=
  if value = "+1" then .ok (before.getD 0 + 1) else integer value

def assign (o : Options) (f : Flag) (value : Bytes) : Except FlagValueFault Options :=
  match f with
  | .ast => do return { o with ast := ← bool value }
  | .byteOrder => do return { o with byteOrder := some (← order value) }
  | .cache => do return { o with cache := some (← bool value) }
  | .config => .ok { o with configFiles := o.configFiles ++ [value] }
  | .debug => do return { o with debug := some (← bool value) }
  | .help => do return { o with help := ← bool value }
  | .jobs => do return { o with jobs := some (← integer value) }
  | .list => do return { o with listing := some (← count o.listing value) }
  | .noCache => do return { o with noCache := some (← bool value) }
  | .output => .ok { o with output := value }
  | .parseOnly => do return { o with parseOnly := ← bool value }
  | .rawPC => do return { o with rawPC := ← bool value }
  | .source => .ok { o with source := value }
  | .stripDebug => do return { o with stripDebug := some (← bool value) }
  | .undump => do return { o with undump := ← bool value }

def effective (o : Options) (s : Settings) : Settings where
  debug := o.debug.getD s.debug
  stripDebug := o.stripDebug.getD s.stripDebug
  listing := o.listing.getD s.listing
  cacheFile := s.cacheFile
  cache :=
    if o.noCache = some true then false
    else if o.cache = some true then true
    else s.cache
  jobs := o.jobs.getD s.jobs
  header := { s.header with byteOrder := o.byteOrder.or s.header.byteOrder }

end Options

end LuaBytecode
