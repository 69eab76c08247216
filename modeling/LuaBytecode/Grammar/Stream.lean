import LuaBytecode.Token.Scanner
import LuaBytecode.Tree

namespace LuaBytecode

structure TokenStream where
  current : Token
  rest : List Token
  marks : List (List Token)
  prevEnd : Position
  failure : Option LexicalError
  deriving Repr

namespace TokenStream

def collect : (done : List Token) → List Scanned → List Token × Option LexicalError
  | done, [] => (done.reverse, none)
  | done, .fault span e :: _ =>
    (({ kind := .error, span := .at span.stop } :: done : List Token).reverse, some e)
  | done, .token t :: rest =>
    if t.kind = .comment then collect done rest else collect (t :: done) rest

def ofSource (src : Bytes) : TokenStream :=
  match collect [] (elements src) with
  | (t :: rest, failure) => ⟨t, rest, [], default, failure⟩
  | ([], failure) => ⟨{ kind := .eof, span := .at .first }, [], [], default, failure⟩

def advance (s : TokenStream) : TokenStream :=
  match s.rest with
  | [] => s
  | t :: rest => { s with current := t, rest, prevEnd := s.current.span.stop }

def skip (s : TokenStream) : TokenStream := { s with rest := s.rest.tail }

def mark (s : TokenStream) : TokenStream := { s with marks := s.rest :: s.marks }

end TokenStream

inductive Expected where
  | symbol (text : Bytes)
  | name
  | endOfFile
  | endOfBlock
  | assignOrIn
  | nameOrVararg
  | expression
  | arguments
  | assignOrArguments
  deriving DecidableEq, Repr

def Expected.text : Expected → Bytes
  | .symbol text => byte '\'' :: text ++ [byte '\'']
  | .name => "name"
  | .endOfFile => "<eof>"
  | .endOfBlock => "end of block"
  | .assignOrIn => "'=' or 'in'"
  | .nameOrVararg => "name or '...'"
  | .expression => "expression"
  | .arguments => "function arguments"
  | .assignOrArguments => "'=' or function arguments"

inductive ParseCause where
  | lexical (error : LexicalError)
  | tooManyLevels
  | notAssignable
  | noMark
  | unexpected (want : Expected) (got : Token)
  deriving DecidableEq, Repr

structure ParseFault where
  pos : Position
  cause : ParseCause
  deriving DecidableEq, Repr

def Token.described (t : Token) : Bytes :=
  match t.kind with
  | .eof | .string => t.text
  | _ => byte '\'' :: t.text ++ [byte '\'']

def ParseFault.message (f : ParseFault) : Bytes :=
  match f.cause with
  | .lexical e => e.message
  | .tooManyLevels => f.pos.text ++ ": chunk has too many syntax levels"
  | .notAssignable => f.pos.text ++ ": cannot assign to expression"
  | .noMark => f.pos.text ++ ": no mark"
  | .unexpected want got =>
    f.pos.text ++ ": unexpected token, expected " ++ want.text ++ ", got " ++ got.described

structure ParseError where
  source : Bytes
  fault : ParseFault
  deriving DecidableEq, Repr

def ParseError.message (e : ParseError) : Bytes :=
  (if e.source.isEmpty then [byte '?'] else e.source) ++ byte ':' :: e.fault.message

abbrev Parser := StateT TokenStream (Except ParseFault)

namespace Parser

def current : Parser Token := do return (← get).current

def advance : Parser Unit := modify TokenStream.advance

def restore : Parser Unit := do
  match (← get).marks with
  | [] => throw ⟨(← current).span.start, .noMark⟩
  | rest :: marks => modify ({ · with rest, marks })

def peek : Parser (Option Token) := do
  modify TokenStream.mark
  let next := (← get).rest.head?
  modify TokenStream.skip
  restore
  return next

def spanFrom (start : Position) : Parser Span := do return ⟨start, (← get).prevEnd⟩

def faultAt (s : TokenStream) (want : Expected) : ParseFault :=
  match s.current.kind, s.failure with
  | .error, some e => ⟨e.pos, .lexical e⟩
  | _, _ => ⟨s.current.span.start, .unexpected want s.current⟩

def unexpected {α : Type} (want : Expected) : Parser α := do throw (faultAt (← get) want)

def tooManyLevels {α : Type} : Parser α := do
  throw ⟨(← current).span.start, .tooManyLevels⟩

def expectSymbol (text : Bytes) : Parser Unit := do
  if (← current).is text then advance else unexpected (.symbol text)

def acceptSymbol (text : Bytes) : Parser Bool := do
  if (← current).is text then
    advance
    return true
  else return false

@[inline]
def expect (text : String) : Parser Unit := expectSymbol (.ofString text)

@[inline]
def accept (text : String) : Parser Bool := acceptSymbol (.ofString text)

@[inline]
def at? (text : String) : Parser Bool := do return (← current).is (.ofString text)

def name : Parser Ident := do
  let t ← current
  if t.kind = .name then
    advance
    return ⟨t.span, t.value⟩
  else unexpected .name

end Parser

def Token.isFunctionWord (t : Token) : Bool := t.is "function" || t.is "fun"

def Token.isLocalWord (t : Token) : Bool := t.is "local" || t.is "let"

def Token.endsBlock (t : Token) : Bool :=
  t.kind = .eof || t.kind = .error || t.is "else" || t.is "elseif" || t.is "end" || t.is "until"

end LuaBytecode
