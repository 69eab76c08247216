import LuaBytecode.Grammar.Stream

namespace LuaBytecode

structure Level where
  loops : Nat
  expr : (limit : Nat) → Parser Expr
  stmt : Parser (Option Stmt)
  elseIf : Parser Otherwise

namespace Parser

def exprListFrom (lv : Level) : Nat → (done : List Expr) → Parser (List Expr)
  | 0, done => return done.reverse
  | n + 1, done => do
      let e ← lv.expr 0
      if ← accept "," then exprListFrom lv n (e :: done) else return (e :: done).reverse

def exprList (lv : Level) : Parser (List Expr) := exprListFrom lv lv.loops []

def returnValues (lv : Level) : Parser (List Expr) := do
  let next ← current
  if next.endsBlock || next.is ";" then return [] else exprList lv

def returnStatement (lv : Level) : Parser Stmt := do
  let start := (← current).span.start
  advance
  let values ← returnValues lv
  let _ ← accept ";"
  return .return (← spanFrom start) values

def blockFrom (lv : Level) : Nat → (done : List Stmt) → Parser (List Stmt)
  | 0, done => return done.reverse
  | n + 1, done => do
      let t ← current
      if t.endsBlock then return done.reverse
      else if t.is "return" then
        let ret ← returnStatement lv
        if (← current).endsBlock then return (ret :: done).reverse
        else unexpected .endOfBlock
      else
        match ← lv.stmt with
        | some s => blockFrom lv n (s :: done)
        | none => blockFrom lv n done

def block (lv : Level) : Parser (List Stmt) := blockFrom lv lv.loops []

def closedBlock (lv : Level) (close : Bytes) : Parser (List Stmt) := do
  let body ← block lv
  expectSymbol close
  return body

def paramsFrom : Nat → (done : List Ident) → Parser (List Ident × Bool)
  | 0, done => return (done.reverse, false)
  | n + 1, done => do
      if ← accept "..." then return (done.reverse, true)
      else if (← current).kind = .name then
        let id ← name
        if ← accept "," then paramsFrom n (id :: done) else return ((id :: done).reverse, false)
      else unexpected .nameOrVararg

def params (lv : Level) : Parser (List Ident × Bool) := do
  if ← at? ")" then return ([], false) else paramsFrom lv.loops []

structure FunctionBody where
  span : Span
  params : List Ident
  isVararg : Bool
  body : List Stmt

def functionBody (lv : Level) (start : Position) (isMethod : Bool) : Parser FunctionBody := do
  let self : List Ident := if isMethod then [⟨.at start, "self"⟩] else []
  expect "("
  let (params, isVararg) ← params lv
  expect ")"
  let body ← closedBlock lv "end"
  return ⟨← spanFrom start, self ++ params, isVararg, body⟩

def isFieldName (t : Token) : Parser Bool := do
  if t.kind = .name then return (← peek).any fun p => p.is "=" else return false

def fieldKey (lv : Level) (t : Token) (index : Nat) : Parser (FieldKind × Expr × Nat) := do
  if t.is "[" then
    advance
    let key ← lv.expr 0
    expect "]"
    expect "="
    return (.computed, key, index)
  else if ← isFieldName t then
    advance
    advance
    return (.named, .string t.span t.value false, index)
  else return (.positional, .number (.at t.span.start) (.ofNat index), index + 1)

def field (lv : Level) (index : Nat) : Parser (Field × Nat) := do
  let t ← current
  let (kind, key, index) ← fieldKey lv t index
  let value ← lv.expr 0
  return (.mk (← spanFrom t.span.start) kind key value, index)

def acceptSeparator : Parser Bool := do
  if ← accept "," then return true else accept ";"

def fieldsFrom (lv : Level) : Nat → (index : Nat) → (done : List Field) → Parser (List Field)
  | 0, _, done => return done.reverse
  | n + 1, index, done => do
      if ← at? "\x7d" then return done.reverse
      else
        let (f, index) ← field lv index
        if ← acceptSeparator then fieldsFrom lv n index (f :: done) else return (f :: done).reverse

def constructor (lv : Level) : Parser Expr := do
  let start := (← current).span.start
  expect "\x7b"
  let fields ← fieldsFrom lv lv.loops 1 []
  expect "\x7d"
  return .table (← spanFrom start) fields

def arguments (lv : Level) : Parser (List Expr) := do
  let t ← current
  if t.kind = .string then
    advance
    return [.string t.span t.value t.long]
  else if t.is "\x7b" then return [← constructor lv]
  else if t.is "(" then
    advance
    if ← accept ")" then return []
    else
      let args ← exprList lv
      expect ")"
      return args
  else unexpected .arguments

def fieldOf (object : Expr) (key : Ident) : Expr :=
  .member ⟨object.span.start, key.span.stop⟩ object (.string key.span key.name false) false

def primary (lv : Level) : Parser Expr := do
  let t ← current
  if t.kind = .name then return .ident (← name)
  else if t.is "(" then
    advance
    let inner ← lv.expr 0
    expect ")"
    return .paren (← spanFrom t.span.start) inner
  else unexpected .expression

def suffixesFrom (lv : Level) (start : Position) : Nat → Expr → Parser Expr
  | 0, e => return e
  | n + 1, e => do
      let t ← current
      if t.is "." then
        advance
        let key ← name
        suffixesFrom lv start n (fieldOf e key)
      else if t.is "[" then
        advance
        let key ← lv.expr 0
        expect "]"
        suffixesFrom lv start n (.member (← spanFrom start) e key true)
      else if t.is ":" then
        advance
        let method ← name
        let args ← arguments lv
        suffixesFrom lv start n (.call (← spanFrom start) e (some method) args)
      else if t.is "(" || t.is "\x7b" || t.kind = .string then
        let args ← arguments lv
        suffixesFrom lv start n (.call (← spanFrom start) e none args)
      else return e

def suffixed (lv : Level) : Parser Expr := do
  let start := (← current).span.start
  let e ← primary lv
  suffixesFrom lv start lv.loops e

def simple (lv : Level) : Parser Expr := do
  let t ← current
  match t.kind with
  | .number =>
    advance
    return .number t.span t.value
  | .string =>
    advance
    return .string t.span t.value t.long
  | .nil =>
    advance
    return .nil t.span
  | .boolean =>
    advance
    return .bool t.span (t.value == "true")
  | _ =>
    if t.is "..." then
      advance
      return .vararg t.span
    else if t.is "\x7b" then constructor lv
    else if t.isFunctionWord then
      advance
      let f ← functionBody lv t.span.start false
      return .function f.span f.params f.isVararg f.body
    else suffixed lv

def operator? {α : Type} (ofText? : Bytes → Option α) (t : Token) : Option α :=
  if t.kind = .sign || t.kind = .keyword then ofText? t.value else none

/-- Operators and operands behind an expression, as long as they bind tighter than the limit. -/
def operationsFrom (lv : Level) (limit : Nat) (start : Position) : Nat → Expr → Parser Expr
  | 0, e => return e
  | n + 1, e => do
      match operator? BinaryOp.ofText? (← current) with
      | some op =>
        if op.powers.1 ≤ limit then return e
        else
          advance
          let right ← lv.expr op.powers.2
          operationsFrom lv limit start n (.binary (← spanFrom start) op e right)
      | none => return e

def operand (lv : Level) (t : Token) : Parser Expr := do
  match operator? UnaryOp.ofText? t with
  | some op =>
    advance
    let e ← lv.expr UnaryOp.power
    return .unary (← spanFrom t.span.start) op e
  | none => simple lv

def subExpression (lv : Level) (limit : Nat) : Parser Expr := do
  let t ← current
  let e ← operand lv t
  operationsFrom lv limit t.span.start lv.loops e

end Parser

end LuaBytecode
