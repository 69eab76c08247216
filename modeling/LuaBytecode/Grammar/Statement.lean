import LuaBytecode.Grammar.Expression

namespace LuaBytecode.Parser

/-- Pads a list of values with nil up to a number, unless its last value may fill the rest. -/
def padValues (values : List Expr) (n : Nat) (pos : Position) : List Expr :=
  match values.getLast? with
  | none => values
  | some last =>
    if last.isMultiValued then values
    else values ++ List.replicate (n - values.length) (.nil (.at pos))

def alternative (lv : Level) : Parser Otherwise := do
  let start := (← current).span.start
  advance
  let body ← closedBlock lv "end"
  return .block (← spanFrom start) body

def conditional (lv : Level) : Parser (Expr × List Stmt × Otherwise) := do
  advance
  let test ← lv.expr 0
  expect "then"
  let body ← block lv
  let t ← current
  if t.is "elseif" then
    return (test, body, ← lv.elseIf)
  else if t.is "else" then
    return (test, body, ← alternative lv)
  else
    expect "end"
    return (test, body, .none)

def elseIfClause (lv : Level) : Parser Otherwise := do
  let start := (← current).span.start
  let (test, body, otherwise) ← conditional lv
  return .elseIf (← spanFrom start) test body otherwise

def namesFrom : Nat → (done : List Ident) → Parser (List Ident)
  | 0, done => return done.reverse
  | n + 1, done => do
      if ← accept "," then
        let id ← name
        namesFrom n (id :: done)
      else return done.reverse

def loopStep (lv : Level) : Parser (Option Expr) := do
  if ← accept "," then return some (← lv.expr 0) else return none

def numericFor (lv : Level) (start : Position) (id : Ident) : Parser Stmt := do
  let first ← lv.expr 0
  expect ","
  let limit ← lv.expr 0
  let step ← loopStep lv
  expect "do"
  let body ← closedBlock lv "end"
  return .numericFor (← spanFrom start) id first limit step body

def genericFor (lv : Level) (start : Position) (id : Ident) : Parser Stmt := do
  let names ← namesFrom lv.loops [id]
  expect "in"
  let exprs ← exprList lv
  expect "do"
  let body ← closedBlock lv "end"
  return .genericFor (← spanFrom start) names exprs body

def forStatement (lv : Level) : Parser Stmt := do
  let start := (← current).span.start
  advance
  let id ← name
  if ← accept "=" then numericFor lv start id
  else
    let t ← current
    if t.is "," || t.is "in" then genericFor lv start id
    else unexpected .assignOrIn

def targetFrom : Nat → Expr → Parser Expr
  | 0, e => return e
  | n + 1, e => do
      if ← accept "." then
        let key ← name
        targetFrom n (fieldOf e key)
      else return e

def methodTarget (target : Expr) : Parser (Expr × Bool) := do
  if ← accept ":" then
    let key ← name
    return (fieldOf target key, true)
  else return (target, false)

def functionStatement (lv : Level) : Parser Stmt := do
  let start := (← current).span.start
  advance
  let id ← name
  let target ← targetFrom lv.loops (.ident id)
  let (target, isMethod) ← methodTarget target
  let f ← functionBody lv start isMethod
  return .function (← spanFrom start) target isMethod f.span f.params f.isVararg f.body

def localFunction (lv : Level) (start : Position) : Parser Stmt := do
  let id ← name
  let f ← functionBody lv start false
  return .localFunction (← spanFrom start) id f.span f.params f.isVararg f.body

def localStatement (lv : Level) (start : Position) : Parser Stmt := do
  let id ← name
  let names ← namesFrom lv.loops [id]
  if ← accept "=" then
    let values ← exprList lv
    let padded := padValues values names.length (← get).prevEnd
    return .declare (← spanFrom start) names padded
  else return .declare (← spanFrom start) names []

def checkAssignable (e : Expr) : Parser Unit :=
  if e.isAssignable then pure () else throw ⟨e.span.start, .notAssignable⟩

/-- The targets of an assignment behind the first, each checked before the next is read. -/
def targetsFrom (lv : Level) : Nat → (done : List Expr) → (latest : Expr) → Parser (List Expr)
  | 0, done, latest => do
      checkAssignable latest
      return (latest :: done).reverse
  | n + 1, done, latest => do
      checkAssignable latest
      if ← accept "," then
        let e ← suffixed lv
        targetsFrom lv n (latest :: done) e
      else return (latest :: done).reverse

def exprStatement (lv : Level) : Parser Stmt := do
  let start := (← current).span.start
  let e ← suffixed lv
  let t ← current
  if t.is "=" || t.is "," then
    let targets ← targetsFrom lv lv.loops [] e
    expect "="
    let values ← exprList lv
    let padded := padValues values targets.length (← get).prevEnd
    return .assign (← spanFrom start) targets padded
  else
    match e with
    | .call span callee method args => return .call span callee method args
    | _ => unexpected .assignOrArguments

def statement (lv : Level) : Parser (Option Stmt) := do
  let t ← current
  let start := t.span.start
  if t.is ";" then
    advance
    return none
  else if t.isFunctionWord then return some (← functionStatement lv)
  else if t.isLocalWord then
    advance
    if (← current).isFunctionWord then
      advance
      return some (← localFunction lv start)
    else return some (← localStatement lv start)
  else if t.is "break" then
    advance
    return some (.break (← spanFrom start))
  else if t.is "do" then
    advance
    let body ← closedBlock lv "end"
    return some (.scope (← spanFrom start) body)
  else if t.is "while" then
    advance
    let cond ← lv.expr 0
    expect "do"
    let body ← closedBlock lv "end"
    return some (.while (← spanFrom start) cond body)
  else if t.is "repeat" then
    advance
    let body ← closedBlock lv "until"
    let cond ← lv.expr 0
    return some (.repeat (← spanFrom start) body cond)
  else if t.is "for" then return some (← forStatement lv)
  else if t.is "if" then
    let (test, body, otherwise) ← conditional lv
    return some (.cond (← spanFrom start) test body otherwise)
  else return some (← exprStatement lv)

end LuaBytecode.Parser
