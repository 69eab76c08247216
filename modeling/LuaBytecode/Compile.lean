import LuaBytecode.Chunk
import LuaBytecode.Generator.Statement
import LuaBytecode.Grammar

namespace LuaBytecode

def Stmt.isBreak : Stmt → Bool
  | .break _ => true
  | _ => false

def lastLine (fallback : Int) (body : List Stmt) : Int :=
  match body.getLast? with
  | some s => s.span.stop.line
  | none => fallback

mutual

def Expr.code : Expr → ExprCode
  | .ident id => .ofName id
  | .nil s => .ofLiteral s.start (.ok .nil)
  | .bool s b => .ofLiteral s.start (.ok (.bool b))
  | .number s raw => .ofNumber s.start raw
  | .string s raw long => .ofString s.start raw long
  | .vararg s => .ofVararg s.start
  | .function s params isVararg body => .ofFunction s params isVararg (Stmt.codeAll body)
  | .binary s op left right => .ofBinary s.start op left.code right.code
  | .unary s op operand => .ofUnary s.start op operand.code
  | .member s object key _ => .ofMember s.start object.code key.code
  | .call s callee method args => .ofCall s.start callee.code method (Expr.codesOnto [] args)
  | .paren s inner => .ofParen s.start inner.code
  | .table s fields => .ofTable s.start (Field.codesOnto [] fields)

def Expr.codesOnto (done : List ExprCode) : List Expr → List ExprCode
  | [] => done.reverse
  | e :: rest => Expr.codesOnto (e.code :: done) rest

def Field.code : Field → FieldCode
  | .mk s kind key value => ⟨s.start, kind, key.code, value.code⟩

def Field.codesOnto (done : List FieldCode) : List Field → List FieldCode
  | [] => done.reverse
  | f :: rest => Field.codesOnto (f.code :: done) rest

def Stmt.code : Stmt → Gen Unit
  | .assign s targets values =>
    Gen.assign s.start (Expr.codesOnto [] targets) (Expr.codesOnto [] values)
  | .call s callee method args =>
    Gen.callStatement (.ofCall s.start callee.code method (Expr.codesOnto [] args))
  | .declare _ names values => Gen.declareLocals names (Expr.codesOnto [] values)
  | .function s target _ bodySpan params isVararg body =>
    Gen.declareFunction s.start target.code
      (.ofFunction bodySpan params isVararg (Stmt.codeAll body))
  | .localFunction _ name bodySpan params isVararg body =>
    Gen.declareLocalFunction name.name (Gen.closure bodySpan params isVararg (Stmt.codeAll body))
  | .scope _ body => Gen.block (Stmt.codeAll body)
  | .while s cond body =>
    Gen.whileLoop cond.code (Stmt.codeAll body) (lastLine s.start.line body)
  | .repeat _ body cond => Gen.repeatLoop (Stmt.codeAll body) cond.code
  | .cond _ test body otherwise =>
    let clause := Gen.clause test.code (Stmt.clauseBody body)
    Otherwise.code clause otherwise []
  | .numericFor s name first limit none body =>
    Gen.numericFor s.start name.name first.code limit.code none (Stmt.codeAll body)
  | .numericFor s name first limit (some step) body =>
    Gen.numericFor s.start name.name first.code limit.code (some step.code) (Stmt.codeAll body)
  | .genericFor s names exprs body =>
    Gen.genericFor s.start names (Expr.codesOnto [] exprs) (Stmt.codeAll body)
  | .return s values => Gen.returnStatement s.start (Expr.codesOnto [] values)
  | .break _ => Gen.breakStatement

def Stmt.codeAll : List Stmt → Gen Unit
  | [] => return
  | s :: rest => do
      Gen.statement s.span.start s.code
      Stmt.codeAll rest

def Stmt.clauseBody : List Stmt → ClauseBody
  | [] => ⟨return, none⟩
  | s :: rest =>
    let tail := Stmt.codeAll rest
    let all := do
      Gen.statement s.span.start s.code
      tail
    ⟨all, if s.isBreak then some (if rest.isEmpty then none else some tail) else none⟩

def Otherwise.code (clause : (isLast : Bool) → List Nat → Gen (List Nat)) :
    Otherwise → List Nat → Gen Unit
  | .none, escapes => do Gen.patchToHere (← clause true escapes)
  | .elseIf s test body otherwise, escapes => do
      let escapes ← clause false escapes
      Gen.setPos s.start
      Otherwise.code (Gen.clause test.code (Stmt.clauseBody body)) otherwise escapes
  | .block _ body, escapes => do
      let escapes ← clause false escapes
      Gen.block (Stmt.codeAll body)
      Gen.patchToHere escapes

end

def Generator.start (source : ChunkName) : Generator :=
  let main := Draft.new source 0 true 0 0 #[⟨environmentName, true, 0⟩]
  ⟨main.enterBlock false, []⟩

def SourceTree.code (tree : SourceTree) : Gen Unit := do
  Stmt.codeAll tree.body
  Gen.finish (lastLine 1 tree.body)

def generate (source : ChunkName) (tree : SourceTree) : Except GenerateError Chunk := do
  let ((), g) ← tree.code (Generator.start source)
  return {
    header := .default
    upvalueCount := g.upvalues.size.toUInt8
    main := some g.prototype }

inductive SourceError where
  | parse (e : ParseError)
  | generate (e : GenerateError)

def compile (source : ChunkName) (src : Bytes) : Except SourceError Chunk := do
  let tree ← (parse source.shown src).mapError .parse
  (generate source tree).mapError .generate

end LuaBytecode
