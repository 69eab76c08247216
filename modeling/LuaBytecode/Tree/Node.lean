import LuaBytecode.Tree

namespace LuaBytecode

inductive NodeLabel where
  | chunk
  | assignStmt
  | callStmt
  | localStmt
  | functionStmt (isMethod isLocal : Bool)
  | doStmt
  | whileStmt
  | repeatStmt
  | ifStmt
  | blockStmt
  | numericForStmt
  | genericForStmt
  | returnStmt
  | breakStmt
  | ident (name : Bytes)
  | nilLit
  | boolLit (value : Bool)
  | numberLit (raw : Bytes)
  | stringLit (raw : Bytes) (long : Bool)
  | varargExpr
  | functionExpr (isVararg : Bool) (params : Nat)
  | binaryExpr (op : BinaryOp)
  | unaryExpr (op : UnaryOp)
  | memberExpr (computed : Bool)
  | callExpr (isMethod : Bool) (args : Nat)
  | parenExpr
  | tableExpr
  | tableField (kind : FieldKind) (isMethod : Bool)
  deriving DecidableEq, Repr

def NodeLabel.typeName : NodeLabel → Bytes
  | .chunk => "Chunk"
  | .assignStmt => "AssignStmt"
  | .callStmt => "CallStmt"
  | .localStmt => "LocalStmt"
  | .functionStmt .. => "FunctionStmt"
  | .doStmt => "DoStmt"
  | .whileStmt => "WhileStmt"
  | .repeatStmt => "RepeatStmt"
  | .ifStmt => "IfStmt"
  | .blockStmt => "BlockStmt"
  | .numericForStmt => "NumericForStmt"
  | .genericForStmt => "GenericForStmt"
  | .returnStmt => "ReturnStmt"
  | .breakStmt => "BreakStmt"
  | .ident _ => "Ident"
  | .nilLit => "NilLit"
  | .boolLit _ => "BoolLit"
  | .numberLit _ => "NumberLit"
  | .stringLit .. => "StringLit"
  | .varargExpr => "VarargExpr"
  | .functionExpr .. => "FunctionExpr"
  | .binaryExpr _ => "BinaryExpr"
  | .unaryExpr _ => "UnaryExpr"
  | .memberExpr _ => "MemberExpr"
  | .callExpr .. => "CallExpr"
  | .parenExpr => "ParenExpr"
  | .tableExpr => "TableExpr"
  | .tableField .. => "TableField"

inductive SyntaxNode where
  | chunk (tree : SourceTree)
  | stmt (s : Stmt)
  | block (span : Span) (body : List Stmt)
  | expr (e : Expr)
  | field (f : Field)

def Expr.label : Expr → NodeLabel
  | .ident id => .ident id.name
  | .nil _ => .nilLit
  | .bool _ value => .boolLit value
  | .number _ raw => .numberLit raw
  | .string _ raw long => .stringLit raw long
  | .vararg _ => .varargExpr
  | .function _ params isVararg _ => .functionExpr isVararg params.length
  | .binary _ op .. => .binaryExpr op
  | .unary _ op _ => .unaryExpr op
  | .member _ _ _ computed => .memberExpr computed
  | .call _ _ method args => .callExpr method.isSome args.length
  | .paren .. => .parenExpr
  | .table .. => .tableExpr

def Stmt.label : Stmt → NodeLabel
  | .assign .. => .assignStmt
  | .call .. => .callStmt
  | .declare .. => .localStmt
  | .function _ _ isMethod .. => .functionStmt isMethod false
  | .localFunction .. => .functionStmt false true
  | .scope .. => .doStmt
  | .while .. => .whileStmt
  | .repeat .. => .repeatStmt
  | .cond .. => .ifStmt
  | .numericFor .. => .numericForStmt
  | .genericFor .. => .genericForStmt
  | .return .. => .returnStmt
  | .break _ => .breakStmt

namespace SyntaxNode

abbrev ident (id : Ident) : SyntaxNode := .expr (.ident id)

def label : SyntaxNode → NodeLabel
  | .chunk _ => .chunk
  | .stmt s => s.label
  | .block .. => .blockStmt
  | .expr e => e.label
  | .field f => .tableField f.kind f.value.isFunction

def span : SyntaxNode → Span
  | .chunk t => t.span
  | .stmt s => s.span
  | .block s _ => s
  | .expr e => e.span
  | .field f => f.span

end SyntaxNode

inductive Node (α : Type) where
  | mk (label : α) (children : List (Node α))

def Ident.node (id : Ident) : Node SyntaxNode := .mk (.ident id) []

mutual

def Expr.childNodes : Expr → List (Node SyntaxNode)
  | .ident _ | .nil _ | .bool .. | .number .. | .string .. | .vararg _ => []
  | .function _ params _ body => params.map Ident.node ++ Stmt.nodes body
  | .binary _ _ left right => [.mk (.expr left) left.childNodes, .mk (.expr right) right.childNodes]
  | .unary _ _ operand => [.mk (.expr operand) operand.childNodes]
  | .member _ object key _ => [.mk (.expr object) object.childNodes, .mk (.expr key) key.childNodes]
  | .call _ callee method args =>
    .mk (.expr callee) callee.childNodes :: method.toList.map Ident.node ++ Expr.nodes args
  | .paren _ inner => [.mk (.expr inner) inner.childNodes]
  | .table _ fields => Field.nodes fields

def Expr.nodes : List Expr → List (Node SyntaxNode)
  | [] => []
  | e :: rest => .mk (.expr e) e.childNodes :: Expr.nodes rest

def Field.childNodes : Field → List (Node SyntaxNode)
  | .mk _ _ key value => [.mk (.expr key) key.childNodes, .mk (.expr value) value.childNodes]

def Field.nodes : List Field → List (Node SyntaxNode)
  | [] => []
  | f :: rest => .mk (.field f) f.childNodes :: Field.nodes rest

def Stmt.childNodes : Stmt → List (Node SyntaxNode)
  | .assign _ targets values => Expr.nodes targets ++ Expr.nodes values
  | .call span callee method args =>
    [.mk (.expr (.call span callee method args))
      (.mk (.expr callee) callee.childNodes :: method.toList.map Ident.node ++ Expr.nodes args)]
  | .declare _ names values => names.map Ident.node ++ Expr.nodes values
  | .function _ target _ span params isVararg body =>
    [.mk (.expr target) target.childNodes, .mk (.expr (.function span params isVararg body))
      (params.map Ident.node ++ Stmt.nodes body)]
  | .localFunction _ name span params isVararg body =>
    [name.node, .mk (.expr (.function span params isVararg body))
      (params.map Ident.node ++ Stmt.nodes body)]
  | .scope _ body => Stmt.nodes body
  | .while _ cond body => .mk (.expr cond) cond.childNodes :: Stmt.nodes body
  | .repeat _ body cond => Stmt.nodes body ++ [.mk (.expr cond) cond.childNodes]
  | .cond _ test body otherwise =>
    .mk (.expr test) test.childNodes :: Stmt.nodes body ++ otherwise.nodes
  | .numericFor _ name first limit none body =>
    name.node :: .mk (.expr first) first.childNodes :: .mk (.expr limit) limit.childNodes ::
      Stmt.nodes body
  | .numericFor _ name first limit (some step) body =>
    name.node :: .mk (.expr first) first.childNodes :: .mk (.expr limit) limit.childNodes ::
      .mk (.expr step) step.childNodes :: Stmt.nodes body
  | .genericFor _ names exprs body =>
    names.map Ident.node ++ Expr.nodes exprs ++ Stmt.nodes body
  | .return _ values => Expr.nodes values
  | .break _ => []

def Stmt.nodes : List Stmt → List (Node SyntaxNode)
  | [] => []
  | s :: rest => .mk (.stmt s) s.childNodes :: Stmt.nodes rest

def Otherwise.nodes : Otherwise → List (Node SyntaxNode)
  | .none => []
  | .elseIf span test body otherwise =>
    [.mk (.stmt (.cond span test body otherwise))
      (.mk (.expr test) test.childNodes :: Stmt.nodes body ++ otherwise.nodes)]
  | .block span body => [.mk (.block span body) (Stmt.nodes body)]

end

def SyntaxNode.node (x : SyntaxNode) : Node SyntaxNode := .mk x <| match x with
    | .chunk t => Stmt.nodes t.body
    | .stmt s => s.childNodes
    | .block _ body => Stmt.nodes body
    | .expr e => e.childNodes
    | .field f => f.childNodes

def SourceTree.node (t : SourceTree) : Node SyntaxNode := SyntaxNode.node (.chunk t)

namespace Node

variable {α : Type}

mutual

def inspectFrom (descend : α → Bool) (done : List (Option α)) : Node α → List (Option α)
  | .mk x children =>
    if descend x then none :: inspectAllFrom descend (some x :: done) children else some x :: done

def inspectAllFrom (descend : α → Bool) (done : List (Option α)) : List (Node α) → List (Option α)
  | [] => done
  | n :: rest => inspectAllFrom descend (n.inspectFrom descend done) rest

end

/-- The labels of the nodes that a visit enters, and `none` wherever it leaves one. -/
def inspect (n : Node α) (descend : α → Bool) : List (Option α) :=
  (n.inspectFrom descend []).reverse

end Node

inductive VisitEvent where
  | enter (label : NodeLabel) (span : Span)
  | leave
  deriving DecidableEq, Repr

def VisitEvent.ofNode? : Option SyntaxNode → VisitEvent
  | some x => .enter x.label x.span
  | none => .leave

def Node.visit (n : Node SyntaxNode) (descend : NodeLabel → Bool) : List VisitEvent :=
  (n.inspect fun x => descend x.label).map .ofNode?

end LuaBytecode
