import LuaBytecode.Tree
import LuaBytecode.Tree.Node
import Mathlib.Algebra.Group.Nat.Defs

namespace LuaBytecode

open SyntaxNode

def isHidden (name : Bytes) : Bool := name.head? = some (byte '(')

mutual

def Expr.WellFormed : Expr → Prop
  | .ident id => isHidden id.name = false
  | .nil _ | .bool .. | .number .. | .string .. | .vararg _ => True
  | .function _ _ _ body => Stmt.AllWellFormed body
  | .binary _ _ left right => left.WellFormed ∧ right.WellFormed
  | .unary _ _ operand => operand.WellFormed
  | .member _ object key _ => object.WellFormed ∧ key.WellFormed
  | .call _ callee _ args => callee.WellFormed ∧ Expr.AllWellFormed args
  | .paren _ inner => inner.WellFormed
  | .table _ fields => fields.length < 2 ^ 64 ∧ Field.AllWellFormed fields

def Expr.AllWellFormed : List Expr → Prop
  | [] => True
  | e :: rest => e.WellFormed ∧ Expr.AllWellFormed rest

def Field.WellFormed : Field → Prop
  | .mk _ _ key value => key.WellFormed ∧ value.WellFormed

def Field.AllWellFormed : List Field → Prop
  | [] => True
  | f :: rest => f.WellFormed ∧ Field.AllWellFormed rest

def Stmt.WellFormed : Stmt → Prop
  | .assign _ targets values =>
    (∀ e ∈ targets, e.isAssignable = true) ∧ Expr.AllWellFormed targets ∧ Expr.AllWellFormed values
  | .call _ callee _ args => callee.WellFormed ∧ Expr.AllWellFormed args
  | .declare _ _ values => Expr.AllWellFormed values
  | .function _ target _ _ _ _ body =>
    target.isAssignable = true ∧ target.WellFormed ∧ Stmt.AllWellFormed body
  | .localFunction _ _ _ _ _ body => Stmt.AllWellFormed body
  | .scope _ body => Stmt.AllWellFormed body
  | .while _ cond body => cond.WellFormed ∧ Stmt.AllWellFormed body
  | .repeat _ body cond => Stmt.AllWellFormed body ∧ cond.WellFormed
  | .cond _ test body otherwise =>
    test.WellFormed ∧ Stmt.AllWellFormed body ∧ otherwise.WellFormed
  | .numericFor _ _ first limit none body =>
    first.WellFormed ∧ limit.WellFormed ∧ Stmt.AllWellFormed body
  | .numericFor _ _ first limit (some step) body =>
    first.WellFormed ∧ limit.WellFormed ∧ step.WellFormed ∧ Stmt.AllWellFormed body
  | .genericFor _ _ exprs body => Expr.AllWellFormed exprs ∧ Stmt.AllWellFormed body
  | .return _ values => Expr.AllWellFormed values
  | .break _ => True

def Stmt.AllWellFormed : List Stmt → Prop
  | [] => True
  | s :: rest => s.WellFormed ∧ Stmt.AllWellFormed rest

def Otherwise.WellFormed : Otherwise → Prop
  | .none => True
  | .elseIf _ test body otherwise =>
    test.WellFormed ∧ Stmt.AllWellFormed body ∧ otherwise.WellFormed
  | .block _ body => Stmt.AllWellFormed body

end

def Expr.parts : Expr → List SyntaxNode
  | .ident _ | .nil _ | .bool .. | .number .. | .string .. | .vararg _ => []
  | .function _ params _ body => params.map .ident ++ body.map .stmt
  | .binary _ _ left right => [.expr left, .expr right]
  | .unary _ _ operand => [.expr operand]
  | .member _ object key _ => [.expr object, .expr key]
  | .call _ callee method args => .expr callee :: method.toList.map .ident ++ args.map .expr
  | .paren _ inner => [.expr inner]
  | .table _ fields => fields.map .field

def Otherwise.parts : Otherwise → List SyntaxNode
  | .none => []
  | .elseIf span test body otherwise => [.stmt (.cond span test body otherwise)]
  | .block span body => [.block span body]

def Stmt.parts : Stmt → List SyntaxNode
  | .assign _ targets values => targets.map .expr ++ values.map .expr
  | .call span callee method args => [.expr (.call span callee method args)]
  | .declare _ names values => names.map .ident ++ values.map .expr
  | .function _ target _ span params isVararg body =>
    [.expr target, .expr (.function span params isVararg body)]
  | .localFunction _ name span params isVararg body =>
    [.ident name, .expr (.function span params isVararg body)]
  | .scope _ body => body.map .stmt
  | .while _ test body => .expr test :: body.map .stmt
  | .repeat _ body test => body.map .stmt ++ [.expr test]
  | .cond _ test body otherwise => .expr test :: body.map .stmt ++ otherwise.parts
  | .numericFor _ name first limit step body =>
    [.ident name, .expr first, .expr limit] ++ step.toList.map .expr ++ body.map .stmt
  | .genericFor _ names exprs body => names.map .ident ++ exprs.map .expr ++ body.map .stmt
  | .return _ values => values.map .expr
  | .break _ => []

namespace SyntaxNode

def children : SyntaxNode → List SyntaxNode
  | .chunk t => t.body.map .stmt
  | .stmt s => s.parts
  | .block _ body => body.map .stmt
  | .expr e => e.parts
  | .field f => [.expr f.key, .expr f.value]

inductive Occurs (x : SyntaxNode) : SyntaxNode → Prop
  | self : Occurs x x
  | child {y c} : c ∈ y.children → Occurs x c → Occurs x y

def Everywhere (P : SyntaxNode → Prop) (y : SyntaxNode) : Prop := ∀ x, Occurs x y → P x

lemma everywhere_of {P : SyntaxNode → Prop} {y : SyntaxNode} (hy : P y)
    (hc : ∀ c ∈ y.children, c.Everywhere P) : y.Everywhere P := by
  intro x hx
  cases hx with
  | self => exact hy
  | child hm hx => exact hc _ hm x hx

lemma Everywhere.self {P : SyntaxNode → Prop} {x : SyntaxNode} (h : x.Everywhere P) : P x :=
  h x .self

lemma Everywhere.children {P : SyntaxNode → Prop} {x : SyntaxNode} (h : x.Everywhere P) :
    ∀ c ∈ x.children, c.Everywhere P := fun _ hc y hy => h y (.child hc hy)

/-- Literals have values, names are not hidden, tables have less than `k` entries, and only names
and members are assigned to. -/
def Proper (k : Nat) : SyntaxNode → Prop
  | .expr (.number _ raw) => (parseNumeral? raw).isSome
  | .expr (.string _ raw long) => (stringValue raw long).isOk
  | .expr (.ident id) => isHidden id.name = false ∧ (stringValue id.name false).isOk
  | .expr (.table _ fields) => fields.length < k
  | .stmt (.assign _ targets _) => ∀ e ∈ targets, e.isAssignable = true
  | .stmt (.function _ target ..) => target.isAssignable = true
  | _ => True

abbrev WellFormed (k : Nat) (x : SyntaxNode) : Prop := x.Everywhere (Proper k)

def Valued (lax : Prop) (x : SyntaxNode) : Prop := lax ∨ x.WellFormed (2 ^ 64)

lemma Valued.children {lax : Prop} {x : SyntaxNode} (h : x.Valued lax) :
    ∀ c ∈ x.children, c.Valued lax := fun c hc => h.imp_right fun h => h.children c hc

lemma Valued.value {lax : Prop} {x : SyntaxNode} (h : x.Valued lax) : lax ∨ x.Proper (2 ^ 64) :=
  h.imp_right Everywhere.self

end SyntaxNode

lemma Expr.nodes_eq (es : List Expr) : Expr.nodes es = es.map fun e => node (.expr e) := by
  induction es with
  | nil => rfl
  | cons e rest ih => rw [Expr.nodes, ih, List.map_cons]; rfl

lemma Stmt.nodes_eq (body : List Stmt) : Stmt.nodes body = body.map fun s => node (.stmt s) := by
  induction body with
  | nil => rfl
  | cons s rest ih => rw [Stmt.nodes, ih, List.map_cons]; rfl

lemma Field.nodes_eq (fields : List Field) :
    Field.nodes fields = fields.map fun f => node (.field f) := by
  induction fields with
  | nil => rfl
  | cons f rest ih => rw [Field.nodes, ih, List.map_cons]; rfl

lemma Expr.childNodes_eq (e : Expr) : e.childNodes = e.parts.map node := by
  cases e <;>
    simp [Expr.childNodes, Expr.parts, Expr.nodes_eq, Stmt.nodes_eq, Field.nodes_eq, node,
      Ident.node, Function.comp_def]

lemma Otherwise.nodes_eq (o : Otherwise) : o.nodes = o.parts.map node := by
  cases o <;> simp [Otherwise.nodes, Otherwise.parts, node, Stmt.childNodes]

lemma Stmt.childNodes_eq (s : Stmt) : s.childNodes = s.parts.map node := by
  cases s with
  | numericFor span name first limit step body =>
    cases step <;>
      simp [Stmt.childNodes, Stmt.parts, Stmt.nodes_eq, node, ident, Ident.node,
        Expr.childNodes, Function.comp_def]
  | _ =>
    simp [Stmt.childNodes, Stmt.parts, Expr.nodes_eq, Stmt.nodes_eq, Otherwise.nodes_eq,
      node, ident, Ident.node, Expr.childNodes, Function.comp_def]

lemma SyntaxNode.node_eq (x : SyntaxNode) : x.node = .mk x (x.children.map node) := by
  cases x with
  | chunk t => exact congrArg (Node.mk _) (by simp [Stmt.nodes_eq, children])
  | stmt s => exact congrArg (Node.mk _) s.childNodes_eq
  | block span body => exact congrArg (Node.mk _) (by simp [Stmt.nodes_eq, children])
  | expr e => exact congrArg (Node.mk _) e.childNodes_eq
  | field f =>
    obtain ⟨span, kind, key, value⟩ := f
    rfl

end LuaBytecode
