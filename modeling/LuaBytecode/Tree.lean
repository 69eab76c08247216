import LuaBytecode.Numeral
import LuaBytecode.Operator
import LuaBytecode.Text.Escape

namespace LuaBytecode

structure Ident where
  span : Span
  name : Bytes
  deriving DecidableEq, Repr, Inhabited

inductive FieldKind where
  | positional
  | named
  | computed
  deriving DecidableEq, Repr

namespace FieldKind

def all : List FieldKind := [.positional, .named, .computed]

def text : FieldKind → Bytes
  | .positional => "positional"
  | .named => "named"
  | .computed => "computed"

end FieldKind

mutual

inductive Expr where
  | ident (id : Ident)
  | nil (span : Span)
  | bool (span : Span) (value : Bool)
  | number (span : Span) (raw : Bytes)
  | string (span : Span) (raw : Bytes) (long : Bool)
  | vararg (span : Span)
  | function (span : Span) (params : List Ident) (isVararg : Bool) (body : List Stmt)
  | binary (span : Span) (op : BinaryOp) (left right : Expr)
  | unary (span : Span) (op : UnaryOp) (operand : Expr)
  | member (span : Span) (object key : Expr) (computed : Bool)
  | call (span : Span) (callee : Expr) (method : Option Ident) (args : List Expr)
  | paren (span : Span) (inner : Expr)
  | table (span : Span) (fields : List Field)

inductive Field where
  | mk (span : Span) (kind : FieldKind) (key value : Expr)

inductive Stmt where
  | assign (span : Span) (targets values : List Expr)
  | call (span : Span) (callee : Expr) (method : Option Ident) (args : List Expr)
  | declare (span : Span) (names : List Ident) (values : List Expr)
  | function (span : Span) (target : Expr) (isMethod : Bool) (bodySpan : Span)
      (params : List Ident) (isVararg : Bool) (body : List Stmt)
  | localFunction (span : Span) (name : Ident) (bodySpan : Span) (params : List Ident)
      (isVararg : Bool) (body : List Stmt)
  | scope (span : Span) (body : List Stmt)
  | while (span : Span) (cond : Expr) (body : List Stmt)
  | repeat (span : Span) (body : List Stmt) (cond : Expr)
  | cond (span : Span) (test : Expr) (body : List Stmt) (otherwise : Otherwise)
  | numericFor (span : Span) (name : Ident) (first limit : Expr) (step : Option Expr)
      (body : List Stmt)
  | genericFor (span : Span) (names : List Ident) (exprs : List Expr) (body : List Stmt)
  | return (span : Span) (values : List Expr)
  | break (span : Span)

inductive Otherwise where
  | none
  | elseIf (span : Span) (test : Expr) (body : List Stmt) (otherwise : Otherwise)
  | block (span : Span) (body : List Stmt)

end

instance : Inhabited Expr := ⟨.nil default⟩
instance : Inhabited Stmt := ⟨.break default⟩

namespace Expr

def span : Expr → Span
  | .ident id => id.span
  | .nil s | .bool s _ | .number s _ | .string s _ _ | .vararg s | .function s .. | .binary s ..
  | .unary s .. | .member s .. | .call s .. | .paren s _ | .table s _ => s

def isMultiValued : Expr → Bool
  | .call .. | .vararg _ => true
  | _ => false

def isAssignable : Expr → Bool
  | .ident _ | .member .. => true
  | _ => false

def isFunction : Expr → Bool
  | .function .. => true
  | _ => false

end Expr

def stringValue (raw : Bytes) (long : Bool) : Except EscapeError Bytes :=
  if long then .ok raw else (unescape raw).mapError (·.2)

namespace Field

def span : Field → Span
  | .mk s .. => s

def kind : Field → FieldKind
  | .mk _ k .. => k

def key : Field → Expr
  | .mk _ _ k _ => k

def value : Field → Expr
  | .mk _ _ _ v => v

end Field

def Stmt.span : Stmt → Span
  | .assign s .. | .call s .. | .declare s .. | .function s .. | .localFunction s .. | .scope s _
  | .while s .. | .repeat s .. | .cond s .. | .numericFor s .. | .genericFor s .. | .return s _
  | .break s => s

structure SourceTree where
  span : Span
  body : List Stmt

end LuaBytecode
