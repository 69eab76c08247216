import LuaBytecode.Text.Shown
import LuaBytecode.Tree

namespace LuaBytecode

mutual

inductive Yaml where
  | null
  | bool (value : Bool)
  | plain (text : Bytes)
  | quoted (text : Bytes)
  | seq (items : List Yaml)
  | map (entries : List YamlEntry)

inductive YamlEntry where
  | mk (key : Bytes) (value : Yaml)

end

namespace Yaml

def booleanWords : List Bytes :=
  ["true", "True", "TRUE", "false", "False", "FALSE", "y", "Y", "yes", "Yes", "YES", "n", "N", "no",
   "No", "NO", "on", "On", "ON", "off", "Off", "OFF"].map .ofString

/-- Whether every character may stand in a number, given the index of the first and what came
before: a point, and an exponent behind one. -/
def numberLike (isHex : Bool) : (index : Nat) → (point exponent : Bool) → Bytes → Bool
  | _, _, _, [] => true
  | index, point, exponent, c :: rest =>
    if isDigit c || c = byte '_' then numberLike isHex (index + 1) point exponent rest
    else if (c = byte 'x' || c = byte 'o' || c = byte 'b') && index = 1 then
      numberLike isHex (index + 1) point exponent rest
    else if isHexDigit c && isHex then numberLike isHex (index + 1) point exponent rest
    else if (c = byte 'e' || c = byte 'E') && point then
      numberLike isHex (index + 1) point true rest
    else if c = byte '.' && !point then numberLike isHex (index + 1) true exponent rest
    else if (c = byte '+' || c = byte '-') && (index = 0 || exponent) then
      numberLike isHex (index + 1) point exponent rest
    else false

def looksLikeNumber (text : Bytes) : Bool :=
  !text.isEmpty && text != [byte '.'] && text.head? != some (byte '_') &&
    numberLike (Bytes.startsWith text "0x" && decide (2 < text.length)) 0 false false text

def needsQuotes (text : Bytes) : Bool := booleanWords.contains text || looksLikeNumber text

def hexDigits? (count : Nat) (text : Bytes) : Option Nat :=
  let digits := text.take count
  if digits.length = count && digits.all isHexDigit then
    some (digits.foldl (fun n c => n * 16 + (hexValue? c).getD 0) 0)
  else none

def readEscape : Bytes → Option (Bytes × Nat)
  | [] => none
  | c :: rest =>
    let code := fun count => (hexDigits? count rest).map fun x => (Utf8.encode x, count + 1)
    if c = byte 'b' then some ([0x08], 1)
    else if c = byte 'e' then some ([0x1b], 1)
    else if c = byte 'f' then some ([0x0c], 1)
    else if c = byte 'n' then some ([0x0a], 1)
    else if c = byte 'r' then some ([0x0d], 1)
    else if c = byte 'v' then some ([0x0b], 1)
    else if c = byte '"' || c = byte '\\' then some ([c], 1)
    else if c = byte 'x' then code 2
    else if c = byte 'u' then code 4
    else if c = byte 'U' then code 8
    else none

def readQuotedFrom : (skip : Nat) → (done : Bytes) → Bytes → Bytes
  | _, done, [] => done.reverse
  | skip + 1, done, _ :: rest => readQuotedFrom skip done rest
  | 0, done, c :: rest =>
    if c = byte '\\' then
      match readEscape rest with
      | some (out, size) => readQuotedFrom size (out.reverse ++ done) rest
      | none => readQuotedFrom 0 (c :: done) rest
    else readQuotedFrom 0 (c :: done) rest

/-- A double-quoted scalar: the shown text, taken through a reader of such scalars once. -/
def quotedText (text : Bytes) : Bytes := shown (readQuotedFrom 0 [] (Shown.spellFrom 0 [] text))

def plainText (text : Bytes) : Bytes := if needsQuotes text then shown text else text

mutual

def lines : Yaml → List Bytes
  | .null => ["null"]
  | .bool value => [.ofString (if value then "true" else "false")]
  | .plain text => [plainText text]
  | .quoted text => [quotedText text]
  | .seq [] => ["[]"]
  | .seq items => itemLines items
  | .map entries => entryLines entries

def itemLines : List Yaml → List Bytes
  | [] => []
  | y :: rest =>
    (match lines y with
      | [] => []
      | first :: more =>
        ("- " ++ first) :: more.map fun line => "  " ++ line) ++
    itemLines rest

def entryLines : List YamlEntry → List Bytes
  | [] => []
  | .mk key value :: rest =>
    (match value with
      | .map entries =>
        (key ++ [byte ':']) :: (entryLines entries).map fun line => "  " ++ line
      | .seq (y :: more) => (key ++ [byte ':']) :: itemLines (y :: more)
      | value => (lines value).map fun line => key ++ ": " ++ line) ++
    entryLines rest

end

def document (y : Yaml) : Bytes := (lines y).flatMap fun line => line ++ [byte '\n']

end Yaml

open Yaml in
def yamlNode (type : String) (entries : List (String × Yaml)) : Yaml :=
  .map (.mk "type" (.plain (.ofString type)) ::
    entries.map fun (key, value) => .mk (.ofString key) value)

def Ident.yaml (id : Ident) : Yaml := yamlNode "Id" [("value", .plain id.name)]

def yamlParams (params : List Ident) (isVararg : Bool) : Yaml :=
  .seq (params.map Ident.yaml ++ if isVararg then [yamlNode "VarArg" []] else [])

mutual

def Expr.yaml : Expr → Yaml
  | .ident id => id.yaml
  | .nil _ => yamlNode "Nil" []
  | .bool _ value => yamlNode "Boolean" [("value", .bool value)]
  | .number _ raw => yamlNode "Number" [("value", .plain raw)]
  | .string _ raw _ => yamlNode "String" [("value", .quoted raw)]
  | .vararg _ => yamlNode "VarArg" []
  | .function _ params isVararg body =>
    yamlNode "FunDecExpr" [("params", yamlParams params isVararg), ("body", .seq (Stmt.yamls body))]
  | .binary _ op left right =>
    yamlNode "BinaryExpr" [("op", .quoted op.text), ("left", left.yaml), ("right", right.yaml)]
  | .unary _ op operand => yamlNode "UnaryExpr" [("op", .quoted op.text), ("arg", operand.yaml)]
  | .member _ object key computed =>
    yamlNode "MemberExpr" [("obj", object.yaml), ("prop", key.yaml), ("computed", .bool computed)]
  | .call _ callee method args =>
    yamlNode "CallExpr" (("callee", callee.yaml) ::
      method.toList.map (fun id => ("method", id.yaml)) ++ [("args", .seq (Expr.yamls args))])
  | .paren _ inner => yamlNode "ParenExpr" [("expr", inner.yaml)]
  | .table _ fields => yamlNode "ObjExpr" [("props", .seq (Field.yamls fields))]

def Expr.yamls : List Expr → List Yaml
  | [] => []
  | e :: rest => e.yaml :: Expr.yamls rest

def Field.yaml : Field → Yaml
  | .mk _ _ key (.function _ params isVararg body) =>
    yamlNode "ObjMethod" [("key", key.yaml), ("params", yamlParams params isVararg),
       ("body", .seq (Stmt.yamls body))]
  | .mk _ kind key value =>
    yamlNode "ObjProp"
      [("key", key.yaml), ("value", value.yaml), ("computed", .bool (kind != .named))]

def Field.yamls : List Field → List Yaml
  | [] => []
  | f :: rest => f.yaml :: Field.yamls rest

def Stmt.yaml : Stmt → Yaml
  | .assign _ targets values =>
    yamlNode "AssignStmt" [("left", .seq (Expr.yamls targets)), ("right", .seq (Expr.yamls values))]
  | .call _ callee method args =>
    yamlNode "CallStmt" (("callee", callee.yaml) ::
      method.toList.map (fun id => ("method", id.yaml)) ++ [("args", .seq (Expr.yamls args))])
  | .declare _ names values =>
    yamlNode "VarDecStmt"
      [("nameList", .seq (names.map Ident.yaml)), ("exprList", .seq (Expr.yamls values))]
  | .function _ target isMethod _ params isVararg body =>
    yamlNode "FunDecStmt"
      [("id", target.yaml), ("method", .bool isMethod), ("params", yamlParams params isVararg),
       ("body", .seq (Stmt.yamls body)), ("isLocal", .bool false)]
  | .localFunction _ name _ params isVararg body =>
    yamlNode "FunDecStmt"
      [("id", name.yaml), ("method", .bool false), ("params", yamlParams params isVararg),
       ("body", .seq (Stmt.yamls body)), ("isLocal", .bool true)]
  | .scope _ body => yamlNode "DoStmt" [("body", .seq (Stmt.yamls body))]
  | .while _ cond body =>
    yamlNode "WhileStmt" [("test", cond.yaml), ("body", .seq (Stmt.yamls body))]
  | .repeat _ body cond =>
    yamlNode "RepeatStmt" [("body", .seq (Stmt.yamls body)), ("test", cond.yaml)]
  | .cond _ test body otherwise =>
    yamlNode "IfStmt"
      [("test", test.yaml), ("then", .seq (Stmt.yamls body)), ("else", otherwise.yaml)]
  | .numericFor _ name first limit none body =>
    yamlNode "ForStmt" [("init", .seq
        [yamlNode "AssignExpr" [("left", .seq [name.yaml]), ("right", .seq [first.yaml])],
         limit.yaml, .null]),
       ("body", .seq (Stmt.yamls body))]
  | .numericFor _ name first limit (some step) body =>
    yamlNode "ForStmt" [("init", .seq
        [yamlNode "AssignExpr" [("left", .seq [name.yaml]), ("right", .seq [first.yaml])],
         limit.yaml, step.yaml]),
       ("body", .seq (Stmt.yamls body))]
  | .genericFor _ names exprs body =>
    yamlNode "ForInStmt"
      [("nameList", .seq (names.map Ident.yaml)), ("exprList", .seq (Expr.yamls exprs)),
       ("body", .seq (Stmt.yamls body))]
  | .return _ values => yamlNode "ReturnStmt" [("body", .seq (Expr.yamls values))]
  | .break _ => yamlNode "BreakStmt" []

def Stmt.yamls : List Stmt → List Yaml
  | [] => []
  | s :: rest => s.yaml :: Stmt.yamls rest

def Otherwise.yaml : Otherwise → Yaml
  | .none => .null
  | .elseIf _ test body otherwise =>
    yamlNode "IfStmt"
      [("test", test.yaml), ("then", .seq (Stmt.yamls body)), ("else", otherwise.yaml)]
  | .block _ body => yamlNode "BlockStmt" [("body", .seq (Stmt.yamls body))]

end

def SourceTree.yaml (t : SourceTree) : Bytes :=
  (yamlNode "Chunk" [("body", .seq (Stmt.yamls t.body))]).document

end LuaBytecode
