import LuaBytecode.Grammar.Statement

namespace LuaBytecode

def Level.withDepth (loops : Nat) : Nat → Level
  | 0 =>
    { loops, expr := fun _ => Parser.tooManyLevels, stmt := Parser.tooManyLevels
      elseIf := Parser.tooManyLevels }
  | depth + 1 =>
    let lv := Level.withDepth loops depth
    { loops, expr := Parser.subExpression lv, stmt := Parser.statement lv
      elseIf := Parser.elseIfClause lv }

def maxDepth : Nat := 200

def Parser.wholeBlock (lv : Level) : Parser SourceTree := do
  let body ← block lv
  let t ← current
  if t.kind = .eof then return ⟨⟨.first, t.span.stop⟩, body⟩ else unexpected .endOfFile

def parse (source src : Bytes) : Except ParseError SourceTree :=
  let stream := TokenStream.ofSource src
  match (Parser.wholeBlock (.withDepth (stream.rest.length + 2) maxDepth)).run stream with
  | .ok (tree, _) => .ok tree
  | .error fault => .error ⟨source, fault⟩

end LuaBytecode
