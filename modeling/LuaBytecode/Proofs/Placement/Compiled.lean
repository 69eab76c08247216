import LuaBytecode.Compile
import LuaBytecode.Proofs.Placement.Grammar
import LuaBytecode.Proofs.Placement.Statement

namespace LuaBytecode

open Gen ExprCode TokenStream

variable {src src' : Bytes}

lemma lastLine_flat (body : List Stmt) : lastLine 1 (Stmt.flatAll body) = 1 := by
  simp only [lastLine, Stmt.flatAll_eq_map, List.getLast?_map]
  cases body.getLast? with
  | none => rfl
  | some s =>
    simp only [Option.map_some, Stmt.span_flat]
    rfl

lemma Stmt.isBreak_flat (s : Stmt) : s.flat.isBreak = s.isBreak := by
  cases s with
  | numericFor span name first limit step body => cases step <;> rfl
  | _ => rfl

mutual

lemma Expr.follows_code : (e : Expr) → e.code.Follows e.flat.code
  | .ident id => follows_ofName id
  | .nil s => follows_ofLiteral s.start _
  | .bool s _ => follows_ofLiteral s.start _
  | .number s raw => follows_ofNumber s.start raw
  | .string s _ _ => follows_ofLiteral s.start _
  | .vararg s => follows_ofVararg s.start
  | .function s params isVararg body =>
    follows_ofFunction s params isVararg (Stmt.follows_codeAll body)
  | .binary s op left right => follows_ofBinary s.start op left.follows_code right.follows_code
  | .unary s op operand => follows_ofUnary s.start op operand.follows_code
  | .member s object key _ => follows_ofMember s.start object.follows_code key.follows_code
  | .call s callee method args =>
    follows_ofCall s.start callee.follows_code method (Expr.follows_codesOnto .nil args)
  | .paren s inner => follows_ofParen s.start inner.follows_code
  | .table s fields => follows_ofTable s.start (Field.follows_codesOnto .nil fields)

lemma Expr.follows_codesOnto {done done' : List ExprCode}
    (h : List.Forall₂ ExprCode.Follows done done') : (es : List Expr) →
    List.Forall₂ ExprCode.Follows (Expr.codesOnto done es) (Expr.codesOnto done' (Expr.flatAll es))
  | [] => List.forall₂_reverse_iff.mpr h
  | e :: rest => Expr.follows_codesOnto (.cons e.follows_code h) rest

lemma Field.follows_code : (f : Field) → f.code.Follows f.flat.code
  | .mk _ _ key value => ⟨rfl, rfl, key.follows_code, value.follows_code⟩

lemma Field.follows_codesOnto {done done' : List FieldCode}
    (h : List.Forall₂ FieldCode.Follows done done') : (fs : List Field) →
    List.Forall₂ FieldCode.Follows (Field.codesOnto done fs)
      (Field.codesOnto done' (Field.flatAll fs))
  | [] => List.forall₂_reverse_iff.mpr h
  | f :: rest => Field.follows_codesOnto (.cons f.follows_code h) rest

lemma Stmt.follows_code : (s : Stmt) → Gen.Follows s.code s.flat.code
  | .assign s targets values =>
    follows_assign s.start (Expr.follows_codesOnto .nil targets)
      (Expr.follows_codesOnto .nil values)
  | .call s callee method args =>
    follows_callStatement
      (follows_ofCall s.start callee.follows_code method (Expr.follows_codesOnto .nil args))
  | .declare _ names values => follows_declareLocals names (Expr.follows_codesOnto .nil values)
  | .function s target _ bodySpan params isVararg body =>
    follows_declareFunction s.start target.follows_code
      (follows_ofFunction bodySpan params isVararg (Stmt.follows_codeAll body))
  | .localFunction _ name bodySpan params isVararg body =>
    follows_declareLocalFunction name.name
      (follows_closure bodySpan params isVararg (Stmt.follows_codeAll body))
  | .scope _ body => @follows_block _ _ (Stmt.follows_codeAll body)
  | .while s cond body => by
    have h := follows_whileLoop cond.follows_code (Stmt.follows_codeAll body)
      (lastLine s.start.line body)
    rw [← lastLine_flat body] at h
    exact h
  | .repeat _ body cond => follows_repeatLoop (Stmt.follows_codeAll body) cond.follows_code
  | .cond _ test body otherwise =>
    Otherwise.follows_code (follows_clause test.follows_code (Stmt.follows_clauseBody body))
      otherwise []
  | .numericFor s name first limit none body =>
    follows_numericFor s.start name.name first.follows_code limit.follows_code .none
      (Stmt.follows_codeAll body)
  | .numericFor s name first limit (some step) body =>
    follows_numericFor s.start name.name first.follows_code limit.follows_code
      (.some step.follows_code) (Stmt.follows_codeAll body)
  | .genericFor s names exprs body =>
    follows_genericFor s.start names (Expr.follows_codesOnto .nil exprs) (Stmt.follows_codeAll body)
  | .return s values => follows_returnStatement s.start (Expr.follows_codesOnto .nil values)
  | .break _ => follows_breakStatement

lemma Stmt.follows_codeAll : (body : List Stmt) →
    Gen.Follows (Stmt.codeAll body) (Stmt.codeAll (Stmt.flatAll body))
  | [] => follows_pure _
  | s :: rest => by
    have hf := follows_statement s.span.start s.follows_code
    have hr := Stmt.follows_codeAll rest
    simp only [Stmt.codeAll, Stmt.flatAll, Stmt.span_flat, Span.at]
    exact .bind

lemma Stmt.follows_clauseBody : (body : List Stmt) →
    (Stmt.clauseBody body).Follows (Stmt.clauseBody (Stmt.flatAll body))
  | [] => ⟨follows_pure _, .none⟩
  | s :: rest => by
    have hf := follows_statement s.span.start s.follows_code
    have hr := Stmt.follows_codeAll rest
    have he : (Stmt.flatAll rest).isEmpty = rest.isEmpty := by cases rest <;> rfl
    simp only [Stmt.clauseBody, Stmt.flatAll, Stmt.span_flat, Stmt.isBreak_flat, he, Span.at]
    refine ⟨.bind, ?_⟩
    split
    · split
      · exact .some .none
      · exact .some (.some hr)
    · exact .none

lemma Otherwise.follows_code {clause clause' : Bool → List Nat → Gen (List Nat)}
    (h : ∀ isLast escapes, Gen.Follows (clause isLast escapes) (clause' isLast escapes)) :
    (o : Otherwise) → (escapes : List Nat) →
    Gen.Follows (Otherwise.code clause o escapes) (Otherwise.code clause' o.flat escapes)
  | .none, _ => .bind
  | .elseIf s test body otherwise, _ => by
    have hp : Gen.Follows (setPos s.start) (setPos s.flat.start) := follows_setPos _
    have hr := Otherwise.follows_code
      (follows_clause test.follows_code (Stmt.follows_clauseBody body)) otherwise
    exact .bind
  | .block _ body, _ => by
    have hb := Stmt.follows_codeAll body
    exact .bind

end

lemma SourceTree.follows_code (tree : SourceTree) : Gen.Follows tree.code tree.flat.code := by
  unfold SourceTree.code
  simp only [SourceTree.flat, lastLine_flat]
  have hb := Stmt.follows_codeAll tree.body
  exact .bind

def Chunk.flat (c : Chunk) : Chunk := { c with main := c.main.map Prototype.flat }

def Generator.chunk (g : Generator) : Chunk where
  header := .default
  upvalueCount := g.upvalues.size.toUInt8
  main := some g.prototype

lemma Generator.chunk_flat (g : Generator) : g.flat.chunk = g.chunk.flat := by
  simp only [chunk, flat, Chunk.flat, Draft.prototype_flat, Option.map_some]
  rfl

lemma generate_toOption (source : ChunkName) (tree : SourceTree) : (generate source tree).toOption =
      (tree.code (Generator.start source)).toOption.map fun r => r.2.chunk := by
  simp only [generate, Bind.bind, Except.bind]
  cases tree.code (Generator.start source) <;> rfl

lemma generate_flat (source : ChunkName) {tree tree' : SourceTree} (h : tree.flat = tree'.flat) :
    (generate source tree).toOption.map Chunk.flat =
      (generate source tree').toOption.map Chunk.flat := by
  have hr (t : SourceTree) : (generate source t).toOption.map Chunk.flat =
      (t.flat.code (Generator.start source).flat).toOption.map fun r => r.2.chunk := by
    have ht := t.follows_code.run.toOption_eq (Generator.start source)
    simp only [move] at ht
    rw [← ht, generate_toOption, Option.map_map, Option.map_map]
    congr 1
    funext r
    exact r.2.chunk_flat.symm
  rw [hr, hr, h]

/-- What a token is, wherever it stands: its kind, its text in one spelling, and whether it is in
long brackets. -/
def Scanned.plain? : Scanned → Option (TokenKind × Bytes × Bool)
  | .token t => if t.kind = .comment then none else some (t.kind, t.plainValue, t.long)
  | .fault .. => none

def plainTokens (src : Bytes) : List (TokenKind × Bytes × Bool) :=
  (elements src).filterMap Scanned.plain?

def scansCleanly (src : Bytes) : Bool := (elements src).all fun
    | .token _ => true
    | .fault .. => false

namespace TokenStream

def placed : TokenKind × Bytes × Bool → Token
  | (kind, value, long) => ⟨kind, .at .lineOne, value, long⟩

lemma collect_of_faultless {es : List Scanned} (h : ∀ span e, Scanned.fault span e ∉ es)
    (done : List Token) : (collect done es).1.map Token.flat =
      (done.map Token.flat).reverse ++ (es.filterMap Scanned.plain?).map placed := by
  induction es generalizing done with
  | nil => simp [collect]
  | cons s rest ih =>
    have hr : ∀ span e, Scanned.fault span e ∉ rest := fun span e he => h span e (by simp [he])
    cases s with
    | fault span e => exact absurd List.mem_cons_self (h span e)
    | token t =>
      by_cases hk : t.kind = .comment
      · simpa [collect, hk, Scanned.plain?] using ih hr done
      · simp only [collect, if_neg hk, ih hr (t :: done), Scanned.plain?, List.map_cons,
          List.reverse_cons, List.filterMap_cons, List.append_assoc, List.singleton_append]
        rfl

lemma collect_elements (h : scansCleanly src = true) :
    (collect [] (elements src)).1.map Token.flat = (plainTokens src).map placed := by
  refine collect_of_faultless (fun span e hf => ?_) []
  exact absurd (List.all_eq_true.mp h _ hf) (by simp)

lemma ofSource_flat (h : scansCleanly src = true) (h' : scansCleanly src' = true)
    (heq : plainTokens src = plainTokens src') : (ofSource src).flat = (ofSource src').flat := by
  have hm : (collect [] (elements src)).1.map Token.flat =
      (collect [] (elements src')).1.map Token.flat := by
    rw [collect_elements h, collect_elements h', heq]
  unfold ofSource
  generalize collect [] (elements src) = r, collect [] (elements src') = r' at hm
  obtain ⟨_ | ⟨t, rest⟩, failure⟩ := r <;> obtain ⟨_ | ⟨t', rest'⟩, failure'⟩ := r'
  · rfl
  · cases hm
  · cases hm
  · obtain ⟨ht, hr⟩ := List.cons.inj hm
    simp only [flat, ht, hr]

end TokenStream

lemma parse_toOption (source src : Bytes) : (parse source src).toOption =
    ((Parser.wholeBlock (.withDepth ((ofSource src).rest.length + 2) maxDepth))
      (ofSource src)).toOption.map Prod.fst := by
  simp only [parse, StateT.run]
  split
  · next tree s heq => rw [heq]; rfl
  · next fault heq => rw [heq]; rfl

lemma parse_flat (source : Bytes) (h : (ofSource src).flat = (ofSource src').flat) :
    (parse source src).toOption.map SourceTree.flat =
      (parse source src').toOption.map SourceTree.flat := by
  have hr (src : Bytes) : (parse source src).toOption.map SourceTree.flat =
      ((Parser.wholeBlock (.withDepth ((ofSource src).flat.rest.length + 2) maxDepth))
        (ofSource src).flat).toOption.map Prod.fst := by
    have hl : (ofSource src).flat.rest.length = (ofSource src).rest.length := List.length_map _
    have hs := (Parser.follows_wholeBlock (.withDepth
      ((ofSource src).rest.length + 2) maxDepth)).run.toOption_eq (.ofSource src)
    simp only [Parser.move] at hs
    rw [hl, ← hs, parse_toOption, Option.map_map, Option.map_map]
    rfl
  rw [hr, hr, h]

lemma compile_toOption (source : ChunkName) (src : Bytes) : (compile source src).toOption =
    (parse source.shown src).toOption.bind fun tree => (generate source tree).toOption := by
  simp only [compile, Bind.bind, Except.bind]
  cases parse source.shown src with
  | error e => rfl
  | ok tree =>
    show ((generate source tree).mapError _).toOption = (generate source tree).toOption
    cases generate source tree <;> rfl

/-- Two texts without lexical faults and with the same tokens, up to comments and the spelling of
words, are both rejected, or both compiled to chunks that only differ in lines. -/
theorem compile_layout_irrelevant (source : ChunkName) {src src' : Bytes}
    (h : scansCleanly src = true) (h' : scansCleanly src' = true)
    (heq : plainTokens src = plainTokens src') :
    (compile source src).toOption.map Chunk.flat =
      (compile source src').toOption.map Chunk.flat := by
  have htrees := parse_flat source.shown (TokenStream.ofSource_flat h h' heq)
  rw [compile_toOption, compile_toOption]
  revert htrees
  rcases (parse source.shown src).toOption with _ | tree <;>
    rcases (parse source.shown src').toOption with _ | tree' <;> intro htrees
  · rfl
  · cases htrees
  · cases htrees
  · exact generate_flat source (Option.some.inj htrees)

def shortLayout : Bytes := "let f = fun(...) return ... end"

def longLayout : Bytes := .ofString
  "local --[[ a\nfunction ]] f =\n\nfunction ( ... ) -- all of them\n  return ...\nend\n"

theorem compile_layout_irrelevant_function :
    scansCleanly shortLayout = true ∧ scansCleanly longLayout = true ∧
      plainTokens shortLayout = plainTokens longLayout ∧
      (compile [] shortLayout).toOption.map Chunk.flat =
        (compile [] longLayout).toOption.map Chunk.flat :=
  have h : scansCleanly shortLayout = true := by decide +kernel
  have h' : scansCleanly longLayout = true := by decide +kernel
  have heq : plainTokens shortLayout = plainTokens longLayout := by decide +kernel
  ⟨h, h', heq, compile_layout_irrelevant [] h h' heq⟩

end LuaBytecode
