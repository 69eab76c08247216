import LuaBytecode.Proofs.Tree.Nesting

namespace LuaBytecode

open SyntaxNode

mutual

lemma Expr.wellFormed : (e : Expr) → (expr e).WellFormed (2 ^ 64) → e.WellFormed
  | .ident _, h => h.self.1
  | .nil _, _ | .bool .., _ | .number .., _ | .string .., _ | .vararg _, _ => trivial
  | .function _ _ _ body, h => Stmt.allWellFormed body (List.forall_mem_append.mp h.children).2
  | .binary _ _ left right, h =>
    ⟨left.wellFormed (h.children _ (.head _)), right.wellFormed (h.children _ (.tail _ (.head _)))⟩
  | .unary _ _ operand, h => operand.wellFormed (h.children _ (.head _))
  | .member _ object key _, h =>
    ⟨object.wellFormed (h.children _ (.head _)), key.wellFormed (h.children _ (.tail _ (.head _)))⟩
  | .call _ callee _ args, h => ⟨callee.wellFormed (h.children _ (.head _)),
      Expr.allWellFormed args (List.forall_mem_append.mp h.children).2⟩
  | .paren _ inner, h => inner.wellFormed (h.children _ (.head _))
  | .table _ fields, h => ⟨h.self, Field.allWellFormed fields h.children⟩

lemma Expr.allWellFormed : (es : List Expr) → (∀ c ∈ es.map expr, c.WellFormed (2 ^ 64)) →
    Expr.AllWellFormed es
  | [], _ => trivial
  | e :: rest, h =>
    ⟨e.wellFormed (h _ (.head _)), Expr.allWellFormed rest fun c hc => h c (.tail _ hc)⟩

lemma Field.wellFormed : (f : Field) → (field f).WellFormed (2 ^ 64) → f.WellFormed
  | .mk _ _ key value, h =>
    ⟨key.wellFormed (h.children _ (.head _)), value.wellFormed (h.children _ (.tail _ (.head _)))⟩

lemma Field.allWellFormed : (fields : List Field) →
    (∀ c ∈ fields.map field, c.WellFormed (2 ^ 64)) → Field.AllWellFormed fields
  | [], _ => trivial
  | f :: rest, h =>
    ⟨f.wellFormed (h _ (.head _)), Field.allWellFormed rest fun c hc => h c (.tail _ hc)⟩

lemma Stmt.wellFormed : (s : Stmt) → (stmt s).WellFormed (2 ^ 64) → s.WellFormed
  | .assign _ targets values, h =>
    have hp := List.forall_mem_append.mp h.children
    ⟨h.self, Expr.allWellFormed targets hp.1, Expr.allWellFormed values hp.2⟩
  | .call _ callee _ args, h =>
    have hca := (h.children _ (.head _)).children
    ⟨callee.wellFormed (hca _ (.head _)), Expr.allWellFormed args (List.forall_mem_append.mp hca).2⟩
  | .declare _ _ values, h => Expr.allWellFormed values (List.forall_mem_append.mp h.children).2
  | .function _ target _ _ _ _ body, h =>
    have hb := (h.children _ (.tail _ (.head _))).children
    ⟨h.self, target.wellFormed (h.children _ (.head _)),
      Stmt.allWellFormed body (List.forall_mem_append.mp hb).2⟩
  | .localFunction _ _ _ _ _ body, h =>
    have hb := (h.children _ (.tail _ (.head _))).children
    Stmt.allWellFormed body (List.forall_mem_append.mp hb).2
  | .scope _ body, h => Stmt.allWellFormed body h.children
  | .while _ test body, h => ⟨test.wellFormed (h.children _ (.head _)),
      Stmt.allWellFormed body fun c hc => h.children c (.tail _ hc)⟩
  | .repeat _ body test, h =>
    have hp := List.forall_mem_append.mp h.children
    ⟨Stmt.allWellFormed body hp.1, test.wellFormed (hp.2 _ (.head _))⟩
  | .cond _ test body otherwise, h =>
    have hp := List.forall_mem_append.mp h.children
    ⟨test.wellFormed (hp.1 _ (.head _)),
      Stmt.allWellFormed body fun c hc => hp.1 c (.tail _ hc), otherwise.wellFormed hp.2⟩
  | .numericFor _ _ first limit none body, h =>
    ⟨first.wellFormed (h.children _ (.tail _ (.head _))),
      limit.wellFormed (h.children _ (.tail _ (.tail _ (.head _)))),
      Stmt.allWellFormed body (List.forall_mem_append.mp h.children).2⟩
  | .numericFor _ _ first limit (some step) body, h =>
    ⟨first.wellFormed (h.children _ (.tail _ (.head _))),
      limit.wellFormed (h.children _ (.tail _ (.tail _ (.head _)))),
      step.wellFormed (h.children _ (.tail _ (.tail _ (.tail _ (.head _))))),
      Stmt.allWellFormed body (List.forall_mem_append.mp h.children).2⟩
  | .genericFor _ _ exprs body, h =>
    have hp := List.forall_mem_append.mp h.children
    ⟨Expr.allWellFormed exprs (List.forall_mem_append.mp hp.1).2, Stmt.allWellFormed body hp.2⟩
  | .return _ values, h => Expr.allWellFormed values h.children
  | .break _, _ => trivial

lemma Stmt.allWellFormed : (body : List Stmt) → (∀ c ∈ body.map stmt, c.WellFormed (2 ^ 64)) →
    Stmt.AllWellFormed body
  | [], _ => trivial
  | s :: rest, h =>
    ⟨s.wellFormed (h _ (.head _)), Stmt.allWellFormed rest fun c hc => h c (.tail _ hc)⟩

lemma Otherwise.wellFormed : (o : Otherwise) → (∀ c ∈ o.parts, c.WellFormed (2 ^ 64)) → o.WellFormed
  | .none, _ => trivial
  | .elseIf _ test body otherwise, h =>
    have hp := List.forall_mem_append.mp (h _ (.head _)).children
    ⟨test.wellFormed (hp.1 _ (.head _)),
      Stmt.allWellFormed body fun c hc => hp.1 c (.tail _ hc), otherwise.wellFormed hp.2⟩
  | .block _ body, h => Stmt.allWellFormed body (h _ (.head _)).children

end

lemma parse_wellFormed {source src : Bytes} {tree : SourceTree} {k : Nat} (hk : src.length + 2 < k)
    (h : parse source src = .ok tree) : (chunk tree).WellFormed k :=
  fun x hx => ((parse_sound h hk).2 x hx).proper

def ParseCause.isFault : ParseCause → Bool
  | .lexical e => e.cause = .noMark
  | .noMark => true
  | _ => false

lemma parse_cases (source : Bytes) {src : Bytes} (h : src.length < 2 ^ 63) :
    (∃ tree, parse source src = .ok tree ∧ (chunk tree).WellFormed (2 ^ 64)) ∨
    ∃ fault, parse source src = .error ⟨source, fault⟩ ∧ fault.cause.isFault = false := by
  cases hp : parse source src with
  | ok tree => exact .inl ⟨tree, rfl, parse_wellFormed (by omega) hp⟩
  | error e =>
    obtain ⟨-, -, -, hr, -⟩ := TokenStream.ofSource_ready src
    simp only [parse, StateT.run] at hp
    split at hp
    · cases hp
    · next fault heq =>
      cases hp
      obtain ⟨hmark, hlexical⟩ :=
        (Parser.since_wholeBlock (Nat.lt_succ_self _) maxDepth).cause hr heq
      refine .inr ⟨fault, rfl, ?_⟩
      cases hc : fault.cause with
      | lexical e => exact decide_eq_false (TokenStream.ofSource_failure (hlexical e hc))
      | noMark => exact absurd hc hmark
      | _ => rfl

end LuaBytecode
