import LuaBytecode.Proofs.Generator.Tree
import LuaBytecode.Proofs.Grammar.WellFormed

namespace LuaBytecode

def SourceError.isFault : SourceError → Bool
  | .parse e => e.fault.cause.isFault
  | .generate (.internal _) => true
  | .generate (.compile _) => false

lemma generate_cases (source : ChunkName) {tree : SourceTree}
    (h : (SyntaxNode.chunk tree).WellFormed (2 ^ 64)) : (∃ c, generate source tree = .ok c) ∨
      Rejected (generate source tree) := by
  have hm : Gen.Meets False (Generator.start source) tree.code _ := tree.meets_code source (.inr h)
  simp only [Gen.Meets] at hm
  simp only [generate, bind, Except.bind]
  split at hm
  · next heq =>
    rw [heq]
    exact .inl ⟨_, rfl⟩
  · next e heq =>
    rw [heq]
    exact .inr ⟨e, rfl, Bool.eq_false_iff.mpr hm⟩
  · exact hm.elim

/-- The length of a text is a 64-bit integer. -/
theorem compile_faultless (source : ChunkName) {src : Bytes} (h : src.length < 2 ^ 63) :
    (∃ c, compile source src = .ok c) ∨ ∃ e, compile source src = .error e ∧ e.isFault = false := by
  rcases parse_cases source.shown h with ⟨tree, hparse, htree⟩ | ⟨fault, hparse, hcause⟩
  · simp only [compile, hparse, Except.mapError, bind, Except.bind]
    rcases generate_cases source htree with ⟨c, hc⟩ | ⟨e, he, -⟩
    · rw [hc]
      exact .inl ⟨c, rfl⟩
    · rw [he]
      exact .inr ⟨_, rfl, rfl⟩
  · simp only [compile, hparse, Except.mapError, bind, Except.bind]
    exact .inr ⟨_, rfl, hcause⟩

def strayBreakText : Bytes := .ofString
  "for i = 1, 9 do local x = i; f = function() return x end; if x then break end end;
    t.a.b, t[1] = g:h(...), -2^3; break"

theorem compile_faultless_strayBreak : strayBreakText.length < 2 ^ 63 ∧
    ((∃ c, compile (.ofString "@stray.lua") strayBreakText = .ok c) ∨
      ∃ e, compile (.ofString "@stray.lua") strayBreakText = .error e ∧ e.isFault = false) := by
  have hlen : strayBreakText.length < 2 ^ 63 := by decide +kernel
  exact ⟨hlen, compile_faultless (.ofString "@stray.lua") hlen⟩

/-- Wherever a literal stands in a tree that was read, also as the name of a field or as the key
that a field without one gets, it has a value. No literal is the cause of an error. -/
theorem literals_haveValues (source : ChunkName) {src : Bytes} (h : src.length < 2 ^ 63) :
    (∀ tree, parse source.shown src = .ok tree →
      (∀ span raw, SyntaxNode.Occurs (.expr (.number span raw)) (.chunk tree) →
        ∃ n, parseNumeral? raw = some n) ∧
      ∀ span raw long, SyntaxNode.Occurs (.expr (.string span raw long)) (.chunk tree) →
        ∃ s, stringValue raw long = .ok s) ∧
    ∀ e, compile source src = .error (.generate (.compile e)) → e.cause.isLiteral = false := by
  refine ⟨fun tree hparse => ⟨fun span raw hx => ?_, fun span raw long hx => ?_⟩, fun e he => ?_⟩
  · exact Option.isSome_iff_exists.mp (parse_wellFormed (Nat.lt_succ_self _) hparse _ hx)
  · have hok : (stringValue raw long).isOk = true :=
      parse_wellFormed (Nat.lt_succ_self _) hparse _ hx
    cases hs : stringValue raw long with
    | ok s => exact ⟨s, rfl⟩
    | error e =>
      rw [hs] at hok
      cases hok
  · rcases parse_cases source.shown h with ⟨tree, hparse, htree⟩ | ⟨fault, hparse, -⟩
    · simp only [compile, hparse, Except.mapError, bind, Except.bind] at he
      rcases generate_cases source htree with ⟨c, hc⟩ | ⟨e', he', hcause⟩
      · simp [hc] at he
      · simp only [he'] at he
        cases he
        exact hcause
    · simp [compile, hparse, Except.mapError, bind, Except.bind] at he

def constructorText : Bytes := "return {x}"

def SourceTree.firstKey? : SourceTree → Option Expr
  | ⟨_, [.return _ [.table _ (.mk _ _ key _ :: _)]]⟩ => some key
  | _ => none

lemma SourceTree.occurs_firstKey {tree : SourceTree} {key : Expr} (h : tree.firstKey? = some key) :
    SyntaxNode.Occurs (.expr key) (.chunk tree) := by
  unfold SourceTree.firstKey? at h
  split at h
  · cases h
    exact .child (.head _) (.child (.head _) (.child (.head _) (.child (.head _) .self)))
  · cases h

theorem literals_haveValues_constructor : constructorText.length < 2 ^ 63 ∧
    ∃ tree span n, parse [] constructorText = .ok tree ∧
      SyntaxNode.Occurs (.expr (.number span [byte '1'])) (.chunk tree) ∧
      parseNumeral? [byte '1'] = some n := by
  have hlen : constructorText.length < 2 ^ 63 := by decide
  have hkey : ((parse [] constructorText).toOption.bind (·.firstKey?)).map Expr.label =
      some (.numberLit [byte '1']) := by decide +kernel
  refine ⟨hlen, ?_⟩
  cases h : parse [] constructorText with
  | error e =>
    rw [h] at hkey
    cases hkey
  | ok tree =>
    rw [h] at hkey
    obtain ⟨key, hfirst, hlabel⟩ := Option.map_eq_some_iff.mp hkey
    obtain ⟨span, rfl⟩ : ∃ span, key = .number span [byte '1'] := by
      cases key <;> simp [Expr.label] at hlabel
      exact ⟨_, by rw [hlabel]⟩
    have hoccurs := SourceTree.occurs_firstKey hfirst
    obtain ⟨n, hn⟩ := ((literals_haveValues (.ofString "=") hlen).1 tree h).1 span _ hoccurs
    exact ⟨tree, span, n, rfl, hoccurs, hn⟩

end LuaBytecode
