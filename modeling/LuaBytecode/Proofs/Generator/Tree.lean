import LuaBytecode.Compile
import LuaBytecode.Proofs.Generator.Statement
import LuaBytecode.Proofs.Tree.Children

namespace LuaBytecode

open Gen Generator ExprCode SyntaxNode

variable {escapes : List Nat} {source : ChunkName} {tree : SourceTree} {c : Chunk} {e : Expr}
  {lax : Prop}

lemma generate_ok (h : generate source tree = .ok c) :
    ∃ g, tree.code (.start source) = .ok ((), g) ∧ c.main = some g.prototype := by
  cases hr : tree.code (.start source) with
  | error e => simp [generate, hr, bind, Except.bind] at h
  | ok r =>
    simp only [generate, hr, bind, Except.bind, pure, Except.pure, Except.ok.injEq] at h
    exact ⟨r.2, rfl, by rw [← h]⟩

lemma compile_ok {src : Bytes} (h : compile source src = .ok c) :
    ∃ tree, parse source.shown src = .ok tree ∧ generate source tree = .ok c := by
  simp only [compile, Except.mapError, bind, Except.bind] at h
  split at h
  · cases h
  · next tree hp =>
    split at hp <;> cases hp
    split at h <;> cases h
    exact ⟨tree, by assumption, by assumption⟩

lemma Expr.codesOnto_eq (done : List ExprCode) (es : List Expr) :
    Expr.codesOnto done es = done.reverse ++ es.map Expr.code := by
  induction es generalizing done with
  | nil => simp [Expr.codesOnto]
  | cons e rest ih => simp [Expr.codesOnto, ih]

lemma Field.codesOnto_eq (done : List FieldCode) (fields : List Field) :
    Field.codesOnto done fields = done.reverse ++ fields.map Field.code := by
  induction fields generalizing done with
  | nil => simp [Field.codesOnto]
  | cons f rest ih => simp [Field.codesOnto, ih]

lemma Gen.bodySound_nil : BodySound lax (pure ()) := fun _ h => meets_pure h

lemma Gen.BodySound.cons {s rest : Gen Unit} (hs : BodySound lax s) (hr : BodySound lax rest) :
    BodySound lax (do s; rest) := by
  intro g h
  refine (hs g h).bind fun _ g1 h1 => ?_
  exact (hr g1 h1.restart).mono fun _ _ h2 => h1.trans h2

def Gen.ConditionalSound (lax : Prop) (code : List Nat → Gen Unit) : Prop :=
  ∀ (escapes : List Nat) (g g0 : Generator), g.Rests g0 → g0.active = g.active →
    Draft.Dangling g.active.size g.toDraft g0.toDraft escapes →
    Meets lax g0 (code escapes) fun _ g' => ∃ r, g.Passes g'.active.size .plain r g'

namespace Gen

variable {clause : Bool → List Nat → Gen (List Nat)} {g g0 : Generator}

lemma ClauseSound.next (hc : ClauseSound lax clause) (isLast : Bool) (h : g.Rests g0)
    (ha : g0.active = g.active) (he : Draft.Dangling g.active.size g.toDraft g0.toDraft escapes) :
    Meets lax g0 (clause isLast escapes) fun escapes' g' => g.Rests g' ∧ g'.active = g.active ∧
      Draft.Dangling g.active.size g.toDraft g'.toDraft escapes' := by
  refine (hc isLast escapes g0 h.restart).mono ?_
  rintro _ g1 ⟨h1, ha1, more, rfl, hm⟩
  rw [ha] at hm
  exact ⟨h.trans h1, ha1.trans ha, (he.frame h1.frame (Nat.le_of_eq (by rw [ha]))).append
    (hm.since h.frame)⟩

lemma passes_escapes (h : g.Rests g0) (ha : g0.active = g.active)
    (he : Draft.Dangling g.active.size g.toDraft g0.toDraft escapes) :
    Meets lax g0 (patchToHere escapes) fun _ g' => ∃ r, g.Passes g'.active.size .plain r g' := by
  refine (passes_patchToHere h fun pc hpc => ⟨(he pc hpc).1, ?_⟩).mono ?_
  · rw [ha]
    exact (he pc hpc).2
  · rintro - g1 ⟨h1, ha1⟩
    exact ⟨_, by rw [ha1]; exact h1⟩

end Gen

namespace ExprCode

lemma ofLiteral_target (start : Position) (value : Except CompileCause Value) :
    (ofLiteral start value).target = fault .notAssignable := by
  cases value <;> rfl

lemma ofFolded_target {start : Position} {folded : Except FoldingFault (Option Value)}
    {code : Option Value → ExprCode} (h : ∀ o, (code o).target = fault .notAssignable) :
    (ofFolded start folded code).target = fault .notAssignable := by
  cases folded with
  | ok o => exact h o
  | error e => rfl

lemma ofBinary_target (start : Position) (op : BinaryOp) (left right : ExprCode) :
    (ofBinary start op left right).target = fault .notAssignable := by
  unfold ofBinary
  split
  · rfl
  · rfl
  · rfl
  · split
    · exact ofFolded_target fun _ => rfl
    · rfl

end ExprCode

lemma Expr.code_target (h : e.isAssignable = false) : e.code.target = fault .notAssignable := by
  cases e with
  | ident id => cases h
  | member s object key computed => cases h
  | nil s => rfl
  | bool s b => rfl
  | number s raw => simp only [Expr.code]; exact ofLiteral_target _ _
  | string s raw long => simp only [Expr.code]; exact ofLiteral_target _ _
  | vararg s => rfl
  | function s params isVararg body => simp only [Expr.code]; rfl
  | binary s op left right => simp only [Expr.code]; exact ofBinary_target _ _ _ _
  | unary s op operand => simp only [Expr.code]; exact ofFolded_target fun _ => rfl
  | call s callee method args => simp only [Expr.code]; rfl
  | paren s inner => simp only [Expr.code]; rfl
  | table s fields => simp only [Expr.code]; rfl

lemma Expr.targetSound_of_not (h : e.isAssignable = false) (ht : lax ∨ e.isAssignable = true) :
    e.code.TargetSound lax := by
  intro g g0 m r _
  rw [Expr.code_target h]
  exact meets_fault (ht.resolve_right (by simp [h]))

mutual

lemma Expr.code_sound : (e : Expr) → (expr e).Valued lax → e.code.Sound lax
  | .ident id, _ => ofName_sound id
  | .nil s, _ => ofLiteral_sound s.start _ (.inr rfl)
  | .bool s b, _ => ofLiteral_sound s.start _ (.inr rfl)
  | .number s raw, hv => ofNumber_sound s.start hv.value
  | .string s raw long, hv => ofString_sound s.start hv.value
  | .vararg s, _ => ofVararg_sound s.start
  | .function s params isVararg body, hv =>
    ofFunction_sound (Stmt.codeAll_sound body (List.forall_mem_append.mp hv.children).2) s
      params isVararg
  | .binary _ _ left right, hv =>
    ofBinary_sound (left.code_sound (hv.children _ (.head _)))
      (right.code_sound (hv.children _ (.tail _ (.head _))))
  | .unary s op operand, hv => ofUnary_sound (operand.code_sound (hv.children _ (.head _)))
  | .member s object key _, hv =>
    ofMember_sound (object.code_sound (hv.children _ (.head _)))
      (key.code_sound (hv.children _ (.tail _ (.head _))))
  | .call s callee method args, hv => by
    simp only [Expr.code, Expr.codesOnto_eq]
    exact ofCall_sound (callee.code_sound (hv.children _ (.head _)))
      (Expr.codes_sound args (List.forall_mem_append.mp hv.children).2)
  | .paren s inner, hv => ofParen_sound (inner.code_sound (hv.children _ (.head _)))
  | .table s fields, hv => by
    simp only [Expr.code, Field.codesOnto_eq]
    exact ofTable_sound (Field.codes_sound fields hv.children) (by simpa [Proper] using hv.value)

lemma Expr.codes_sound : (es : List Expr) → (∀ c ∈ es.map expr, c.Valued lax) →
    ∀ c ∈ es.map Expr.code, c.Sound lax
  | [], _ => by simp
  | e :: rest, hv => by
    have he := e.code_sound (hv _ (.head _))
    have hr := Expr.codes_sound rest fun c hc => hv c (.tail _ hc)
    simpa using ⟨he, by simpa using hr⟩

lemma Field.code_sound : (f : Field) → (field f).Valued lax → f.code.Sound lax
  | .mk _ _ key value, hv => ⟨key.code_sound (hv.children _ (.head _)),
      value.code_sound (hv.children _ (.tail _ (.head _)))⟩

lemma Field.codes_sound : (fields : List Field) →
    (∀ c ∈ fields.map field, c.Valued lax) → ∀ c ∈ fields.map Field.code, c.Sound lax
  | [], _ => by simp
  | f :: rest, hv => by
    have hf := f.code_sound (hv _ (.head _))
    have hr := Field.codes_sound rest fun c hc => hv c (.tail _ hc)
    simpa using ⟨hf, by simpa using hr⟩

lemma Expr.code_targetSound : (e : Expr) → lax ∨ e.isAssignable = true →
    (expr e).Valued lax → e.code.TargetSound lax
  | .ident id, _, _ => ofName_targetSound id
  | .member _ object key _, _, hv =>
    ofMember_targetSound (object.code_sound (hv.children _ (.head _)))
      (key.code_sound (hv.children _ (.tail _ (.head _))))
  | .nil _, ht, _ | .bool .., ht, _ | .number .., ht, _ | .string .., ht, _ | .vararg _, ht, _
  | .function .., ht, _ | .binary .., ht, _ | .unary .., ht, _ | .call .., ht, _ | .paren .., ht, _
  | .table .., ht, _ => Expr.targetSound_of_not rfl ht

lemma Expr.codes_targetSound : (es : List Expr) → lax ∨ (∀ e ∈ es, e.isAssignable = true) →
    (∀ c ∈ es.map expr, c.Valued lax) → ∀ c ∈ es.map Expr.code, c.TargetSound lax
  | [], _, _ => by simp
  | e :: rest, ht, hv => by
    have he : e.code.TargetSound lax :=
      e.code_targetSound (ht.imp_right fun ht => ht e (by simp)) (hv _ (.head _))
    have hr := Expr.codes_targetSound rest (ht.imp_right fun ht e he => ht e (by simp [he]))
      fun c hc => hv c (.tail _ hc)
    rw [List.map_cons]
    exact List.forall_mem_cons.mpr ⟨he, hr⟩

lemma Stmt.code_sound : (s : Stmt) → (stmt s).Valued lax → StatementSound lax s.code
  | .assign s targets values, hv => by
    simp only [Stmt.code, Expr.codesOnto_eq]
    obtain ⟨ht, hva⟩ := List.forall_mem_append.mp hv.children
    exact assign_sound s.start (Expr.codes_targetSound targets hv.value ht)
      (Expr.codes_sound values hva)
  | .call s callee method args, hv => by
    simp only [Stmt.code, Expr.codesOnto_eq]
    have hca := (hv.children _ (.head _)).children
    exact callStatement_sound (ofCall_sound (callee.code_sound (hca _ (.head _)))
      (Expr.codes_sound args (List.forall_mem_append.mp hca).2)) rfl
  | .declare _ names values, hv => by
    simp only [Stmt.code, Expr.codesOnto_eq]
    exact declareLocals_sound names
      (Expr.codes_sound values (List.forall_mem_append.mp hv.children).2)
  | .function s target _ bodySpan params isVararg body, hv => by
    simp only [Stmt.code]
    have hb := (hv.children _ (.tail _ (.head _))).children
    exact declareFunction_sound s.start bodySpan params isVararg
      (target.code_targetSound hv.value (hv.children _ (.head _)))
      (Stmt.codeAll_sound body (List.forall_mem_append.mp hb).2)
  | .localFunction _ name bodySpan params isVararg body, hv => by
    simp only [Stmt.code]
    have hb := (hv.children _ (.tail _ (.head _))).children
    exact declareLocalFunction_sound name.name bodySpan params isVararg
      (Stmt.codeAll_sound body (List.forall_mem_append.mp hb).2)
  | .scope _ body, hv => by
    simp only [Stmt.code]
    exact block_sound (Stmt.codeAll_sound body hv.children)
  | .while s cond body, hv => by
    simp only [Stmt.code]
    exact whileLoop_sound _ (cond.code_sound (hv.children _ (.head _)))
      (Stmt.codeAll_sound body fun c hc => hv.children c (.tail _ hc))
  | .repeat _ body cond, hv => by
    simp only [Stmt.code]
    obtain ⟨hb, hco⟩ := List.forall_mem_append.mp hv.children
    exact repeatLoop_sound (cond.code_sound (hco _ (.head _))) (Stmt.codeAll_sound body hb)
  | .cond _ test body otherwise, hv => by
    simp only [Stmt.code]
    obtain ⟨hcl, ho⟩ := List.forall_mem_append.mp hv.children
    obtain ⟨ha, hre⟩ := Stmt.clauseBody_sound body fun c hc => hcl c (.tail _ hc)
    have hc := clause_sound (test.code_sound (hcl _ (.head _))) ha hre
    intro g hg
    exact Otherwise.code_sound otherwise ho hc [] g g hg rfl (by simp [Draft.Dangling])
  | .numericFor s name first limit step body, hv => by
    obtain ⟨hr, hb⟩ := List.forall_mem_append.mp hv.children
    have hf := first.code_sound (hr _ (.tail _ (.head _)))
    have hl := limit.code_sound (hr _ (.tail _ (.tail _ (.head _))))
    cases step with
    | none =>
      simp only [Stmt.code]
      exact numericFor_sound s.start name.name hf hl (by simp) (Stmt.codeAll_sound body hb)
    | some step =>
      simp only [Stmt.code]
      have hs := step.code_sound ((List.forall_mem_append.mp hr).2 _ (.head _))
      exact numericFor_sound s.start name.name hf hl (fun e he => by cases he; exact hs)
        (Stmt.codeAll_sound body hb)
  | .genericFor s names exprs body, hv => by
    simp only [Stmt.code, Expr.codesOnto_eq]
    obtain ⟨hex, hb⟩ := List.forall_mem_append.mp hv.children
    exact genericFor_sound s.start names (Expr.codes_sound exprs (List.forall_mem_append.mp hex).2)
      (Stmt.codeAll_sound body hb)
  | .return s values, hv => by
    simp only [Stmt.code, Expr.codesOnto_eq]
    exact returnStatement_sound s.start (Expr.codes_sound values hv.children)
  | .break _, _ => breakStatement_sound

lemma Stmt.codeAll_sound : (body : List Stmt) → (∀ c ∈ body.map stmt, c.Valued lax) →
    BodySound lax (Stmt.codeAll body)
  | [], _ => bodySound_nil
  | s :: rest, hv => by
    simp only [Stmt.codeAll]
    exact (statement_sound _ (s.code_sound (hv _ (.head _)))).cons
      (Stmt.codeAll_sound rest fun c hc => hv c (.tail _ hc))

lemma Stmt.clauseBody_sound : (body : List Stmt) →
    (∀ c ∈ body.map stmt, c.Valued lax) → BodySound lax (Stmt.clauseBody body).all ∧
      ∀ rest, (Stmt.clauseBody body).afterBreak = some (some rest) → BodySound lax rest
  | [], _ => ⟨bodySound_nil, by simp [Stmt.clauseBody]⟩
  | s :: rest, hv => by
    have hs := statement_sound s.span.start (s.code_sound (hv _ (.head _)))
    have hre := Stmt.codeAll_sound rest fun c hc => hv c (.tail _ hc)
    simp only [Stmt.clauseBody]
    refine ⟨hs.cons hre, fun r hr => ?_⟩
    split at hr
    · split at hr
      · cases hr
      · cases hr
        exact hre
    · cases hr

lemma Otherwise.code_sound : (o : Otherwise) → (∀ c ∈ o.parts, c.Valued lax) →
    {clause : Bool → List Nat → Gen (List Nat)} → ClauseSound lax clause →
    ConditionalSound lax (o.code clause)
  | .none, _, clause, hc => by
    intro escapes g g0 hg ha he
    simp only [Otherwise.code]
    refine (hc.next true hg ha he).bind ?_
    rintro escapes' g1 ⟨h1, ha1, he1⟩
    exact passes_escapes h1 ha1 he1
  | .elseIf s test body otherwise, hv, clause, hc => by
    intro escapes g g0 hg ha he
    obtain ⟨hcl, ho⟩ := List.forall_mem_append.mp (hv _ (.head _)).children
    obtain ⟨hal, hr⟩ := Stmt.clauseBody_sound body fun c hc => hcl c (.tail _ hc)
    have hc' := clause_sound (test.code_sound (hcl _ (.head _))) hal hr
    simp only [Otherwise.code]
    refine (hc.next false hg ha he).bind ?_
    rintro escapes' g1 ⟨h1, ha1, he1⟩
    refine (meets_setPos h1.reaches s.start).bind fun _ g2 h2 => ?_
    refine Otherwise.code_sound otherwise ho hc' escapes' g g2 (Rests.step h1 h2)
      (h2.active.trans ha1) (he1.frame h2.frame ?_)
    have := hg.active_le
    rw [ha] at this
    omega
  | .block _ body, hv, clause, hc => by
    intro escapes g g0 hg ha he
    simp only [Otherwise.code]
    refine (hc.next false hg ha he).bind ?_
    rintro escapes' g1 ⟨h1, ha1, he1⟩
    have hb := Stmt.codeAll_sound body (hv _ (.head _)).children
    refine (meets_block hb h1.restart).bind ?_
    rintro - g2 ⟨h2, ha2⟩
    exact passes_escapes (h1.trans h2) (ha2.trans ha1)
      (he1.frame h2.frame (Nat.le_of_eq (by rw [ha1])))

end

lemma SourceTree.meets_code (source : ChunkName) (hv : (chunk tree).Valued lax) :
    Meets lax (Generator.start source) tree.code fun _ g =>
      g.source = source ∧ g.prototype.AllVerified := by
  have hst : (Generator.start source).Rests (Generator.start source) :=
    have hsi : #[(⟨environmentName, true, 0⟩ : UpvalueDescriptor)].size ≤ maxUpvalues := by decide
    (passes_new source 0 true 0 0 hsi (by simp [Chained])).mono (Nat.zero_le _)
  refine (Stmt.codeAll_sound tree.body hv.children _ hst).bind fun _ g h1 => ?_
  obtain ⟨b, hb⟩ : ∃ b, g.blocks = [b] := by
    obtain ⟨b, hb, -⟩ := List.map_eq_singleton_iff.mp h1.shapes
    exact ⟨b, hb⟩
  have hp : g.numParams.toNat ≤ g.maxStackSize := by
    rw [h1.frame.numParams]
    exact Nat.zero_le _
  refine (meets_finish _ h1.ready hb hp).mono ?_
  rintro - g' ⟨-, -, hs, hve⟩
  exact ⟨hs.trans h1.frame.source, hve⟩

namespace Generator

variable {g g' : Generator} {m r : Nat}

/-- States behind statements, possibly with registers reserved for what comes next. -/
inductive Occurs : Generator → Prop
  | start (source : ChunkName) : Occurs (.start source)
  | statement {g g' : Generator} (s : Stmt) (h : Occurs g) (hfree : g.firstFree = g.active.size)
      (hrun : Gen.statement s.span.start s.code g = .ok ((), g')) : Occurs g'
  | reserve {g g' : Generator} {r : Nat} (n : Nat) (h : Occurs g)
      (hrun : Gen.reserve n g = .ok (r, g')) : Occurs g'

lemma Passes.again (h : g.Passes m .plain r g') (hm : g'.active.size ≤ m) :
    g'.Passes g'.active.size .plain g'.firstFree g' := by
  obtain rfl := h.top
  exact h.restart.mono hm

lemma Occurs.passes (h : g.Occurs) : g.Passes g.active.size .plain g.firstFree g := by
  induction h with
  | start source =>
    have hs : #[(⟨environmentName, true, 0⟩ : UpvalueDescriptor)].size ≤ maxUpvalues := by
      decide
    exact (passes_new source 0 true 0 0 hs (by simp [Chained])).again (Nat.zero_le _)
  | @statement g g' s _ hfree hrun ih =>
    have hsound : StatementSound True s.code := Stmt.code_sound s (.inl trivial)
    rw [hfree] at ih
    exact ((statement_sound s.span.start hsound g ih).of_ok hrun).again .refl
  | @reserve g g' k n _ hrun ih =>
    have hre : Gen.Meets True g (Gen.reserve n) _ := meets_reserve ih.reaches n
    obtain ⟨-, hreaches⟩ := hre.of_ok hrun
    exact (ih.step hreaches).again (by rw [hreaches.active])

end Generator

lemma generate_main (h : generate source tree = .ok c) :
    ∃ main, c.main = some main ∧ main.source = source ∧ main.form = none ∧
      main.AllVerified := by
  obtain ⟨g, hr, hm⟩ := generate_ok h
  obtain ⟨hs, hv⟩ := (tree.meets_code source (.inl trivial)).of_ok hr
  exact ⟨_, hm, hs, rfl, hv⟩

lemma generate_verified (h : generate source tree = .ok c) :
    ∃ main, c.main = some main ∧ ∀ path f, main.nested? path = some f → f.Verified := by
  obtain ⟨main, hm, -, -, hv⟩ := generate_main h
  exact ⟨main, hm, fun path f hf => (hv path f hf).1⟩

theorem compile_verified {source : ChunkName} {src : Bytes} {c : Chunk}
    (h : compile source src = .ok c) :
    ∃ main, c.main = some main ∧ ∀ path f, main.nested? path = some f → f.Verified := by
  obtain ⟨tree, -, hgen⟩ := compile_ok h
  exact generate_verified hgen

def closuresText : Bytes := .ofString
  "local function f(...) while ... do local x = f; if x then break end;
    repeat local y = function() return x, f end until y(...) end; return f(...) end; return f"

theorem compile_verified_closures : ∃ c, compile (.ofString "=closures") closuresText = .ok c ∧
    ∃ main, c.main = some main ∧ ∀ path f, main.nested? path = some f → f.Verified := by
  have hok : (compile (.ofString "=closures") closuresText).isOk = true := by decide +kernel
  cases h : compile (.ofString "=closures") closuresText with
  | ok c => exact ⟨c, rfl, compile_verified h⟩
  | error e =>
    rw [h] at hok
    cases hok

end LuaBytecode
