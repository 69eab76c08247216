import LuaBytecode.Proofs.Execution.Loop
import LuaBytecode.Proofs.Generator.Tree
import LuaBytecode.Proofs.Grammar.WellFormed

namespace LuaBytecode

open Gen Generator Draft

variable {d : Draft} {b : Block} {ops : Operators} {f : Prototype} {names : Names} {g : Generator}
  {tree : SourceTree} {k : Nat}

section

def Stmt.declared : Stmt → Names
  | .declare _ names _ => ((names.map (·.name)).map some).reverse
  | _ => []

def Stmt.declaredAll : List Stmt → Names
  | [] => []
  | s :: rest => Stmt.declaredAll rest ++ s.declared

lemma Stmt.scopeBehind_eq (names : Names) (s : Stmt) :
    s.scopeBehind names.reduceOption = (s.declared ++ names).reduceOption := by
  cases s with
  | declare _ xs _ =>
    simp [scopeBehind, declared, List.reduceOption, ← List.map_reverse, Function.comp_def]
  | _ => rfl

lemma Stmt.scopesBehind_eq (body : List Stmt) (names : Names) :
    body.foldl Stmt.scopeBehind names.reduceOption =
      (Stmt.declaredAll body ++ names).reduceOption := by
  induction body generalizing names with
  | nil => rfl
  | cons s rest ih =>
    rw [List.foldl_cons, Stmt.scopeBehind_eq, ih, declaredAll, List.append_assoc]

lemma Expr.codes_means (ho : ops.Folds) (es : List Expr)
    (h : es.all (·.isSimple names.reduceOption) = true) :
    List.Forall₂ (fun e v => e.Means ops f names v) (es.map Expr.code)
      (es.map fun e env => e.eval ops env) := by
  rw [List.all_eq_true] at h
  induction es with
  | nil => exact .nil
  | cons e rest ih =>
    exact .cons (e.code_means ho (h e (by simp))) (ih fun x hx => h x (by simp [hx]))

lemma Expr.targets_eq (targets : List Expr)
    (h : targets.all (·.isVariable names.reduceOption) = true) : ∃ ids : List Ident,
      targets = ids.map Expr.ident ∧ ∀ id ∈ ids, some id.name ∈ names := by
  rw [List.all_eq_true] at h
  induction targets with
  | nil => exact ⟨[], rfl, by simp⟩
  | cons e rest ih =>
    obtain ⟨ids, rfl, hi⟩ := ih fun x hx => h x (by simp [hx])
    have he := h e (by simp)
    cases e with
    | ident id =>
      refine ⟨id :: ids, rfl, List.forall_mem_cons.mpr ⟨?_, hi⟩⟩
      simpa [isVariable, List.reduceOption_mem_iff] using he
    | _ => cases he

mutual

lemma Stmt.code_means (ho : ops.Folds) : (s : Stmt) → (names : Names) →
    (SyntaxNode.stmt s).WellFormed k → s.isStructured names.reduceOption = true →
    StatementMeans ops f (s.behavior ops) names s.declared s.code
  | .assign s targets values, names, _, h => by
    simp only [Stmt.isStructured, Bool.and_eq_true] at h
    obtain ⟨ids, rfl, hi⟩ := Expr.targets_eq targets h.1
    have hes := Expr.codes_means (f := f) ho values h.2
    simpa [Stmt.behavior, Stmt.code, Stmt.declared, Expr.codesOnto_eq, Expr.code, Expr.assigned,
      Function.comp_def] using assign_means s.start hi hes
  | .declare _ xs values, names, hn, h => by
    have hes := Expr.codes_means (f := f) ho values h
    have hs := Expr.codes_sound values fun _ _ => .inl trivial
    have hnames : ∀ x ∈ xs, isHidden x.name = false := fun x hx =>
      ((List.forall_mem_append.mp hn.children).1 _ (List.mem_map_of_mem hx)).self.1
    simpa [Stmt.behavior, Stmt.code, Stmt.declared, Expr.codesOnto_eq, Function.comp_def] using
      declareLocals_means hes hs hnames
  | .scope _ body, names, hn, h => by
    simp only [Stmt.code, Stmt.behavior]
    exact (block_means (Stmt.codeAll_means ho body names hn.children h)).statement
  | .while s cond body, names, hn, h => by
    simp only [Stmt.isStructured, Bool.and_eq_true] at h
    simp only [Stmt.code, Stmt.behavior]
    exact whileLoop_means _ (cond.code_means ho h.1) (Stmt.codeAll_means ho body names
      (fun c hc => hn.children c (.tail _ hc)) h.2)
  | .repeat _ body cond, names, hn, h => by
    simp only [Stmt.isStructured, Bool.and_eq_true, Stmt.scopesBehind_eq] at h
    simp only [Stmt.code, Stmt.behavior]
    exact repeatLoop_means (Stmt.codeAll_means ho body names
      (List.forall_mem_append.mp hn.children).1 h.1) (cond.code_means ho h.2)
  | .cond _ test body otherwise, names, hn, h => by
    simp only [Stmt.isStructured, Bool.and_eq_true] at h
    simp only [Stmt.code, Stmt.behavior]
    obtain ⟨hcl, hot⟩ := List.forall_mem_append.mp hn.children
    obtain ⟨ha, hbr⟩ := Stmt.clauseBody_means ho body names (fun c hc => hcl c (.tail _ hc)) h.1.2
    have hc := clause_means (test.code_means ho h.1.1) ha hbr
    exact (Otherwise.code_means ho otherwise names hot h.2 hc).statement
  | .numericFor s name first limit step body, names, hn, h => by
    have hna := (hn.children _ (.head _)).self.1
    have hb := (List.forall_mem_append.mp hn.children).2
    cases step with
    | none =>
      simp only [Stmt.isStructured, Bool.and_eq_true] at h
      simp only [Stmt.code, Stmt.behavior]
      exact numericFor_means s.start hna (first.code_means ho h.1.1.1)
        (limit.code_means ho h.1.1.2) (by simp) (by simp)
        (Stmt.codeAll_means ho body (counted name.name names) hb h.2)
    | some step =>
      simp only [Stmt.isStructured, Bool.and_eq_true] at h
      simp only [Stmt.code, Stmt.behavior]
      have hst : step.code.Means ops f names _ := step.code_means ho h.1.2
      exact numericFor_means s.start hna (first.code_means ho h.1.1.1)
        (limit.code_means ho h.1.1.2) (fun e he => by cases he; exact hst) (by simp)
        (Stmt.codeAll_means ho body (counted name.name names) hb h.2)
  | .return s values, names, _, h => by
    have hes := Expr.codes_means (f := f) ho values h
    simpa [Stmt.behavior, Stmt.code, Stmt.declared, Expr.codesOnto_eq, Function.comp_def] using
      returnStatement_means s.start hes
  | .break _, names, _, _ => by
    simp only [Stmt.code, Stmt.behavior]
    exact breakStatement_means
  | .call .., _, _, h | .function .., _, _, h | .localFunction .., _, _, h
  | .genericFor .., _, _, h =>
    by simp [Stmt.isStructured] at h

lemma Stmt.codeAll_means (ho : ops.Folds) : (body : List Stmt) → (names : Names) →
    (∀ c ∈ body.map SyntaxNode.stmt, c.WellFormed k) →
    Stmt.areStructured names.reduceOption body = true →
    BodyMeans ops f (Stmt.behaviorAll ops body) names (Stmt.declaredAll body) (Stmt.codeAll body)
  | [], _, _, _ => bodyMeans_nil
  | s :: rest, names, hn, h => by
    simp only [Stmt.areStructured, Bool.and_eq_true, Stmt.scopeBehind_eq] at h
    simp only [Stmt.codeAll, Stmt.behaviorAll, Stmt.declaredAll]
    exact (statement_means _ (s.code_means ho names (hn _ (.head _)) h.1)).cons
      (Stmt.codeAll_means ho rest _ (fun c hc => hn c (.tail _ hc)) h.2)

lemma Stmt.clauseBody_means (ho : ops.Folds) : (body : List Stmt) →
    (names : Names) → (∀ c ∈ body.map SyntaxNode.stmt, c.WellFormed k) →
    Stmt.areStructured names.reduceOption body = true →
    BodyMeans ops f (Stmt.behaviorAll ops body) names (Stmt.declaredAll body)
        (Stmt.clauseBody body).all ∧
      ∀ rest?, (Stmt.clauseBody body).afterBreak = some rest? →
        (∃ B, Stmt.behaviorAll ops body = .seq .breaks B) ∧
          ∀ rest, rest? = some rest → ∃ B new, BodyMeans ops f B names new rest
  | [], _, _, _ => ⟨bodyMeans_nil, by simp [Stmt.clauseBody]⟩
  | s :: rest, names, hn, h => by
    simp only [Stmt.areStructured, Bool.and_eq_true, Stmt.scopeBehind_eq] at h
    have hs := statement_means s.span.start (s.code_means ho names (hn _ (.head _)) h.1)
    have hre := Stmt.codeAll_means ho rest _ (fun c hc => hn c (.tail _ hc)) h.2
    simp only [Stmt.clauseBody, Stmt.behaviorAll, Stmt.declaredAll]
    refine ⟨hs.cons hre, fun rest? ha => ?_⟩
    cases s with
    | «break» span =>
      refine ⟨⟨_, rfl⟩, fun r hr => ?_⟩
      subst hr
      have hr : Stmt.codeAll rest = r := by
        by_cases he : rest.isEmpty = true
        · simp [Stmt.isBreak, he] at ha
        · simpa [Stmt.isBreak, he] using ha
      exact ⟨_, _, hr ▸ hre⟩
    | _ => cases ha

lemma Otherwise.code_means (ho : ops.Folds) : (o : Otherwise) → (names : Names) →
    (∀ c ∈ o.parts, c.WellFormed k) → o.isStructured names.reduceOption = true →
    {c : Env → Bool} → {B : Behavior} → {clause : Bool → List Nat → Gen (List Nat)} →
    ClauseMeans ops f names c B clause →
    ConditionalMeans ops f (.branch c B (o.behavior ops)) names (o.code clause)
  | .none, names, _, _, c, B, clause, hc => by
    simp only [Otherwise.code, Otherwise.behavior]
    exact hc.last
  | .elseIf s test body otherwise, names, hn, h, c, B, clause, hc => by
    simp only [Otherwise.isStructured, Bool.and_eq_true] at h
    obtain ⟨hcl, hot⟩ := List.forall_mem_append.mp (hn _ (.head _)).children
    obtain ⟨ha, hb⟩ := Stmt.clauseBody_means ho body names (fun c hc => hcl c (.tail _ hc)) h.1.2
    have hc' := clause_means (test.code_means ho h.1.1) ha hb
    simp only [Otherwise.code, Otherwise.behavior]
    exact hc.next s.start (Otherwise.code_means ho otherwise names hot h.2 hc')
  | .block _ body, names, hn, h, c, B, clause, hc => by
    simp only [Otherwise.code, Otherwise.behavior]
    exact hc.otherwise (block_means (Stmt.codeAll_means ho body names (hn _ (.head _)).children h))

end

end

def SourceTree.behavior (ops : Operators) (tree : SourceTree) : Behavior :=
  .seq (Stmt.behaviorAll ops tree.body) (.returns fun _ => [])

lemma SourceTree.behavior_returned {values : List Value} :
    (∃ env, tree.behavior ops [] env (.returned values)) ↔ tree.Yields ops values := by
  constructor
  · rintro ⟨env, ⟨env1, hb, -, hv⟩ | ⟨-, hb⟩⟩
    · exact ⟨env1, .inr ⟨hb, by simpa using hv⟩⟩
    · exact ⟨env, .inl hb⟩
  · rintro ⟨env, hb | ⟨hb, rfl⟩⟩
    · exact ⟨env, .inr ⟨by simp, hb⟩⟩
    · exact ⟨env, .inl ⟨env, hb, rfl, rfl⟩⟩

lemma SourceTree.not_behavior_normal {env env' : Env} : ¬ tree.behavior ops env env' .normal := by
  rintro (⟨env1, -, -, ho⟩ | ⟨hne, -⟩)
  · cases ho
  · exact hne rfl

lemma Generator.waits_start (source : ChunkName) : (Generator.start source).Waits [] where
  rests :=
    have hs : #[(⟨environmentName, true, 0⟩ : UpvalueDescriptor)].size ≤ maxUpvalues := by decide
    (passes_new source 0 true 0 0 hs (by simp [Chained])).mono (Nat.zero_le _)
  names := rfl
  uncaptured := by simp [Generator.start, Draft.enterBlock, Draft.new]

lemma Draft.settles_prototype (h : d.pending = []) : d.Settles (fun _ => False) d.prototype where
  code pc i hi _ _ := .inl (by simpa [prototype] using hi)
  jumps pc hpc := by
    obtain ⟨i, hi, hop, -⟩ := hpc
    exact ⟨i, by simpa [prototype] using hi, hop⟩
  constants k v hv := by simpa [prototype] using hv
  lands := ⟨d.code.size, .inl rfl, by simp [h]⟩

lemma breaksFrom_of_outermost (hs : d.Sound) (hb : d.blocks = [b]) : d.breaksFrom 0 = [] := by
  have hn := hs.nested
  rw [hb] at hn
  obtain ⟨-, -, hbr, hl, -⟩ := hn
  have hsi : d.breaks.size = 0 := by simpa [hl rfl] using hbr
  rw [← hsi]
  exact breaksFrom_of_eq rfl

lemma lastReturn_means (line : Int) : BodyMeans ops f (.returns fun _ => []) names []
    (do setLine line; discard (emitABC .return 0 1 0)) := by
  intro g hw
  refine (evaluates_setLine ops f hw.stands line).bind fun _ g1 h1 => ?_
  have hs1 := h1.stands hw.stands
  have hf : OpCode.return.Fits g1.bounds 0 1 0 0 := by
    constructor <;> simp
  refine (evaluates_emitABC f .return 0 1 0 hs1 rfl (by decide) (by decide) (by decide) hf
    (by simp [OpCode.Takes, OpCode.before]) (by simp)).discard fun _ g2 h2 => ?_
  have ha := h1.bind h2
  rw [ha.active]
  refine hw.executes ha .refl ?_
  rintro ⟨hid, i, hi, hP⟩ T
  have hn : g.toDraft.Computes ops f (fun ρ ρ' => ρ'.range 0 0 =
      ([] : List (Env → Value)).map (· (ρ.env names))) g1.toDraft := fun ρ => ⟨ρ, hid ρ, rfl⟩
  exact behaves_returns hn hi hP

lemma meets_leaveOutermost (hs : g.Sound) (hb : g.blocks = [b]) : Meets True g (do
      leaveBlock
      let isOpen ← read fun d => !d.blocks.isEmpty || !d.pending.isEmpty
      if isOpen then fault .openBlocks) fun _ g' =>
        g.Still g'.toDraft ∧ g'.pending = [] := by
  refine (meets_leaveLast hs hb).bind ?_
  rintro - g1 ⟨vars, -, hg1⟩
  have hst : g.Still g1.toDraft := by
    rw [hg1]
    exact ⟨_, _, _, _, _, _, rfl⟩
  refine meets_read ?_
  split
  · exact meets_fault trivial
  · refine meets_pure ⟨hst, ?_⟩
    have he : g1.pending.isEmpty = true := by simp_all
    exact List.isEmpty_iff.mp he

lemma SourceTree.code_means (source : ChunkName) (hop : ops.Folds)
    (hn : (SyntaxNode.chunk tree).WellFormed k) (h : Stmt.areStructured [] tree.body = true) :
    Meets True (Generator.start source) tree.code fun _ g => ∀ T,
      (Generator.start source).Behaves ops g.prototype (tree.behavior ops) []
        (Stmt.declaredAll tree.body) T g.toDraft := by
  have hc : tree.code = (do
      (do
        Stmt.codeAll tree.body
        (do setLine (lastLine 1 tree.body); discard (emitABC .return 0 1 0)))
      leaveBlock
      let isOpen ← read fun d => !d.blocks.isEmpty || !d.pending.isEmpty
      if isOpen then fault .openBlocks) := by
    simp only [SourceTree.code, finish, bind_assoc]
  rw [hc]
  have hw := Generator.waits_start source
  have hbo := fun f => (Stmt.codeAll_means (f := f) hop tree.body [] hn.children h).cons
    (lastReturn_means (lastLine 1 tree.body))
  refine (Meets.forall fun f => hbo f hw).bind fun _ g1 h1 => ?_
  have hb : g1.blocks = (Generator.start source).blocks := ((h1 default).walks 0).blocks
  have hs := (h1 default).passes.ready.sound
  have hbr := breaksFrom_of_outermost hs hb
  refine (meets_leaveOutermost hs hb).mono ?_
  rintro - g2 ⟨hst, hp⟩ T
  have ht := ((h1 g2.prototype).walks T).traces.bind (hst.traces ops _)
  have ho : g1.breaksFrom (Generator.start source).breaks.size = [] := hbr
  rw [ho] at ht
  obtain ⟨-, hbe, hi⟩ := ht.simulates (fun _ => False) (fun _ h => h.elim)
    ((settles_prototype hp).congr (by simp [aim, Aims.places])) (by simp [aim])
  exact hbe.after hi.here

lemma Draft.Behaves.computes {d' : Draft} {new : Names}
    (h : ∀ T, d.Behaves ops f (tree.behavior ops) [] new T d') {m : Machine} {ρ : Regs}
    (hm : m.Arrives ops f d ρ) : (∀ values, m.Returns ops f values ↔ tree.Yields ops values) ∧
      (m.Diverges ops f ↔ ∀ values, ¬ tree.Yields ops values) := by
  have hr : ∀ values, tree.Yields ops values → m.Returns ops f values := by
    intro values hyi
    obtain ⟨env, hB⟩ := SourceTree.behavior_returned.mpr hyi
    exact (h 0).returned ρ env values hB m hm
  have hyi : m.Terminates ops f → ∃ values, tree.Yields ops values := by
    intro ht
    obtain ⟨env, out, hB⟩ := (h 0).ends ρ m hm ht
    cases out with
    | normal => exact absurd hB SourceTree.not_behavior_normal
    | broke =>
      -- a break would go everywhere at once
      have hmo : ∀ T, ∃ ρ', m.Moves ops f ⟨T, ρ'⟩ := by
        intro T
        obtain ⟨ρ', -, -, hmo⟩ := (h T).broke ρ env hB
        exact ⟨ρ', hmo m hm⟩
      exact (Machine.not_moves_everywhere hmo).elim
    | returned values => exact ⟨values, SourceTree.behavior_returned.mp ⟨env, hB⟩⟩
  refine ⟨fun values => ⟨fun hre => ?_, hr values⟩, fun hd values hy => ?_, fun hn => ?_⟩
  · obtain ⟨values', hy⟩ := hyi (Machine.terminates_of_not_diverges hre.not_diverges)
    rwa [(hr values' hy).unique hre]
  · exact (hr values hy).not_diverges hd
  · by_contra hd
    obtain ⟨values, hy⟩ := hyi (Machine.terminates_of_not_diverges hd)
    exact hn values hy

lemma generate_computes {source : ChunkName} {c : Chunk} (ho : ops.Folds)
    (hn : (SyntaxNode.chunk tree).WellFormed k) (hs : Stmt.areStructured [] tree.body = true)
    (h : generate source tree = .ok c) : ∃ main, c.main = some main ∧ ∀ ρ,
      (∀ values, (Machine.start ρ).Returns ops main values ↔ tree.Yields ops values) ∧
      ((Machine.start ρ).Diverges ops main ↔ ∀ values, ¬ tree.Yields ops values) := by
  obtain ⟨g, hr, hm⟩ := generate_ok h
  have hb := (tree.code_means source ho hn hs).of_ok hr
  exact ⟨_, hm, fun ρ => Behaves.computes hb (.falls .refl (at_of_lastNil? rfl ρ))⟩

/-- Whatever is in the registers at its start, the compiled code returns what the text yields, and
runs on forever if that is nothing. -/
theorem compile_computes {source : ChunkName} {src : Bytes} {tree : SourceTree} {c : Chunk}
    (hops : ops.Folds) (hparse : parse source.shown src = .ok tree)
    (hstruct : Stmt.areStructured [] tree.body = true) (h : compile source src = .ok c) :
    ∃ main, c.main = some main ∧ ∀ ρ : Regs,
      (∀ values, (Machine.start ρ).Returns ops main values ↔ tree.Yields ops values) ∧
      ((Machine.start ρ).Diverges ops main ↔ ∀ values, ¬ tree.Yields ops values) := by
  obtain ⟨tree', hparse', hgen⟩ := compile_ok h
  cases hparse.symm.trans hparse'
  exact generate_computes hops (parse_wellFormed (Nat.lt_succ_self _) hparse) hstruct hgen

def loopsText : Bytes := .ofString
  "local a for a = a, a, a do if a then break end end
    repeat local b = not a while a do a = b end until b return a"

theorem compile_computes_loops : Operators.folding.Folds ∧ ∃ tree c main,
    parse (ChunkName.shown (.ofString "=loops")) loopsText = .ok tree ∧
      Stmt.areStructured [] tree.body = true ∧
      compile (.ofString "=loops") loopsText = .ok c ∧ c.main = some main ∧ ∀ ρ : Regs,
      (∀ values, (Machine.start ρ).Returns .folding main values ↔ tree.Yields .folding values) ∧
      ((Machine.start ρ).Diverges .folding main ↔ ∀ values, ¬ tree.Yields .folding values) := by
  have hread : ((parse (ChunkName.shown (.ofString "=loops")) loopsText).toOption.map fun tree =>
      (Stmt.areStructured [] tree.body, (generate (.ofString "=loops") tree).isOk)) =
        some (true, true) := by decide +kernel
  cases hparse : parse (ChunkName.shown (.ofString "=loops")) loopsText with
  | error e => simp [hparse, Except.toOption] at hread
  | ok tree =>
    simp only [hparse, Except.toOption, Option.map_some, Option.some.injEq, Prod.mk.injEq] at hread
    obtain ⟨hstruct, hok⟩ := hread
    cases hgen : generate (.ofString "=loops") tree with
    | error e => simp [hgen, Except.isOk, Except.toBool] at hok
    | ok c =>
      have hcompile : compile (.ofString "=loops") loopsText = .ok c := by
        simp [compile, hparse, hgen, Except.mapError, bind, Except.bind]
      obtain ⟨main, hmain, hcomputes⟩ :=
        compile_computes Operators.folds_folding hparse hstruct hcompile
      exact ⟨Operators.folds_folding, tree, c, main, rfl, hstruct, hcompile, hmain, hcomputes⟩

end LuaBytecode
