import LuaBytecode.Proofs.Generator.Tree
import LuaBytecode.Proofs.Trace.Expression

namespace LuaBytecode

open Draft Gen Trace ExprCode

variable {values : List ExprCode} {jumps : List Nat} {cond : ExprCode} {isLoop : Bool} {n n' : Nat}

structure Draft.SameVariables (d d' : Draft) : Prop where
  firstFree : d'.firstFree = d.firstFree
  released : d'.released = d.released
  maxStackSize : d'.maxStackSize = d.maxStackSize
  active : d'.active = d.active
  localVariables : d'.localVariables = d.localVariables
  scopes : d'.blocks.map (fun b => (b.numActive, b.isLoop)) =
    d.blocks.map fun b => (b.numActive, b.isLoop)

lemma Draft.SameVariables.trans {d d' d'' : Draft} (h : d.SameVariables d')
    (h' : d'.SameVariables d'') : d.SameVariables d'' :=
  ⟨h'.firstFree.trans h.firstFree, h'.released.trans h.released,
    h'.maxStackSize.trans h.maxStackSize, h'.active.trans h.active,
    h'.localVariables.trans h.localVariables, h'.scopes.trans h.scopes⟩

lemma Draft.Touched.sameVariables {d d' : Draft} (h : d.Touched d') : d.SameVariables d' :=
  ⟨by rw [h.eq], by rw [h.eq], by rw [h.eq], by rw [h.eq], by rw [h.eq], h.scopes⟩

namespace Trace

open Gen

variable {α β : Type} {σ : Shape} {body : Gen Unit} {es : List ExprCode} {m : Gen α} {s : State}
  {line : Int}

structure Shape.Settled (σ : Shape) : Prop where
  scopes : σ.scopes ≠ []
  outside : σ.Outside σ.level

structure Shape.Open (σ : Shape) : Prop extends σ.Settled where
  body : ∀ scope ∈ σ.scopes.head?, scope.2 = false

def Extends (m : Gen α) : Prop :=
  ∀ σ : Shape, σ.Open → Traces σ m fun _ σ' => ∃ n, σ.level ≤ n ∧ σ' = { σ with level := n }

def Restores (m : Gen α) : Prop := ∀ σ : Shape, σ.Settled → Traces σ m fun _ σ' => σ' = σ

lemma Shape.Outside.mono (h : σ.Outside n) (hn : n ≤ n') : σ.Outside n' :=
  ⟨fun m hm => Nat.le_trans (h.held m hm) hn, fun t ht => Nat.le_trans (h.targets t ht) hn⟩

lemma Shape.Settled.raise (h : σ.Settled) (hn : σ.level ≤ n) :
    Shape.Settled { σ with level := n } :=
  ⟨h.scopes, ⟨(h.outside.mono hn).held, (h.outside.mono hn).targets⟩⟩

lemma Shape.Open.raise (h : σ.Open) (hn : σ.level ≤ n) : Shape.Open { σ with level := n } :=
  ⟨h.toSettled.raise hn, h.body⟩

lemma Shape.Settled.enter (h : σ.Settled) (isLoop : Bool) : (σ.enter isLoop).Settled :=
  ⟨by simp [Shape.enter], ⟨h.outside.held, h.outside.targets⟩⟩

lemma Shape.Settled.enter_open (h : σ.Settled) : (σ.enter false).Open :=
  ⟨h.enter false, by simp [Shape.enter]⟩

lemma Shape.Outside.hold (h : σ.Outside n) (hn : σ.level ≤ n) (jumps : List Nat) :
    (σ.hold jumps).Outside n := by
  refine ⟨fun m hm => ?_, h.targets⟩
  rcases List.mem_append.mp hm with hm | hm
  · obtain ⟨pc, -, rfl⟩ := List.mem_map.mp hm
    exact hn
  · exact h.held m hm

lemma Shape.Settled.hold (h : σ.Settled) (jumps : List Nat) : (σ.hold jumps).Settled :=
  ⟨h.scopes, h.outside.hold .refl jumps⟩

lemma Shape.Settled.aim (h : σ.Settled) (pc : Nat) : (σ.aim pc).Settled := by
  refine ⟨h.scopes, h.outside.held, fun t ht => ?_⟩
  rcases List.mem_cons.mp ht with rfl | ht
  · exact .refl
  · exact h.outside.targets t ht

lemma Still.restores (h : Still m) : Restores m := fun σ _ => h.traces σ

lemma Restores.extends (h : Restores m) : Extends m :=
  fun σ hσ => (h σ hσ.toSettled).mono fun _ _ heq => ⟨σ.level, .refl, heq⟩

lemma Still.extends (h : Still m) : Extends m := h.restores.extends

lemma Extends.bind {f : α → Gen β} (hm : Extends m) (hf : ∀ a, Extends (f a)) :
    Extends (m >>= f) := by
  intro σ hσ
  refine (hm σ hσ).bind ?_
  rintro a - ⟨n, hn, rfl⟩
  refine (hf a _ (hσ.raise hn)).mono ?_
  rintro b - ⟨n', hn', rfl⟩
  exact ⟨n', Nat.le_trans hn hn', rfl⟩

lemma extends_declareAll (names : List Bytes) : Extends (declareAll names) := by
  intro σ hσ
  obtain ⟨⟨n, isLoop⟩, outer, hs⟩ := List.exists_cons_of_ne_nil hσ.scopes
  have hb : isLoop = false := hσ.body (n, isLoop) (by simp [hs])
  have hd : Traces σ (declareAll names) _ := traces_declareAll hs (by simp [hb])
  exact hd.mono fun _ _ heq => ⟨_, Nat.le_add_right _ _, heq⟩

lemma traces_leave_entered (hσ : σ.Settled) :
    Traces { σ.enter isLoop with level := n } leaveBlock fun _ σ' => σ' = σ :=
  traces_leaveBlock (σ := { σ.enter isLoop with level := n }) rfl hσ.scopes
    ⟨hσ.outside.held, hσ.outside.targets⟩

lemma restores_block (h : Extends body) : Restores (block body) := by
  intro σ hσ
  refine (traces_enterBlock hσ.scopes).next fun _ => ?_
  refine (h _ hσ.enter_open).bind ?_
  rintro - - ⟨n, -, rfl⟩
  exact traces_leave_entered hσ

instance still_adjustTop (top : Nat) : Still (adjustTop top) := .bind

lemma still_evaluate (h : ∀ e ∈ es, e.Traced) (wanted : Nat) : Still (evaluate es wanted) := by
  induction es generalizing wanted with
  | nil => exact .ite
  | cons e rest ih =>
    have he := h e (by simp)
    have := ih fun e' he' => h e' (by simp [he'])
    unfold evaluate
    split
    · next results hr =>
      have := he.results results hr
      infer_instance
    · infer_instance

lemma still_assignValues (h : ∀ e ∈ es, e.Traced) (n : Nat) : Still (assignValues es n) := by
  have := still_evaluate h n
  exact .bind

instance still_protectTargets (earlier : List AssignTarget) (assigned : AssignTarget) :
    Still (protectTargets earlier assigned) := by
  refine .then fun extra => ?_
  cases assigned <;> infer_instance

lemma still_targets (h : ∀ e ∈ es, e.Traced) (done : List AssignTarget) :
    Still (targets es done) := by
  induction es generalizing done with
  | nil => exact .pure _
  | cons e rest ih =>
    have := (h e (by simp)).target
    have := ih fun e' he' => h e' (by simp [he'])
    exact .bind

instance still_storeOperand (t : AssignTarget) (arg : Nat) : Still (storeOperand t arg) := by
  unfold storeOperand
  cases t <;> infer_instance

instance still_store (t : AssignTarget) {e : ExprCode} [e.Traced] : Still (store t e) := by
  unfold store
  split <;> infer_instance

instance still_storeDown (ts : List AssignTarget) (top : Nat) : Still (storeDown ts top) := by
  induction ts generalizing top with
  | nil => exact .pure _
  | cons t rest ih => exact .bind

lemma still_nextRegs (h : ∀ e ∈ es, e.Traced) : Still (nextRegs es) := by
  induction es with
  | nil => exact .pure _
  | cons e rest ih =>
    have := h e (by simp)
    have := ih fun e' he' => h e' (by simp [he'])
    exact .bind

lemma still_assign (start : Position) {ts : List ExprCode} (hts : ∀ e ∈ ts, e.Traced)
    (hv : ∀ e ∈ values, e.Traced) : Still (assign start ts values) := by
  have := still_targets hts []
  have := still_assignValues hv
  refine .then fun done => .then fun _ => ?_
  dsimp only
  split
  · next last earlier value hl =>
    have := hv value (List.mem_of_getLast? hl)
    have := still_nextRegs fun e he => hv e (List.dropLast_subset _ he)
    infer_instance
  · infer_instance

lemma extends_declareLocals {names : List Ident} (h : ∀ e ∈ values, e.Traced) :
    Extends (declareLocals names values) :=
  .bind (still_assignValues h _).discard.extends fun _ => extends_declareAll _

structure Layer.Encloses (l : Layer) (dst : Nat) (l' : Layer) : Prop where
  draft : l.SameVariables l'.toDraft
  held : l'.held = l.held
  targets : l'.targets = l.targets
  fresh : l'.fresh = l.fresh
  made : ∃ i code, Patched l.pending l.code.size l.code code ∧ l'.code = code.push i ∧
    i.op? = some .closure ∧ i.argA = dst.toUInt8.toNat

lemma Layer.Encloses.shape {l l' : Layer} {dst : Nat} (h : l.Encloses dst l') :
    l'.shape = l.shape := by
  simp only [Layer.shape, h.draft.active, h.draft.scopes, h.held, h.targets]

lemma meets_openFunction {source : ChunkName} {n : UInt8} {isVararg : Bool} {first last : Int} :
    Meets True s.generator (openFunction (.new source n isVararg first last #[])) fun _ g => ∃ s',
      s'.generator = g ∧ s.StepsAbove s.enclosing.length s' ∧
        s'.enclosing = s.toLayer :: s.enclosing ∧ s'.shape = ⟨0, [(0, false)], [], []⟩ :=
  ⟨_, rfl, .of_step (.openFunction s source n isVararg first last) (Nat.le_succ _), rfl, rfl⟩

lemma meets_finish (hs : s.shape = ⟨n, [(0, false)], [], []⟩) :
    Meets True s.generator (finish line) fun _ g => ∃ s', s'.generator = g ∧ s.Moves s' ∧
      s'.held = [] ∧ s'.blocks = [] ∧ s'.pending = [] := by
  refine ((still_setLine line).traces _ s hs).bind ?_
  rintro - - ⟨s1, rfl, hm1, hs1⟩
  obtain ⟨b, hb⟩ : ∃ b, s1.blocks = [b] := by
    have hsc := congrArg Shape.scopes hs1
    exact List.length_eq_one_iff.mp (by simpa [Layer.shape] using congrArg List.length hsc)
  refine (meets_emit_of (Q := fun _ g => ∃ i d, i.op? = some .return ∧
    s1.emit i = .ok d ∧ g = ⟨d, s1.enclosing.map (·.toDraft)⟩) fun i d hi hd =>
      ⟨i, d, (Instruction.isABC_of_abc hi).op, hd, rfl⟩).discard_bind ?_
  rintro - - ⟨i, d, hop, he, rfl⟩
  have hd : d.blocks = [b] := by
    rw [emit_sameScope he]
    exact hb
  have hl : Meets True ⟨d, s1.enclosing.map (·.toDraft)⟩ leaveBlock fun _ g => ∃ s',
      s'.generator = g ∧ s.Moves s' ∧ s'.held = [] := by
    refine meets_of_ok fun _ g hg => ?_
    obtain ⟨hen, hle⟩ := leaveBlock_ok hd hg
    have hst := State.Step.finish hb (congrArg Shape.held hs1) hop he hg
    refine ⟨_, ?_, hm1.trans ⟨.of_step hst (Nat.le_refl _), forall₂_waits_refl _, ?_⟩, rfl⟩
    · show (⟨g.toDraft, _⟩ : Generator) = g
      rw [show s1.enclosing.map (·.toDraft) = g.enclosing from hen.symm]
    · exact (emit_keepsOps he).trans hle.keepsOps
  refine hl.bind ?_
  rintro - - ⟨s', rfl, hm, hh⟩
  refine meets_read ?_
  split
  · exact meets_fault trivial
  · next ho =>
    rw [Bool.or_eq_true, not_or] at ho
    refine meets_pure ⟨s', rfl, hm, hh, ?_, ?_⟩
    · simpa [State.generator] using ho.1
    · simpa [State.generator] using ho.2

lemma meets_closeFunction (hs : s.shape = ⟨n, [(0, false)], [], []⟩) :
    Meets True s.generator (closeFunction line) fun f g => ∃ s' l rest, s.Moves s' ∧
      s'.enclosing = l :: rest ∧ s'.held = [] ∧ s'.blocks = [] ∧
        s'.pending = [] ∧ f = s'.prototype ∧ g = ⟨l.toDraft, rest.map (·.toDraft)⟩ := by
  refine (meets_finish hs).bind ?_
  rintro - - ⟨s', rfl, hm, hh, hb, hp⟩
  cases he : s'.enclosing with
  | nil => simp [Meets, State.generator, he]
  | cons l rest =>
    simpa [Meets, State.generator, he] using ⟨s', hm, l, rest, he, hh, hb, hp, rfl, rfl, rfl⟩

lemma meets_closure {l : Layer} {rest : List Layer} {dst : Nat} (he : s.enclosing = l :: rest)
    (hb : s.blocks = []) (hpe : s.pending = [])
    (hh : s.held = []) :
    Meets True ⟨{ l.toDraft with functions := l.functions.push s.prototype },
      rest.map (·.toDraft)⟩ (do
        setLine line
        let count ← read (·.functions.size)
        discard <| emitABx .closure dst (count - 1)) fun _ g => ∃ d, g = ⟨d, rest.map (·.toDraft)⟩ ∧
          s.Step ⟨{ l with toDraft := d }, rest⟩ ∧ l.SameVariables d ∧ KeepsOps l.code d.code ∧
          ∃ i code, Patched l.pending l.code.size l.code code ∧ d.code = code.push i ∧
            i.op? = some .closure ∧ i.argA = dst.toUInt8.toNat := by
  refine meets_update_bind (meets_read ?_)
  refine (meets_emit_of fun i d hi hd => ?_).discard fun _ _ h => h
  have hx := Instruction.op?_of_abx hi
  have hbx : i.argBx = l.functions.size := by simp [hx.argBx]
  have hst := State.Step.closeFunction he hb hpe hh hx.op hbx hd
  have ho := emit_keepsOps hd
  obtain ⟨code, hp, rfl⟩ := emit_ok hd
  exact ⟨_, rfl, hst, ⟨rfl, rfl, rfl, rfl, rfl, rfl⟩, ho, i, code, hp, rfl, hx.op, hx.argA⟩

lemma meets_closure_run (span : Span) (params : List Ident) (isVararg : Bool)
    (hbo : Extends body) (dst : Nat) (s : State) :
    Meets True s.generator (closure span params isVararg body dst) fun _ g => ∃ s',
      s'.generator = g ∧ s.Moves s' ∧ s.Encloses dst s'.toLayer := by
  unfold Gen.closure
  refine meets_read ?_
  dsimp only
  split
  · exact meets_fail_bind nofun
  show Meets True s.generator (if _ then _ else _) _
  split
  · exact meets_update_bind (meets_fail_bind nofun)
  refine meets_read (meets_openFunction.bind ?_)
  rintro - - ⟨s1, rfl, hst1, he1, hs1⟩
  have ho : Shape.Open ⟨0, [(0, false)], [], []⟩ := ⟨⟨by simp, by simp, by simp⟩, by simp⟩
  have hpa := (still_setPos span.start).extends.bind fun _ =>
    extends_declareAll (params.map (·.name))
  have hbe := (hpa.bind fun _ => (still_reserve params.length).discard.extends).bind fun _ => hbo
  rw [← bind_assoc, ← bind_assoc, ← bind_assoc]
  refine (hbe _ ho s1 hs1).bind ?_
  rintro - - ⟨s2, rfl, hm2, n, -, hs2⟩
  refine (meets_closeFunction hs2).bind ?_
  rintro - - ⟨s3, l, rest, hm3, he3, hh, hb, hp, rfl, rfl⟩
  have hwa := (hm2.trans hm3).enclosing
  rw [he1, he3] at hwa
  obtain ⟨hw, hr⟩ := List.forall₂_cons.mp hwa
  refine meets_update_bind ((meets_closure he3 hb hp hh).mono ?_)
  rintro - - ⟨d, rfl, hstep, hsa, hop, hm⟩
  have hin := (hm2.trans hm3).steps.of_le (show s.enclosing.length ≤ _ by simp [he1])
  have hst := (hst1.trans hin).trans (State.StepsAbove.of_step hstep hr.length_eq.le)
  have hc : l.code = s.code := by rw [hw.draft.eq]
  have hpe : l.pending = s.pending := by rw [hw.draft.eq]
  rw [hc] at hop hm
  rw [hpe] at hm
  exact ⟨⟨{ l with toDraft := d }, rest⟩, rfl, ⟨hst, hr, hop⟩,
    hw.draft.sameVariables.trans hsa, hw.held, hw.targets, hw.fresh, hm⟩

lemma still_closure (span : Span) (params : List Ident) (isVararg : Bool) (hb : Extends body)
    (dst : Nat) : Still (closure span params isVararg body dst) := by
  refine ⟨fun σ s hs => ?_⟩
  refine (meets_closure_run span params isVararg hb dst s).mono ?_
  rintro - g ⟨s', hg, hm, he⟩
  exact ⟨s', hg, hm, by rw [he.shape, hs]⟩

lemma still_declareFunction (start : Position) {target function : ExprCode} (ht : target.Traced)
    (_ : function.Traced) : Still (declareFunction start target function) := by
  have := ht.target
  exact .bind

lemma still_callStatement {call : ExprCode} (h : call.Traced) : Still (callStatement call) := by
  refine .then fun _ => ?_
  split
  · next results hr => exact h.results results hr _ _ _
  · infer_instance

lemma restores_label {f : Nat → Gen Unit} (h : ∀ (σ : Shape) (start : Nat), σ.Settled →
    Traces (σ.aim start) (f start) fun _ σ' => σ' = σ.aim start) : Restores (label >>= f) := by
  intro σ hσ
  refine .rearrange (P := fun _ σ' => ∃ start, σ' = σ.aim start) (traces_label.bind ?_) ?_
  · rintro start - rfl
    exact (h σ start hσ).mono fun _ _ heq => ⟨start, heq⟩
  · rintro - - ⟨start, rfl⟩
    exact ⟨σ, σ.aim_rearranges start, rfl⟩

lemma restores_whileLoop (hc : cond.Traced) (hb : Extends body) (lastLine : Int) :
    Restores (whileLoop cond body lastLine) := by
  refine restores_label fun σ start hσ => ?_
  refine (hc.jumpIf false).then fun exits => ?_
  have ho : ((σ.aim start).hold exits).Settled := (hσ.aim start).hold exits
  refine (traces_enterBlock ho.scopes).next fun _ => ?_
  refine (restores_block hb _ (ho.enter true)).next fun _ => ?_
  refine (still_setLine _).then_traces fun _ => ?_
  refine (traces_jumpTo (σ := ((σ.aim start).hold exits).enter true) (t := ⟨start, σ.level⟩)
    (List.mem_cons_self ..) .refl).next fun _ => ?_
  refine (traces_leave_entered ho).next fun _ => ?_
  exact traces_patchToHere (σ := (σ.aim start).hold exits) rfl

lemma marks_lower (h : n ≤ n') : (marks jumps n').map (·.lower n) = marks jumps n := by
  simp [marks, Mark.lower, h]

lemma traces_closeLeave {outer : List (Nat × Bool)} (hscopes : σ.scopes = (n, isLoop) :: outer)
    (hou : outer ≠ []) (hn : n ≤ σ.level) (ho : σ.Outside n) :
    Traces (σ.hold jumps) (do closeInnermost jumps; leaveBlock)
      fun _ σ' => σ' = Shape.hold { σ with level := n, scopes := outer } jumps := by
  intro s hs
  have hcl : Meets True s.generator (closeInnermost jumps) fun _ g => ∃ s',
      s'.generator = g ∧ s.Moves s' ∧ s'.shape = σ.hold jumps ∧
        ∀ pc ∈ jumps, ∀ b rest, s'.blocks = b :: rest → b.isCaptured = true →
          ShutAt s'.code b.numActive pc := by
    refine meets_read ?_
    split
    · next scope hsc =>
      have hh : ∀ b rest, s.blocks = b :: rest → b = scope := by
        intro b rest hb
        simpa [State.generator, hb] using hsc
      obtain ⟨rest, hr⟩ : ∃ rest, s.blocks = scope :: rest := by
        cases hb : s.blocks with
        | nil => simp [State.generator, hb] at hsc
        | cons b rest => exact ⟨rest, by rw [hh b rest hb]⟩
      split
      · refine meets_updateOrFail_of fun d hd => ?_
        obtain ⟨code, hsh, rfl⟩ := closeAll_ok hd
        have hhe : s.held = marks jumps σ.level ++ σ.held := congrArg Shape.held hs
        refine ⟨_, rfl, .inside (.single (.close hhe hr hd)), hs, fun pc hpc b rest hb _ => ?_⟩
        have hlt := closeAll_lt hd pc hpc
        have hold : s.code[pc]? = some s.code[pc] := Array.getElem?_eq_getElem hlt
        obtain ⟨j, hj, -, -, hx⟩ := hsh.made pc hpc _ hold
        rw [hh b rest hb]
        exact ⟨j, hj, hx.op, hx.argA⟩
      · next hca =>
        refine meets_pure ⟨s, rfl, .refl s, hs, fun pc _ b rest hb hc => ?_⟩
        rw [hh b rest hb] at hc
        exact absurd hc hca
    · exact meets_fault trivial
  refine hcl.bind ?_
  rintro - - ⟨s', rfl, hmo, hs', hsh⟩
  have hsc' : s'.shape.scopes = (n, isLoop) :: outer := by
    rw [hs']
    exact hscopes
  have hh' : s'.held = marks jumps σ.level ++ σ.held := congrArg Shape.held hs'
  have ht' : s'.targets = σ.targets := congrArg Shape.targets hs'
  refine (meets_leave hsc' hou fun m hm => ?_).mono ?_
  · rw [hh'] at hm
    rcases List.mem_append.mp hm with hm | hm
    · obtain ⟨pc, hpc, rfl⟩ := List.mem_map.mp hm
      exact .inr fun b rest hb hc => hsh pc hpc b rest hb hc
    · exact .inl (ho.held m hm)
  · rintro - g ⟨s'', hg, hm', hs''⟩
    refine ⟨s'', hg, hmo.trans hm', ?_⟩
    have ht : σ.targets.filter (·.level ≤ n) = σ.targets :=
      List.filter_eq_self.mpr fun t hme => by simpa using ho.targets t hme
    rw [hs'', hh', ht', ht, List.map_append, map_lower_of_le ho.held, marks_lower hn]
    rfl

lemma restores_repeatLoop (hb : Extends body) (hc : cond.Traced) :
    Restores (repeatLoop body cond) := by
  refine restores_label fun σ start hσ => ?_
  have ho : (σ.aim start).Settled := hσ.aim start
  refine (traces_enterBlock ho.scopes).next fun _ => ?_
  refine (traces_enterBlock (ho.enter true).scopes).next fun _ => ?_
  refine (hb _ (ho.enter true).enter_open).bind ?_
  rintro - - ⟨n, hn, rfl⟩
  refine (still_setPos _).then_traces fun _ => (hc.jumpIf false).then fun again => ?_
  rw [← bind_assoc]
  refine (traces_closeLeave (σ := { ((σ.aim start).enter true).enter false with level := n }) rfl
    (ho.enter true).scopes hn ⟨ho.outside.held, ho.outside.targets⟩).next fun _ => ?_
  refine (traces_patchTo (σ := ((σ.aim start).enter true).hold again) (t := ⟨start, σ.level⟩) rfl
    (List.mem_cons_self ..) .refl).next fun _ => ?_
  exact traces_leave_entered (n := σ.level) ho

end Trace

structure ClauseBody.Traced (body : ClauseBody) : Prop where
  all : Trace.Extends body.all
  rest : ∀ m, body.afterBreak = some (some m) → Trace.Extends m

namespace Trace

open Gen

variable {α β : Type} {σ : Shape} {body : Gen Unit} {s : State}

lemma traces_endClause (isLast : Bool) (escapes skip : List Nat) {rest : Gen Unit}
    (hr : Extends rest) (hσ : σ.Settled) :
    Traces (((σ.hold escapes).hold skip).enter false) (endClause isLast escapes rest skip)
      fun jumps σ' => σ' = σ.hold jumps := by
  have ho : ((σ.hold escapes).hold skip).Settled := (hσ.hold escapes).hold skip
  refine (hr _ ho.enter_open).bind ?_
  rintro - - ⟨n, -, rfl⟩
  refine (traces_leave_entered ho).next fun _ => ?_
  split
  · refine (traces_patchToHere (σ := (σ.hold escapes).hold skip) rfl).next fun _ => ?_
    exact .pure rfl
  · refine jumps_jump.then fun escape => ?_
    refine .rearrange_before (Shape.hold_comm (σ.hold escapes) skip escape) ?_
    refine (traces_patchToHere (σ := ((σ.hold escapes).hold escape).hold skip) rfl).next fun _ => ?_
    exact (Traces.pure (Q := fun jumps σ' => jumps = escapes ++ escape ∧
      σ' = (σ.hold escapes).hold escape) ⟨rfl, rfl⟩).rearrange fun _ _ ⟨hj, heq⟩ =>
        ⟨_, heq ▸ Shape.hold_append σ escapes escape, by rw [hj]⟩

lemma traces_clause {test : ExprCode} (ht : test.Traced) {body : ClauseBody}
    (hb : body.Traced) (isLast : Bool) (escapes : List Nat) (hσ : σ.Settled) :
    Traces (σ.hold escapes) (clause test body isLast escapes) fun jumps σ' =>
      σ' = σ.hold jumps := by
  refine traces_isInLoop ?_
  split
  · next rest? ha hl =>
    refine (ht.jumpIf true).then fun breaks =>
      (traces_enterBlock ((hσ.hold escapes).hold breaks).scopes).next fun _ => ?_
    refine (traces_addBreak (σ := ((σ.hold escapes).hold breaks).enter false) rfl ?_).bind ?_
    · simp only [Shape.enter, Shape.hold, List.any_cons, Bool.false_or]
      exact hl
    rintro - - rfl
    have ho : (σ.hold escapes).Settled := hσ.hold escapes
    cases rest? with
    | none =>
      refine (traces_leave_entered ho).next fun _ => ?_
      exact .pure rfl
    | some rest =>
      exact jumps_jump.then fun skip =>
        traces_endClause isLast escapes skip (hb.rest rest ha) hσ
  · refine (ht.jumpIf false).then fun skip =>
      (traces_enterBlock ((hσ.hold escapes).hold skip).scopes).next fun _ => ?_
    exact traces_endClause isLast escapes skip hb.all hσ

lemma restores_loopBody (names : List Bytes) (hb : Extends body) :
    Restores (loopBody names body) := by
  intro σ hσ
  refine (traces_enterBlock hσ.scopes).next fun _ => ?_
  have hd := extends_declareAll names _ hσ.enter_open
  refine hd.bind ?_
  rintro - - ⟨n, hn, rfl⟩
  refine (still_reserve _).discard.then_traces fun _ => ?_
  refine (restores_block hb _ ((hσ.enter false).raise hn)).next fun _ => ?_
  exact traces_leave_entered hσ

lemma still_loopStep {step : Option ExprCode} (h : ∀ e, step = some e → e.Traced) :
    Still (loopStep step) := by
  cases step with
  | some e =>
    have := h e rfl
    exact .discard
  | none => exact .bind

lemma traces_endFor {op : OpCode} (n a : Nat) (prep : List Nat) (back : Nat)
    (hop : op.isJump = true) (hj : op ≠ .jmp) (hσ : σ.Settled) {between : Gen Unit}
    (hb : Still between) (line : Int) :
    Traces ((Shape.hold { σ.enter true with level := n } prep).aim back) (do
      patchToHere prep
      setLine line
      between
      let loop ← emitAsBx op a 0
      patchTo [loop] back
      leaveBlock) fun _ σ' => σ' = σ := by
  refine (traces_patchToHere (σ := (Shape.hold { σ.enter true with level := n } prep).aim back)
    rfl).next fun _ => ?_
  refine (still_setLine line).then_traces fun _ => hb.then_traces fun _ => ?_
  refine (traces_loopJump hop hj).bind ?_
  rintro loop - rfl
  refine (traces_patchTo (σ := ((Shape.aim { σ.enter true with level := n } back).hold [loop]).aim
    (loop + 1)) (t := ⟨back, n⟩) rfl (by simp [Shape.aim, Shape.hold]) .refl).next fun _ => ?_
  have hr : Shape.Rearranges ((Shape.aim { σ.enter true with level := n } back).aim (loop + 1))
      { σ.enter true with level := n } :=
    ⟨rfl, rfl, fun _ => Iff.rfl, fun _ h => List.mem_cons_of_mem _ (List.mem_cons_of_mem _ h)⟩
  exact .rearrange_before hr (traces_leave_entered hσ)

lemma traces_declareHidden {names : List Bytes} (h : ∀ name ∈ names, isHidden name = true) :
    Traces (σ.enter true) (declareAll names) fun _ σ' =>
      ∃ n, (σ.enter true).level ≤ n ∧ σ' = { σ.enter true with level := n } :=
  (traces_declareAll rfl fun _ => h).mono fun _ _ heq => ⟨_, Nat.le_add_right _ _, heq⟩

lemma restores_numericFor (start : Position) (name : Bytes) {first limit : ExprCode}
    {step : Option ExprCode} (hf : first.Traced) (hl : limit.Traced)
    (hs : ∀ e, step = some e → e.Traced) (hb : Extends body) :
    Restores (numericFor start name first limit step body) := by
  intro σ hσ
  refine (traces_enterBlock hσ.scopes).next fun _ => ?_
  have ho := hσ.enter true
  refine .read_bind fun base => ?_
  refine Still.discard.then_traces fun _ => Still.discard.then_traces fun _ => ?_
  refine (still_loopStep hs).then_traces fun _ => (traces_declareHidden (by decide)).bind ?_
  rintro - - ⟨n, hn, rfl⟩
  refine (still_setLine _).then_traces fun _ => (traces_loopJump rfl (by simp)).bind ?_
  rintro prep - rfl
  refine (restores_loopBody [name] hb _
    (((ho.raise hn).hold [prep]).aim (prep + 1))).next fun _ => ?_
  have hj : OpCode.forLoop.isJump = true := rfl
  have he := traces_endFor n base [prep] (prep + 1) hj (by simp) hσ (Still.pure ()) start.line
  simpa using he

instance still_checkIterator (names : List Ident) (exprs : List ExprCode) :
    Still (checkIterator names exprs) := by
  unfold checkIterator
  split <;> infer_instance

lemma restores_genericFor (start : Position) (names : List Ident) {exprs : List ExprCode}
    (he : ∀ e ∈ exprs, e.Traced) (hb : Extends body) :
    Restores (genericFor start names exprs body) := by
  intro σ hσ
  refine (still_checkIterator names exprs).then_traces fun _ =>
    (traces_enterBlock hσ.scopes).next fun _ => ?_
  have ho := hσ.enter true
  refine (still_assignValues he 3).then_traces fun base => ?_
  refine (still_checkStack 3).then_traces fun _ => (traces_declareHidden (by decide)).bind ?_
  rintro - - ⟨n, hn, rfl⟩
  refine (still_setLine _).then_traces fun _ => traces_jump_aim.bind ?_
  rintro prep - rfl
  have ho' := ((ho.raise hn).hold prep).aim (prep.headD 0 + 1)
  refine (restores_loopBody (names.map (·.name)) hb _ ho').next fun _ => ?_
  have hj : OpCode.tforLoop.isJump = true := rfl
  exact traces_endFor n _ prep _ hj (by simp) hσ (still_emitABC rfl).discard start.line

instance still_makeTailCall : Still makeTailCall := by
  refine ⟨fun σ s hs => ?_⟩
  subst hs
  refine meets_read (meets_read ?_)
  split
  · next i hi =>
    split
    · next hop =>
      refine traces_replace s (fun _ => rfl) ⟨i, hi, hop⟩ fun j hj => ?_
      have hj := (Instruction.isABC_of_abc hj).op
      exact ⟨Instruction.isPlain_of_op hj fun _ => rfl, .inr ⟨rfl, by simp [hj]⟩⟩
    · exact meets_fault trivial
  · exact meets_fault trivial

lemma still_returned (h : ∀ e ∈ values, e.Traced) : Still (returned values) := by
  have := still_nextRegs h
  unfold returned
  split
  · infer_instance
  · next last hla =>
    have hl := h last (List.mem_of_getLast? hla)
    split
    · next results hr =>
      have := still_nextRegs fun e he => h e (List.dropLast_subset _ he)
      have := hl.results results hr
      infer_instance
    · next value _ =>
      have := h value (by simp)
      infer_instance
    · infer_instance

lemma still_returnStatement (start : Position) (h : ∀ e ∈ values, e.Traced) :
    Still (returnStatement start values) := by
  have := still_returned h
  exact .bind

lemma still_breakStatement : Still breakStatement := by
  refine ⟨fun σ => ?_⟩
  refine traces_isInLoop ?_
  split
  · exact Traces.bind (P := fun _ _ => False) .fail fun _ _ h => h.elim
  · next hl =>
    refine jumps_jump.then fun jumps => ?_
    exact traces_addBreak (σ := σ.hold jumps) rfl (by simpa [Shape.hold] using hl)

lemma still_endStatement : Still (do
    let isConsistent ← read fun d => d.firstFree ≤ d.maxStackSize && d.active.size ≤ d.firstFree
    if !isConsistent then fault .registers
    update fun d => d.setFirstFree d.active.size) := by
  have : Still (update fun d => d.setFirstFree d.active.size) := .update fun _ => rfl
  exact .bind

lemma extends_statement (start : Position) (h : Extends body) : Extends (statement start body) :=
  .bind (still_setPos start).extends fun _ => .bind h fun _ => still_endStatement.extends

lemma meets_reserve_one : Meets True s.generator (reserve 1) fun r g => ∃ s',
    s'.generator = g ∧ s.Moves s' ∧ s'.shape = s.shape ∧ s'.firstFree = r + 1 := by
  refine ((still_checkStack 1).traces _ s rfl).bind ?_
  rintro - - ⟨s1, rfl, hm1, hs1⟩
  have ht : s1.toLayer.Step { s1.toLayer with toDraft := { s1.toDraft with
      firstFree := s1.firstFree + 1 } } := .tune rfl
  exact meets_read (meets_update_bind
    (meets_pure ⟨_, rfl, hm1.trans (.inside (.single ht)), hs1, rfl⟩))

lemma meets_declare_one (hs : s.shape.Open) (name : Bytes) :
    Meets True s.generator (declareAll [name]) fun _ g => ∃ s', s'.generator = g ∧ s.Moves s' ∧
      s'.shape = { s.shape with level := s.shape.level + 1 } ∧
      s'.firstFree = s.firstFree ∧
      s.shape.level < maxVariables ∧ ∃ slot v, s'.fresh = some slot ∧
        s'.active[s.shape.level]? = some slot ∧
        s'.localVariables[slot]? = some v ∧
        v.startPC = .ofNat s'.code.size := by
  refine meets_updateOrFail_of fun d hd => ?_
  have hde : s.declare name = .ok d := by
    rw [Draft.declareAll] at hd
    split at hd
    · next d1 hd1 => rw [← hd]; exact hd1
    · cases hd
  have hne : s.blocks ≠ [] := fun hn => hs.scopes (by simp [Layer.shape, hn])
  obtain ⟨b, outer, hb⟩ := List.exists_cons_of_ne_nil hne
  have hbo : b.isLoop = false := hs.body (b.numActive, b.isLoop) (by simp [Layer.shape, hb])
  refine ⟨_, rfl, .inside (.single (.declare hb (by simp [hbo]) hde)), ?_⟩
  obtain ⟨hlt, rfl⟩ := Draft.declare_ok hde
  exact ⟨by simp [Layer.shape], rfl, hlt, s.localVariables.size,
    ⟨name, .ofNat s.code.size, 0⟩, rfl, by simp [Layer.shape], by simp, rfl⟩

lemma meets_declareLocalFunction (hs : s.shape.Open) (name : Bytes) (span : Span)
    (params : List Ident) (isVararg : Bool) (hb : Extends body) :
    Meets True s.generator (declareLocalFunction name (closure span params isVararg body))
      fun _ g =>
      g.active.size ≤ g.firstFree → ∃ s', s'.generator = g ∧ s.Moves s' ∧
        s'.shape = { s.shape with level := s.shape.level + 1 } := by
  refine meets_reserve_one.bind ?_
  rintro r - ⟨s1, rfl, hm1, hs1, hr⟩
  refine (meets_declare_one (hs1 ▸ hs) name).bind ?_
  rintro - - ⟨s2, rfl, hm2, hs2, hfr, hm, slot, v, hf, hsl, hv, hst⟩
  refine (meets_closure_run span params isVararg hb r s2).bind ?_
  rintro - - ⟨s3, rfl, hm3, he⟩
  refine meets_updateOrFail_of fun d hd hc => ?_
  have hl : s3.active.size = s.shape.level + 1 := by
    have h := congrArg Shape.level hs2
    rw [hs1] at h
    rw [he.draft.active]
    exact h
  obtain ⟨slot', hat, -, heq⟩ := startVariable_ok hd
  -- The register is neither below nor above the last variable.
  have hre : r = s.shape.level := by
    have hlt := lt_size hat
    have hle : s3.active.size ≤ s3.firstFree := by
      rw [heq] at hc
      exact hc
    rw [he.draft.firstFree, hfr, hr] at hle
    change r < s3.active.size at hlt
    omega
  have hs' : s3.active[r]? = some slot := by
    rw [he.draft.active, hre, ← hs1, hsl]
  have hv' : s3.localVariables[slot]? = some v := by
    rw [he.draft.localVariables, hv]
  obtain ⟨i, code, hp, hco, hop, ha⟩ := he.made
  have hsi : s2.code.size + 1 = s3.code.size := by simp [hco, hp.size]
  have hi : s3.code[s2.code.size]? = some i := by simp [hco, ← hp.size]
  have hds : r.toUInt8.toNat = r := by
    rw [hs1, ← hre, maxVariables] at hm
    exact toNat_toUInt8 (by omega)
  have hta : ∀ t ∈ s3.targets, t.level ≤ r := by
    rw [he.targets, hre]
    have ht : s2.targets = s.shape.targets := by
      have h := congrArg Shape.targets hs2
      rw [hs1] at h
      exact h
    rw [ht]
    exact hs.outside.targets
  have hstep : s3.toLayer.Step { s3.toLayer with toDraft := d, fresh := none } :=
    .start (he.fresh.trans hf) hs' hv' hst hsi hi hop (ha.trans hds) hta hd
  refine ⟨_, rfl, ((hm1.trans hm2).trans hm3).trans (.inside (.single hstep)), ?_⟩
  have hsh : ({ s3.toLayer with toDraft := d, fresh := none } : Layer).shape =
      s3.shape := by
    rw [heq]
    rfl
  rw [hsh, he.shape, hs2, hs1]

lemma extends_localFunction (start : Position) (name : Bytes) (span : Span) (params : List Ident)
    (isVararg : Bool) (hb : Extends body) :
    Extends (statement start (declareLocalFunction name (closure span params isVararg body))) := by
  intro σ hσ s hs
  refine ((still_setPos start).traces σ s hs).bind ?_
  rintro - - ⟨s1, rfl, hm1, hs1⟩
  refine (meets_declareLocalFunction (hs1 ▸ hσ) name span params isVararg hb).bind ?_
  intro _ g hi
  refine meets_read ?_
  split
  · exact meets_fault_bind trivial
  · next hc =>
    rw [Bool.not_eq_true, Bool.not_eq_false', Bool.and_eq_true, decide_eq_true_eq,
      decide_eq_true_eq] at hc
    obtain ⟨s2, rfl, hm2, hs2⟩ := hi hc.2
    have ht : s2.toLayer.Step { s2.toLayer with
        toDraft := (s2.setFirstFree s2.active.size) } := .tune rfl
    refine meets_update ⟨_, rfl, (hm1.trans hm2).trans (.inside (.single ht)),
      σ.level + 1, Nat.le_succ _, ?_⟩
    rw [← hs1]
    exact hs2

end Trace

section

lemma ExprCode.ofFunction_traced (span : Span) (params : List Ident) (isVararg : Bool)
    {body : Gen Unit} (h : Extends body) : (ofFunction span params isVararg body).Traced :=
  .of_body fun dst _ => still_closure span params isVararg h dst

def Trace.ClauseTraced (clause : Bool → List Nat → Gen (List Nat)) : Prop :=
  ∀ (isLast : Bool) (escapes : List Nat) (σ : Shape), σ.Settled →
    Traces (σ.hold escapes) (clause isLast escapes) fun jumps σ' => σ' = σ.hold jumps

mutual

lemma Expr.code_traced : (e : Expr) → e.WellFormed → e.code.Traced
  | .ident _, h => ofName_traced h
  | .nil s, _ => ofLiteral_traced s.start _
  | .bool s _, _ => ofLiteral_traced s.start _
  | .number s raw, _ => ofNumber_traced s.start raw
  | .string s raw long, _ => ofString_traced s.start raw long
  | .vararg s, _ => ofVararg_traced s.start
  | .function s params isVararg body, h =>
    ofFunction_traced s params isVararg (Stmt.codeAll_extends body h)
  | .binary _ op left right, h =>
    ofBinary_traced op (left.code_traced h.1) (right.code_traced h.2)
  | .unary _ op operand, h => ofUnary_traced op (operand.code_traced h)
  | .member _ object key _, h =>
    ofMember_traced (object.code_traced h.1) (key.code_traced h.2)
  | .call _ callee method args, h => by
    simp only [Expr.code, Expr.codesOnto_eq]
    exact ofCall_traced (callee.code_traced h.1) method (Expr.codes_traced args h.2)
  | .paren _ inner, h => ofParen_traced (inner.code_traced h)
  | .table _ fields, h => by
    simp only [Expr.code, Field.codesOnto_eq]
    exact ofTable_traced (Field.codes_traced fields h.2)

lemma Expr.codes_traced : (es : List Expr) → Expr.AllWellFormed es →
    ∀ c ∈ es.map Expr.code, c.Traced
  | [], _ => by simp
  | e :: rest, h => by
    rw [List.map_cons]
    exact List.forall_mem_cons.mpr ⟨e.code_traced h.1, Expr.codes_traced rest h.2⟩

lemma Field.code_traced : (f : Field) → f.WellFormed → f.code.Traced
  | .mk _ _ key value, h => ⟨key.code_traced h.1, value.code_traced h.2⟩

lemma Field.codes_traced : (fields : List Field) → Field.AllWellFormed fields →
    ∀ c ∈ fields.map Field.code, c.Traced
  | [], _ => by simp
  | f :: rest, h => by
    rw [List.map_cons]
    exact List.forall_mem_cons.mpr ⟨f.code_traced h.1, Field.codes_traced rest h.2⟩

lemma Stmt.code_extends : (s : Stmt) → s.WellFormed → ∀ start, Extends (statement start s.code)
  | .assign s targets values, h, start => by
    simp only [Stmt.code, Expr.codesOnto_eq]
    exact extends_statement start (still_assign s.start (Expr.codes_traced targets h.2.1)
      (Expr.codes_traced values h.2.2)).extends
  | .call _ callee method args, h, start => by
    simp only [Stmt.code, Expr.codesOnto_eq]
    exact extends_statement start (still_callStatement (ofCall_traced
      (callee.code_traced h.1) method (Expr.codes_traced args h.2))).extends
  | .declare _ names values, h, start => by
    simp only [Stmt.code, Expr.codesOnto_eq]
    exact extends_statement start (extends_declareLocals (Expr.codes_traced values h))
  | .function s target _ bodySpan params isVararg body, h, start => by
    simp only [Stmt.code]
    exact extends_statement start (still_declareFunction s.start (target.code_traced h.2.1)
      (ofFunction_traced bodySpan params isVararg (Stmt.codeAll_extends body h.2.2))).extends
  | .localFunction _ name bodySpan params isVararg body, h, start => by
    simp only [Stmt.code]
    exact extends_localFunction start name.name bodySpan params isVararg
      (Stmt.codeAll_extends body h)
  | .scope _ body, h, start => by
    simp only [Stmt.code]
    exact extends_statement start (restores_block (Stmt.codeAll_extends body h)).extends
  | .while _ cond body, h, start => by
    simp only [Stmt.code]
    exact extends_statement start
      (restores_whileLoop (cond.code_traced h.1) (Stmt.codeAll_extends body h.2) _).extends
  | .repeat _ body cond, h, start => by
    simp only [Stmt.code]
    exact extends_statement start
      (restores_repeatLoop (Stmt.codeAll_extends body h.1) (cond.code_traced h.2)).extends
  | .cond _ test body otherwise, h, start => by
    simp only [Stmt.code]
    have hc : ClauseTraced (Gen.clause test.code (Stmt.clauseBody body)) :=
      fun isLast escapes _ hσ => traces_clause (test.code_traced h.1)
        (Stmt.clauseBody_traced body h.2.1) isLast escapes hσ
    have hr : Restores (Otherwise.code (Gen.clause test.code (Stmt.clauseBody body))
        otherwise []) := fun σ hσ => Otherwise.code_traced otherwise h.2.2 hc [] σ hσ
    exact extends_statement start hr.extends
  | .numericFor s name first limit none body, h, start => by
    simp only [Stmt.code]
    exact extends_statement start (restores_numericFor s.start name.name
      (first.code_traced h.1) (limit.code_traced h.2.1) (by simp)
      (Stmt.codeAll_extends body h.2.2)).extends
  | .numericFor s name first limit (some step) body, h, start => by
    simp only [Stmt.code]
    exact extends_statement start (restores_numericFor s.start name.name
      (first.code_traced h.1) (limit.code_traced h.2.1)
      (fun e he => by cases he; exact step.code_traced h.2.2.1)
      (Stmt.codeAll_extends body h.2.2.2)).extends
  | .genericFor s names exprs body, h, start => by
    simp only [Stmt.code, Expr.codesOnto_eq]
    exact extends_statement start (restores_genericFor s.start names
      (Expr.codes_traced exprs h.1) (Stmt.codeAll_extends body h.2)).extends
  | .return s values, h, start => by
    simp only [Stmt.code, Expr.codesOnto_eq]
    exact extends_statement start
      (still_returnStatement s.start (Expr.codes_traced values h)).extends
  | .break _, _, start => extends_statement start still_breakStatement.extends

lemma Stmt.codeAll_extends : (body : List Stmt) → Stmt.AllWellFormed body →
    Extends (Stmt.codeAll body)
  | [], _ => (Still.pure ()).extends
  | s :: rest, h => by
    simp only [Stmt.codeAll]
    exact .bind (s.code_extends h.1 _) fun _ => Stmt.codeAll_extends rest h.2

lemma Stmt.clauseBody_traced : (body : List Stmt) → Stmt.AllWellFormed body →
    (Stmt.clauseBody body).Traced
  | [], _ => ⟨(Still.pure ()).extends, by simp [Stmt.clauseBody]⟩
  | s :: rest, h => by
    have hre := Stmt.codeAll_extends rest h.2
    simp only [Stmt.clauseBody]
    refine ⟨.bind (s.code_extends h.1 _) fun _ => hre, fun r hr => ?_⟩
    dsimp only at hr
    split at hr
    · split at hr
      · cases hr
      · cases hr
        exact hre
    · cases hr

lemma Otherwise.code_traced : (o : Otherwise) → o.WellFormed →
    {clause : Bool → List Nat → Gen (List Nat)} → ClauseTraced clause →
    ∀ (escapes : List Nat) (σ : Shape), σ.Settled →
      Traces (σ.hold escapes) (o.code clause escapes) fun _ σ' => σ' = σ
  | .none, _, clause, hc, escapes, σ, hσ => by
    simp only [Otherwise.code]
    refine (hc true escapes σ hσ).bind ?_
    rintro escapes' - rfl
    exact traces_patchToHere (σ := σ.hold escapes') rfl
  | .elseIf s test body otherwise, h, clause, hc, escapes, σ, hσ => by
    simp only [Otherwise.code]
    refine (hc false escapes σ hσ).bind ?_
    rintro escapes' - rfl
    refine (still_setPos s.start).then_traces fun _ => ?_
    exact Otherwise.code_traced otherwise h.2.2 (fun isLast escapes _ hσ =>
      traces_clause (test.code_traced h.1) (Stmt.clauseBody_traced body h.2.1) isLast escapes hσ)
      escapes' σ hσ
  | .block _ body, h, clause, hc, escapes, σ, hσ => by
    simp only [Otherwise.code]
    refine (hc false escapes σ hσ).bind ?_
    rintro escapes' - rfl
    refine (restores_block (Stmt.codeAll_extends body h) _ (hσ.hold escapes')).next fun _ => ?_
    exact traces_patchToHere (σ := σ.hold escapes') rfl

end

namespace Trace

variable {source : ChunkName}

lemma State.start_shape (source : ChunkName) :
    (State.start source).shape = ⟨0, [(0, false)], [], []⟩ := rfl

lemma SourceTree.code_reachable {tree : SourceTree} {g : Generator}
    (ht : Stmt.AllWellFormed tree.body) (h : tree.code (Generator.start source) = .ok ((), g)) :
    ∃ s, State.Reachable source s ∧ s.generator = g ∧ s.held = [] ∧
      s.blocks = [] ∧ s.pending = [] ∧ s.enclosing = [] := by
  have ho : Shape.Open ⟨0, [(0, false)], [], []⟩ := ⟨⟨by simp, by simp, by simp⟩, by simp⟩
  have hme : Meets True (State.start source).generator tree.code fun _ g => ∃ s',
      s'.generator = g ∧ (State.start source).Moves s' ∧ s'.held = [] ∧
        s'.blocks = [] ∧ s'.pending = [] := by
    refine (Stmt.codeAll_extends tree.body ht _ ho _ (State.start_shape source)).bind ?_
    rintro - - ⟨s1, rfl, hm1, n, -, hs1⟩
    refine (Trace.meets_finish hs1).mono ?_
    rintro - g ⟨s2, hg, hm2, hen⟩
    exact ⟨s2, hg, hm1.trans hm2, hen⟩
  obtain ⟨s, hg, hm, hh, hb, hp⟩ := hme.of_ok h
  refine ⟨s, hm.steps.reachable .refl, hg, hh, hb, hp, ?_⟩
  have he := hm.enclosing
  rw [show (State.start source).enclosing = [] from rfl, List.forall₂_nil_left_iff] at he
  exact he

/-- What the generator does piece by piece inside of statements and expressions. -/
inductive State.Part (s : State) : {α : Type} → Gen α → Prop
  | value {e : Expr} (he : e.WellFormed) (dst : Nat) (fresh : Bool) :
      Part s (e.code.toReg dst fresh)
  | operand {e : Expr} (he : e.WellFormed) : Part s e.code.operand
  | target {e : Expr} (he : e.WellFormed) : Part s e.code.target
  | branch {e : Expr} (he : e.WellFormed) (wanted : Bool) : Part s (e.code.jumpIf wanted)
  | lookup {name : Bytes} (hname : isHidden name = false) : Part s (Gen.resolve name)
  | loadNil (first n : Nat) : Part s (Gen.loadNil first n)
  | reserve (n : Nat) : Part s (Gen.reserve n)
  | release (r : Nat) : Part s (Gen.setFirstFree r)
  | position (p : Position) : Part s (Gen.setPos p)
  | write {op : OpCode} {a b c : Nat} (hop : op.isPlain c = true) : Part s (Gen.emitABC op a b c)
  | label : Part s Gen.label
  | jump : Part s Gen.jump
  | prepare (a : Nat) : Part s (Gen.emitAsBx .forPrep a 0)
  | addBreak {jumps : List Nat} {n : Nat} {held : List Mark}
      (hheld : s.held = marks jumps n ++ held) (hloop : s.isInLoop = true) :
      Part s (Gen.addBreak jumps)
  | enter (isLoop : Bool) (hscopes : s.shape.scopes ≠ []) : Part s (Gen.enterBlock isLoop)
  | declare {names : List Bytes} {n : Nat} {isLoop : Bool} {outer : List (Nat × Bool)}
      (hscopes : s.shape.scopes = (n, isLoop) :: outer)
      (hnames : isLoop = true → ∀ name ∈ names, isHidden name = true) :
      Part s (Gen.declareAll names)
  | clause {test : Expr} {body : List Stmt} {σ : Shape} (htest : test.WellFormed)
      (hbody : Stmt.AllWellFormed body) (isLast : Bool) (escapes : List Nat) (hσ : σ.Settled)
      (hs : s.shape = σ.hold escapes) :
      Part s (Gen.clause test.code (Stmt.clauseBody body) isLast escapes)
  | statement {stmt : Stmt} (hstmt : stmt.WellFormed) (start : Position) (hopen : s.shape.Open) :
      Part s (Gen.statement start stmt.code)

lemma State.Part.traces {s : State} {α : Type} {m : Gen α} (h : s.Part m) :
    ∃ Q, Traces s.shape m Q := by
  cases h with
  | @value e he dst fresh =>
    have := e.code_traced he
    exact ⟨_, ExprCode.Traced.toReg.traces _⟩
  | @operand e he =>
    have := e.code_traced he
    exact ⟨_, ExprCode.Traced.operand.traces _⟩
  | @target e he => exact ⟨_, (e.code_traced he).target.traces _⟩
  | @branch e he wanted => exact ⟨_, (e.code_traced he).jumpIf wanted _⟩
  | lookup hname => exact ⟨_, (still_resolve hname).traces _⟩
  | loadNil first n => exact ⟨_, (still_loadNil first n).traces _⟩
  | reserve n => exact ⟨_, (still_reserve n).traces _⟩
  | release r => exact ⟨_, (still_setFirstFree r).traces _⟩
  | position p => exact ⟨_, (still_setPos p).traces _⟩
  | write hop => exact ⟨_, (still_emitABC hop).traces _⟩
  | label => exact ⟨_, still_label.traces _⟩
  | jump => exact ⟨_, jumps_jump _⟩
  | prepare a => exact ⟨_, traces_loopJump rfl nofun⟩
  | addBreak hheld hloop => exact ⟨_, traces_addBreak hheld (s.isInLoop_eq ▸ hloop)⟩
  | enter isLoop hscopes => exact ⟨_, traces_enterBlock hscopes⟩
  | declare hscopes hnames => exact ⟨_, traces_declareAll hscopes hnames⟩
  | @clause test body σ htest hbody isLast escapes hσ hs =>
    rw [hs]
    exact ⟨_, traces_clause (test.code_traced htest) (Stmt.clauseBody_traced body hbody) isLast
      escapes hσ⟩
  | @statement stmt hstmt start hopen => exact ⟨_, stmt.code_extends hstmt start _ hopen⟩

end Trace

end

end LuaBytecode
