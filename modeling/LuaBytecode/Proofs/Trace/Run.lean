import LuaBytecode.Proofs.Trace.Step

namespace LuaBytecode

open Draft Gen Instruction

variable {jumps : List Nat} {i : Except EncodingFault Instruction} {l : Layer} {d : Draft}
  {j : Instruction} {t : Mark} {n index : Nat} {op : OpCode} {ds ds' : List Draft}
  {isOwn inStack : Bool} {v : Variable} {held : List Mark}

lemma Draft.Touched.scopes {d d' : Draft} (h : d.Touched d') :
    d'.blocks.map (fun b => (b.numActive, b.isLoop)) =
      d.blocks.map fun b => (b.numActive, b.isLoop) := by
  have := congrArg (List.map fun s : Nat × Nat × Bool => (s.2.1, s.2.2)) h.shapes
  simpa [Block.shape, Function.comp_def] using this

namespace Trace

variable {α β : Type}

structure Shape where
  level : Nat
  scopes : List (Nat × Bool)
  held : List Mark
  targets : List Mark

def Shape.hold (σ : Shape) (jumps : List Nat) : Shape :=
  { σ with held := marks jumps σ.level ++ σ.held }

def Shape.aim (σ : Shape) (pc : Nat) : Shape := { σ with targets := ⟨pc, σ.level⟩ :: σ.targets }

structure Shape.Rearranges (σ σ' : Shape) : Prop where
  level : σ'.level = σ.level
  scopes : σ'.scopes = σ.scopes
  held : ∀ m, m ∈ σ'.held ↔ m ∈ σ.held
  targets : σ'.targets ⊆ σ.targets

def Layer.shape (l : Layer) : Shape :=
  ⟨l.active.size, l.blocks.map fun b => (b.numActive, b.isLoop), l.held, l.targets⟩

lemma Layer.Step.keepsOps {l l' : Layer} (h : l.Step l') : KeepsOps l.code l'.code := by
  cases h with
  | tune h =>
    rw [h]
    exact .refl _
  | label | aim _ | rearrange _ _ | patchHere _ | addBreak _ _ | enter _ _ | find _ =>
    exact .refl _
  | emit _ h | loopJump _ _ h => exact emit_keepsOps h
  | pair _ _ _ _ h h' =>
    have ho' := emit_keepsOps h'
    exact (emit_keepsOps h).trans ho'
  | branch _ _ _ h h' => exact (emit_keepsOps h).trans (emit_keepsOps h')
  | jump _ h =>
    have ho := emit_keepsOps h
    exact ho
  | patchBack _ _ _ h =>
    obtain ⟨code, hp, rfl⟩ := fixJumps_ok h
    exact .patched hp
  | close _ _ h =>
    obtain ⟨code, hs, rfl⟩ := closeAll_ok h
    exact .shut hs
  | replace hi _ _ hop => exact .replace hi hop
  | declare _ _ h =>
    rw [(declare_ok h).2]
    exact .refl _
  | start _ _ _ _ _ _ _ _ _ h =>
    obtain ⟨_, _, _, rfl⟩ := startVariable_ok h
    exact .refl _

structure Layer.Waits (l l' : Layer) : Prop where
  draft : l.Touched l'.toDraft
  held : l'.held = l.held
  targets : l'.targets = l.targets
  fresh : l'.fresh = l.fresh

lemma Layer.Waits.refl (l : Layer) : l.Waits l := ⟨.refl _, rfl, rfl, rfl⟩

lemma Layer.Waits.trans {l l' l'' : Layer} (h : l.Waits l') (h' : l'.Waits l'') : l.Waits l'' :=
  ⟨h.draft.trans h'.draft, h'.held.trans h.held, h'.targets.trans h.targets, h'.fresh.trans h.fresh⟩

lemma Layer.Waits.shape {l l' : Layer} (h : l.Waits l') : l'.shape = l.shape := by
  have hs := h.draft.scopes
  have ha : l'.active = l.active := by rw [h.draft.eq]
  simp only [Layer.shape, hs, ha, h.held, h.targets]

lemma State.StepsAbove.of_step {s s' : State} {k : Nat} (h : s.Step s')
    (hk : k ≤ s'.enclosing.length) : s.StepsAbove k s' := by
  refine .single ⟨h, ?_⟩
  simp only [State.drafts, List.length_cons, List.length_map]
  omega

lemma State.StepsAbove.of_le {s s' : State} {k k' : Nat} (h : s.StepsAbove k s') (hk : k' ≤ k) :
    s.StepsAbove k' s' := h.lift id fun _ _ hs => ⟨hs.1, Nat.lt_of_le_of_lt hk hs.2⟩

lemma State.StepsAbove.reachable {source : ChunkName} {s s' : State} {k : Nat}
    (h : s.StepsAbove k s') (hs : Reachable source s) : Reachable source s' := by
  induction h with
  | refl => exact hs
  | tail _ hst ih => exact ih.tail hst.1

structure State.Moves (s s' : State) : Prop where
  steps : s.StepsAbove s.enclosing.length s'
  enclosing : List.Forall₂ Layer.Waits s.enclosing s'.enclosing
  ops : KeepsOps s.code s'.code

lemma forall₂_waits_refl (ls : List Layer) : List.Forall₂ Layer.Waits ls ls :=
  List.forall₂_same.mpr fun l _ => .refl l

lemma forall₂_waits_trans {ls ls' ls'' : List Layer} (h : List.Forall₂ Layer.Waits ls ls')
    (h' : List.Forall₂ Layer.Waits ls' ls'') : List.Forall₂ Layer.Waits ls ls'' := by
  induction h generalizing ls'' with
  | nil => exact h'
  | cons hl _ ih =>
    cases h' with
    | cons hl' hr => exact .cons (hl.trans hl') (ih hr)

lemma State.Moves.refl (s : State) : s.Moves s := ⟨.refl, forall₂_waits_refl _, .refl _⟩

lemma State.Moves.trans {s s' s'' : State} (h : s.Moves s') (h' : s'.Moves s'') : s.Moves s'' where
  steps := h.steps.trans (h.enclosing.length_eq ▸ h'.steps)
  enclosing := forall₂_waits_trans h.enclosing h'.enclosing
  ops := h.ops.trans h'.ops

lemma State.Moves.inside {s : State} {l : Layer} (h : s.toLayer.Steps l) :
    s.Moves { s with toLayer := l } := by
  induction h with
  | refl => exact .refl s
  | @tail l l' _ hs ih =>
    have hm : State.Moves { s with toLayer := l } { s with toLayer := l' } :=
      ⟨.of_step (.inside hs) (Nat.le_refl _), forall₂_waits_refl _, hs.keepsOps⟩
    exact ih.trans hm

def Traces (σ : Shape) (m : Gen α) (Q : α → Shape → Prop) : Prop :=
  ∀ s : State, s.shape = σ → Meets True s.generator m fun a g =>
    ∃ s', s'.generator = g ∧ s.Moves s' ∧ Q a s'.shape

namespace Traces

variable {σ σ' : Shape} {m : Gen α} {f : α → Gen β} {P Q : α → Shape → Prop} {R : β → Shape → Prop}

lemma mono (h : Traces σ m P) (hPQ : ∀ a σ', P a σ' → Q a σ') : Traces σ m Q := by
  intro s hs
  refine (h s hs).mono ?_
  rintro a g ⟨s', hg, hm, hP⟩
  exact ⟨s', hg, hm, hPQ a _ hP⟩

lemma bind (hm : Traces σ m P) (hf : ∀ a σ', P a σ' → Traces σ' (f a) R) :
    Traces σ (m >>= f) R := by
  intro s hs
  refine (hm s hs).bind ?_
  rintro a g ⟨s1, rfl, hmo, hP⟩
  refine (hf a _ hP s1 rfl).mono ?_
  rintro b g ⟨s2, hg, hm', hR⟩
  exact ⟨s2, hg, hmo.trans hm', hR⟩

lemma next (hm : Traces σ m fun _ σ'' => σ'' = σ') (hf : ∀ a, Traces σ' (f a) R) :
    Traces σ (m >>= f) R := hm.bind fun a _ heq => heq ▸ hf a

lemma pure {a : α} (h : Q a σ) : Traces σ (Pure.pure a) Q := by
  intro s hs
  subst hs
  exact meets_pure ⟨s, rfl, .refl s, h⟩

lemma fail {cause : CompileCause} : Traces σ (fail cause) Q := fun _ _ =>
  meets_fail fun _ => trivial

lemma fault {e : GeneratorFault} : Traces σ (fault e) Q := fun _ _ => meets_fault trivial

lemma map {f : α → β} (h : Traces σ m fun a σ' => R (f a) σ') : Traces σ (f <$> m) R := by
  rw [map_eq_pure_bind]
  exact h.bind fun _ _ ha => .pure ha

lemma read_bind {p : Draft → α} (h : ∀ a, Traces σ (f a) R) : Traces σ (read p >>= f) R :=
  fun s hs => meets_read (h _ s hs)

lemma of_layer (h : ∀ l : Layer, l.shape = σ → ∀ enclosing, Meets True ⟨l.toDraft, enclosing⟩ m
    fun a g => g.enclosing = enclosing ∧ ∃ l', l'.toDraft = g.toDraft ∧ l.Steps l' ∧ Q a l'.shape) :
    Traces σ m Q := by
  intro s hs
  refine (h s.toLayer hs _).mono ?_
  rintro a g ⟨he, l, hl, hst, hQ⟩
  refine ⟨{ s with toLayer := l }, ?_, .inside hst, hQ⟩
  rw [State.generator, hl, ← he]

lemma update {p : Draft → Draft} {R : Unit → Shape → Prop}
    (h : ∀ l : Layer, l.shape = σ → ∃ l', l'.toDraft = p l.toDraft ∧ l.Steps l' ∧ R () l'.shape) :
    Traces σ (update p) R :=
  of_layer fun l hl _ => meets_update ⟨rfl, h l hl⟩

lemma updateOrFail {p : Draft → Except GenerateError Draft} {R : Unit → Shape → Prop}
    (h : ∀ l : Layer, l.shape = σ → ∀ d, p l.toDraft = .ok d →
      ∃ l', l'.toDraft = d ∧ l.Steps l' ∧ R () l'.shape) : Traces σ (updateOrFail p) R :=
  of_layer fun l hl _ => meets_updateOrFail_of fun d hd => ⟨rfl, h l hl d hd⟩

lemma rearrange (h : Traces σ m P) (hPQ : ∀ a σ', P a σ' → ∃ σ'', σ'.Rearranges σ'' ∧ Q a σ'') :
    Traces σ m Q := by
  intro s hs
  refine (h s hs).mono ?_
  rintro a g ⟨s', hg, hm, hP⟩
  obtain ⟨σ'', hr, hQ⟩ := hPQ a _ hP
  have hst : s'.toLayer.Steps { s'.toLayer with held := σ''.held, targets := σ''.targets } :=
    .single (.rearrange hr.held hr.targets)
  refine ⟨{ s' with toLayer := { s'.toLayer with held := σ''.held, targets := σ''.targets } }, hg,
    hm.trans (.inside hst), ?_⟩
  have heq : σ'' =
      ({ s'.toLayer with held := σ''.held, targets := σ''.targets } : Layer).shape := by
    cases σ''
    have h1 := hr.level
    have h2 := hr.scopes
    subst h1 h2
    rfl
  rw [← heq]
  exact hQ

lemma rearrange_before (hr : σ.Rearranges σ') (h : Traces σ' m Q) : Traces σ m Q := by
  have hp : Traces σ (Pure.pure () : Gen Unit) fun _ σ'' => σ'' = σ' :=
    (Traces.pure (Q := fun _ σ'' => σ'' = σ) rfl).rearrange fun _ _ heq => ⟨σ', heq ▸ hr, rfl⟩
  have hb : Traces σ ((Pure.pure () : Gen Unit) >>= fun _ => m) Q := hp.bind fun _ _ heq => heq ▸ h
  simpa using hb

end Traces

variable {σ : Shape} {a b c : Nat}

class Still (m : Gen α) : Prop where
  traces : ∀ σ, Traces σ m fun _ σ' => σ' = σ

def Jumps (m : Gen (List Nat)) : Prop := ∀ σ, Traces σ m fun jumps σ' => σ' = σ.hold jumps

namespace Still

variable {m : Gen α} {f : α → Gen β}

lemma then_traces {R : β → Shape → Prop} (hm : Still m) (hf : ∀ a, Traces σ (f a) R) :
    Traces σ (m >>= f) R :=
  (hm.traces σ).bind fun a _ heq => heq ▸ hf a

instance bind [hm : Still m] [hf : ∀ a, Still (f a)] : Still (m >>= f) :=
  ⟨fun σ => hm.then_traces fun a => (hf a).traces σ⟩

lemma then_jumps {f : α → Gen (List Nat)} (hm : Still m) (hf : ∀ a, Jumps (f a)) :
    Jumps (m >>= f) :=
  fun σ => hm.then_traces fun a => hf a σ

instance pure (a : α) : Still (Pure.pure a) := ⟨fun _ => .pure rfl⟩

instance fail (cause : CompileCause) : Still (Gen.fail cause : Gen α) := ⟨fun _ => .fail⟩

instance fault (e : GeneratorFault) : Still (Gen.fault e : Gen α) := ⟨fun _ => .fault⟩

instance discard [h : Still m] : Still (Functor.discard m) := ⟨fun σ => (h.traces σ).map⟩

instance read (p : Draft → α) : Still (Gen.read p) :=
  ⟨fun _ s hs => Gen.meets_readOf ⟨s, rfl, .refl s, hs⟩⟩

instance ite {p : Prop} [Decidable p] {m m' : Gen α} [h : Still m] [h' : Still m'] :
    Still (if p then m else m') := by
  split
  · exact h
  · exact h'

lemma update {p : Draft → Draft} (h : ∀ d : Draft, d.Tuned (p d)) : Still (Gen.update p) := by
  refine ⟨fun σ => .update fun l hl => ?_⟩
  refine ⟨{ l with toDraft := p l.toDraft }, rfl, .single (.tune (h _)), ?_⟩
  subst hl
  simp only [Layer.shape]
  rw [h l.toDraft]

lemma updateOrFail {p : Draft → Except GenerateError Draft}
    (h : ∀ d d' : Draft, p d = .ok d' → d.Tuned d') : Still (Gen.updateOrFail p) := by
  refine ⟨fun σ => .updateOrFail fun l hl d hd => ?_⟩
  refine ⟨{ l with toDraft := d }, rfl, .single (.tune (h _ _ hd)), ?_⟩
  subst hl
  simp only [Layer.shape]
  rw [h l.toDraft d hd]

end Still

lemma Still.then {m : Gen α} {f : α → Gen β} [Still m] (_ : ∀ a, Still (f a)) : Still (m >>= f) :=
  inferInstance

lemma Jumps.then {m : Gen (List Nat)} {f : List Nat → Gen β} {R : β → Shape → Prop} (hm : Jumps m)
    (hf : ∀ jumps, Traces (σ.hold jumps) (f jumps) R) : Traces σ (m >>= f) R :=
  (hm σ).bind fun jumps _ heq => heq ▸ hf jumps

lemma Jumps.none : Jumps (pure []) := fun _ => .pure rfl

lemma Layer.shape_of_sameScope (h : l.SameScope d) :
    ({ l with toDraft := d, held } : Layer).shape = { l.shape with held } := by
  simp only [Layer.shape]
  rw [h]

lemma Traces.emit {R : Nat → Shape → Prop}
    (h : ∀ l : Layer, l.shape = σ → ∀ j d, i = .ok j → l.emit j = .ok d →
      ∃ l', l'.toDraft = d ∧ l.Steps l' ∧ R l.code.size l'.shape) : Traces σ (Gen.emit i) R :=
  .of_layer fun l hl _ => meets_emit_of fun j d hj hd => ⟨rfl, h l hl j d hj hd⟩

lemma still_emit (h : ∀ j, i = .ok j → j.isPlain = true) : Still (Gen.emit i) := by
  refine ⟨fun σ => .emit fun l hl j d hj hd => ?_⟩
  refine ⟨{ l with toDraft := d }, rfl, .single (.emit (h j hj) hd), ?_⟩
  rw [← hl]
  exact Layer.shape_of_sameScope (emit_sameScope hd)

lemma still_emitABC (h : op.isPlain c = true) : Still (emitABC op a b c) :=
  still_emit fun j hj => by
    obtain ⟨hop, -, -, hc⟩ := isABC_of_abc hj
    simp [isPlain, hop, hc, h]

class Plain (op : OpCode) : Prop where
  isPlain : ∀ c, op.isPlain c = true

instance : Plain .move := ⟨fun _ => rfl⟩
instance : Plain .getUpval := ⟨fun _ => rfl⟩
instance : Plain .getTabUp := ⟨fun _ => rfl⟩
instance : Plain .getTable := ⟨fun _ => rfl⟩
instance : Plain .setTabUp := ⟨fun _ => rfl⟩
instance : Plain .setUpval := ⟨fun _ => rfl⟩
instance : Plain .setTable := ⟨fun _ => rfl⟩
instance : Plain .self := ⟨fun _ => rfl⟩
instance : Plain .concat := ⟨fun _ => rfl⟩
instance : Plain .call := ⟨fun _ => rfl⟩
instance : Plain .return := ⟨fun _ => rfl⟩
instance : Plain .vararg := ⟨fun _ => rfl⟩

instance still_emit_plain [h : Plain op] : Still (emitABC op a b c) := still_emitABC (h.isPlain c)

lemma still_emitABx {bx : Nat} (h : ∀ c, op.isPlain c = true) : Still (emitABx op a bx) :=
  still_emit fun _ hj => isPlain_of_op (op?_of_abx hj).op h

instance still_setPos (p : Position) : Still (setPos p) := by
  refine .update fun d => ?_
  unfold Draft.setPos
  split <;> rfl

instance still_setLine (line : Int) : Still (setLine line) := .update fun _ => rfl

instance still_pc : Still pc := .read _

instance still_fixLine (line : Int) : Still (fixLine line) := by
  have (size : Nat) : Still (update fun d =>
      { d with lineInfo := d.lineInfo.setIfInBounds (size - 1) (.ofInt line) }) :=
    .update fun _ => rfl
  exact .bind

instance still_checkStack (n : Nat) : Still (checkStack n) := by
  refine .updateOrFail fun d d' h => ?_
  simp only [Draft.checkStack] at h
  split at h
  · cases h
    rfl
  · split at h
    · cases h
    · cases h
      rfl

instance still_setFirstFree (r : Nat) : Still (setFirstFree r) := .update fun _ => rfl

instance still_reserve (n : Nat) : Still (reserve n) := by
  have : Still (update fun d => { d with firstFree := d.firstFree + n }) := .update fun _ => rfl
  exact .bind

instance still_allocate : Still allocate := by
  have (rest : List Nat) : Still (update ({ · with released := rest })) := .update fun _ => rfl
  refine .then fun released => ?_
  cases released <;> infer_instance

instance still_free (r : Nat) : Still (free r) := by
  refine .update fun d => ?_
  unfold Draft.free
  split
  · rfl
  · split
    · split <;> rfl
    · rfl

instance still_freeOperand (arg : Nat) : Still (freeOperand arg) := .ite

instance still_freeUnless (kept r : Nat) : Still (freeUnless kept r) := .ite

instance still_freeOperands (kept : Option Nat) (b c : Nat) : Still (freeOperands kept b c) := .ite

instance still_constant (v : Value) : Still (constant v) := by
  have : Still (update fun d => { d with constants := d.constants.insert v }) :=
    .update fun _ => rfl
  refine .then fun found => ?_
  cases found <;> infer_instance

lemma traces_replace {pc : Nat} (s : State) (hp : ∀ c, op.isPlain c = true)
    (hold : ∃ old, s.code[pc]? = some old ∧ old.op? = some op)
    (hi : ∀ j, i = .ok j → j.isPlain = true ∧
      (j.op? = some op ∨ (op = .call ∧ j.op? ≠ some .loadNil))) :
    Meets True s.generator (replace pc i) fun _ g =>
      ∃ s', s'.generator = g ∧ s.Moves s' ∧ s'.shape = s.shape := by
  cases i with
  | error e => trivial
  | ok j =>
    obtain ⟨old, hold, hop⟩ := hold
    obtain ⟨hj, hjo⟩ := hi j rfl
    rw [replace]
    apply meets_update
    have hs := Layer.Step.replace hold (isPlain_of_op hop hp) hj
      (by rw [hop]; exact hjo.imp_right fun h => by rw [h.1])
      (by rw [hop]; exact hjo.imp_right (·.2))
    exact ⟨_, rfl, .inside (.single hs), rfl⟩

instance still_loadNil (first n : Nat) : Still (loadNil first n) := by
  refine ⟨fun σ s hs => ?_⟩
  subst hs
  have he : Still (emitABC .loadNil first (n - 1) 0) := still_emitABC rfl
  have hd := he.discard.traces _ s rfl
  unfold Meets at hd ⊢
  rcases loadNil_cases first n s.generator with heq | ⟨i, p, q, -, hi, hop, -, -, -, heq⟩
  · rwa [heq]
  · rw [heq]
    rw [Array.back?_eq_getElem?] at hi
    refine traces_replace s (fun _ => rfl) ⟨i, hi, hop⟩ fun j hj => ?_
    have hop := (isABC_of_abc hj).op
    exact ⟨isPlain_of_op hop fun _ => rfl, .inl hop⟩

lemma still_pair {j : Except EncodingFault Instruction}
    (hi : ∀ k, i = .ok k → k.isJump = false ∧ k.op? ≠ some .closure)
    (hj : ∀ k, j = .ok k → k.op? = some .extraArg) :
    Still (Functor.discard (emit i) >>= fun _ => Functor.discard (emit j)) := by
  refine ⟨fun σ => .of_layer fun l hl _ => ?_⟩
  subst hl
  refine (meets_emit_of (Q := fun _ g => ∃ k d, i = .ok k ∧ l.emit k = .ok d ∧ g = ⟨d, _⟩)
    fun k d hk hd => ⟨k, d, hk, hd, rfl⟩).discard_bind ?_
  rintro - - ⟨k, d, hk, hd, rfl⟩
  refine (meets_emit_of fun k' d' hk' hd' => ?_).discard fun _ _ h => h
  have he : d.pending = [] := by
    obtain ⟨code, -, rfl⟩ := emit_ok hd
    rfl
  have hd1 : emit { d with lastTarget := d.lastTarget, pending := [] } k' = .ok d' := by
    rw [← he]
    exact hd'
  have hs : l.Step { l with toDraft := d' } :=
    .pair (hi k hk).1 (hi k hk).2 (isPlain_of_op (hj k' hk') fun _ => rfl)
      (show l.held = marks [] 0 ++ l.held from rfl) hd hd1 (by simp [hj k' hk'])
  refine ⟨rfl, _, rfl, .single hs, ?_⟩
  exact Layer.shape_of_sameScope ((emit_sameScope hd).trans (emit_sameScope hd'))

instance still_loadConstant (r k : Nat) : Still (loadConstant r k) := by
  unfold loadConstant
  split
  · have : Still (emitABx .loadK r k) := still_emitABx fun _ => rfl
    infer_instance
  · refine still_pair (fun i hi => ?_) fun i => op?_of_extraArgument
    have hop := (op?_of_abx hi).op
    exact ⟨by rw [isJump_of_op hop]; rfl, by simp [hop]⟩

lemma traces_jump {R : List Nat → Shape → Prop}
    (h : ∀ l : Layer, l.shape = σ → ∀ j d, asbx .jmp 0 0 = .ok j →
      emit { l.toDraft with pending := [] } j = .ok d →
      ∃ l', l'.toDraft = d ∧ l.Steps l' ∧ R (l.code.size :: l.pending) l'.shape) :
    Traces σ jump R :=
  .of_layer fun l hl _ => meets_jump_of fun j d hj hd => ⟨rfl, h l hl j d hj hd⟩

lemma Layer.shape_jump (hd : emit { l.toDraft with pending := [] } j = .ok d)
    (held : List Mark) : ({ l with toDraft := d, held } : Layer).shape = { l.shape with held } := by
  have ht : l.SameScope { l.toDraft with pending := [] } := rfl
  exact Layer.shape_of_sameScope (ht.trans (emit_sameScope hd))

lemma jumps_jump : Jumps jump := fun σ =>
  traces_jump fun l hl _ _ hj hd =>
    ⟨_, rfl, .single (.jump hj hd), by rw [← hl]; exact Layer.shape_jump hd _⟩

lemma lastNil?_emit {d' : Draft} (h : d.emit j = .ok d') (hj : j.op? ≠ some .loadNil) :
    d'.lastNil? = none := by
  obtain ⟨code, -, rfl⟩ := emit_ok h
  simp [lastNil?, emitted, hj]

lemma Layer.steps_aim {l' : Layer} (h : l.Steps l') (hn : l'.lastNil? = none) :
    ∃ l'', l''.toDraft = l'.toDraft ∧ l.Steps l'' ∧ l''.shape = l'.shape.aim l'.code.size :=
  ⟨{ l' with targets := ⟨l'.code.size, l'.active.size⟩ :: l'.targets }, rfl, h.tail (.aim hn), rfl⟩

lemma traces_jump_aim :
    Traces σ jump fun jumps σ' => σ' = (σ.hold jumps).aim (jumps.headD 0 + 1) := by
  refine traces_jump fun l hl j d hj hd => ?_
  have hop : j.op? ≠ some .loadNil := by simp [(op?_of_asbx hj).op]
  obtain ⟨l', hl', hst, hs⟩ := Layer.steps_aim (.single (.jump hj hd)) (lastNil?_emit hd hop)
  refine ⟨l', hl', hst, ?_⟩
  rw [hs, Layer.shape_jump hd, ← hl]
  show Shape.aim _ d.code.size = _
  rw [emit_size hd]
  rfl

lemma traces_loopJump (hop : op.isJump = true) (hjm : op ≠ .jmp) :
    Traces σ (emitAsBx op a 0) fun pc σ' => σ' = (σ.hold [pc]).aim (pc + 1) := by
  refine .emit fun l hl j d hj hd => ?_
  have hx := (op?_of_asbx hj).op
  have hn : j.op? ≠ some .loadNil := by
    rw [hx]
    rintro ⟨rfl⟩
    cases hop
  have hstep := Layer.Step.loopJump (l := l) (by rw [isJump_of_op hx, hop])
    (by simpa [hx] using hjm) hd
  obtain ⟨l', hl', hst, hs⟩ := Layer.steps_aim (.single hstep) (lastNil?_emit hd hn)
  refine ⟨l', hl', hst, ?_⟩
  rw [hs, Layer.shape_of_sameScope (emit_sameScope hd), ← hl]
  show Shape.aim _ d.code.size = _
  rw [emit_size hd]
  rfl

lemma Shape.aim_rearranges (σ : Shape) (pc : Nat) : (σ.aim pc).Rearranges σ :=
  ⟨rfl, rfl, fun _ => Iff.rfl, fun _ h => List.mem_cons_of_mem _ h⟩

lemma jumps_branch (hi : ∀ k, i = .ok k → k.isJump = false ∧ k.op? ≠ some .closure) :
    Jumps (Functor.discard (emit i) >>= fun _ => jump) := by
  intro σ
  refine .of_layer fun l hl _ => ?_
  subst hl
  refine (meets_emit_of (Q := fun _ g => ∃ k d, i = .ok k ∧ l.emit k = .ok d ∧ g = ⟨d, _⟩)
    fun k d hk hd => ⟨k, d, hk, hd, rfl⟩).discard_bind ?_
  rintro - - ⟨k, d, hk, hd, rfl⟩
  refine meets_jump_of fun j d' hj hd' => ⟨rfl, ?_⟩
  have he : d.pending = [] := by
    obtain ⟨code, -, rfl⟩ := emit_ok hd
    rfl
  have hd'' : d.emit j = .ok d' := by
    rw [← hd', ← he]
  refine ⟨_, rfl, .single (.branch (hi k hk).1 (hi k hk).2 hj hd hd''), ?_⟩
  rw [Layer.shape_of_sameScope ((emit_sameScope hd).trans (emit_sameScope hd'')), he, emit_size hd]
  rfl

instance still_label : Still label := by
  have : Still (update (·.label)) := ⟨fun _ => .update fun l hl => ⟨_, rfl, .single (.label l), hl⟩⟩
  exact .bind

lemma traces_label : Traces σ label fun pc σ' => σ' = σ.aim pc := by
  refine .of_layer fun l hl _ => ?_
  have hn : l.label.lastNil? = none := by simp [Draft.lastNil?, Draft.label]
  obtain ⟨l', hl', hst, hs⟩ := Layer.steps_aim (.single (.label l)) hn
  subst hl
  exact meets_update_bind (meets_readOf ⟨rfl, l', hl', hst, hs⟩)

lemma traces_patchToHere (h : σ.held = marks jumps n ++ held) :
    Traces σ (patchToHere jumps) fun _ σ' => σ' = { σ with held } :=
  .update fun l hl => by
    have hh : l.held = marks jumps n ++ held := by
      rw [← h, ← hl]
      rfl
    exact ⟨_, rfl, .single (.patchHere hh), by rw [← hl]; rfl⟩

lemma traces_patchTo (h : σ.held = marks jumps n ++ held) (ht : t ∈ σ.targets)
    (hle : σ.level ≤ t.level) : Traces σ (patchTo jumps t.pc) fun _ σ' => σ' = { σ with held } := by
  refine .read_bind fun size => ?_
  split
  · exact traces_patchToHere h
  · refine .updateOrFail fun l hl d hd => ?_
    subst hl
    refine ⟨_, rfl, .single (.patchBack h ht hle hd), ?_⟩
    obtain ⟨code, -, rfl⟩ := fixJumps_ok hd
    rfl

lemma traces_jumpTo (ht : t ∈ σ.targets) (hl : σ.level ≤ t.level) :
    Traces σ (jumpTo t.pc) fun _ σ' => σ' = σ :=
  jumps_jump.then fun _ => traces_patchTo (σ := σ.hold _) rfl ht hl

variable {α β : Type} {σ : Shape} {name : Bytes} {outer : List (Nat × Bool)} {isLoop : Bool}

lemma State.over_enclosing {ls : List Layer}
    (h : List.Forall₂ Draft.Touched (ls.map (·.toDraft)) ds) :
    (ls.zipWith (fun l d => { l with toDraft := d }) ds).map (·.toDraft) = ds ∧
      List.Forall₂ Layer.Waits ls (ls.zipWith (fun l d => { l with toDraft := d }) ds) := by
  induction ls generalizing ds with
  | nil =>
    cases h
    exact ⟨rfl, .nil⟩
  | cons l ls ih =>
    cases h with
    | cons hd hr =>
      obtain ⟨heq, hw⟩ := ih hr
      exact ⟨congrArg (_ :: ·) heq, .cons ⟨hd, rfl, rfl, rfl⟩ hw⟩

lemma resolve_touched {g g' : Generator} {v : Variable} (h : Gen.resolve name g = .ok (v, g')) :
    g.Touched g'.toDraft ∧ List.Forall₂ Draft.Touched g.enclosing g'.enclosing := by
  cases Draft.resolve_touched (Gen.resolve_ok h) with
  | cons hd hr => exact ⟨hd, hr⟩

lemma State.exists_find (s : State) (name : Bytes) : ∃ s' : State, s'.generator = s.generator ∧
    s.Moves s' ∧ s'.shape = s.shape := by
  by_cases h : ∃ r, s.register name = .ok (some r)
  · obtain ⟨r, hr⟩ := h
    exact ⟨{ s with toLayer := { s.toLayer with fresh := none } }, rfl,
      .inside (.single (.find hr)), rfl⟩
  · exact ⟨s, rfl, .refl s, rfl⟩

lemma still_resolve {name : Bytes} (hn : isHidden name = false) : Still (resolve name) := by
  refine ⟨fun σ s hs => ?_⟩
  obtain ⟨s1, hge, hf, hsh⟩ := s.exists_find name
  rw [← hge]
  refine meets_of_ok fun v g hg => ?_
  obtain ⟨hc, ho⟩ := resolve_touched hg
  obtain ⟨heq, hw⟩ := State.over_enclosing ho
  have hwa : s1.Waits (s1.withDrafts g).toLayer := ⟨hc, rfl, rfl, rfl⟩
  refine ⟨s1.withDrafts g, ?_, hf.trans ⟨.of_step (.resolve hn hg) hw.length_eq.le, hw, ?_⟩, ?_⟩
  · show (⟨g.toDraft, _⟩ : Generator) = g
    rw [State.withDrafts, heq]
  · show KeepsOps s1.code g.code
    rw [hc.eq]
    exact .refl _
  · rw [hwa.shape, hsh, hs]

instance still_register (name : Bytes) : Still (Gen.register name) := by
  refine ⟨fun σ s hs => ?_⟩
  unfold Meets Gen.register
  cases s.generator.register name with
  | ok r =>
    obtain ⟨s1, hg, hf, hsh⟩ := s.exists_find name
    exact ⟨s1, hg, hf, hsh.trans hs⟩
  | error e => cases e <;> simp

lemma still_upvalue? {name : Bytes} (hn : isHidden name = false) : Still (Gen.upvalue? name) := by
  refine ⟨fun σ s hs => ?_⟩
  have hrefl : ∃ s', s'.generator = s.generator ∧ s.Moves s' ∧ s'.shape = σ := ⟨s, rfl, .refl s, hs⟩
  unfold Meets Gen.upvalue?
  cases s.generator.register name with
  | error e => cases e <;> simp
  | ok o =>
    cases o with
    | some r => exact hrefl
    | none =>
      have hre := (still_resolve hn).traces σ s hs
      unfold Meets at hre
      cases hr : resolve name s.generator with
      | ok r =>
        obtain ⟨v, g⟩ := r
        rw [hr] at hre
        cases v with
        | upvalue i => exact hre
        | _ => exact hrefl
      | error e =>
        cases e with
        | compile e => exact hrefl
        | internal e => trivial

instance still_resolveEnvironment : Still resolveEnvironment := by
  have : Still (resolve environmentName) := still_resolve (by decide)
  exact .then fun v => by cases v <;> infer_instance

def Shape.enter (σ : Shape) (isLoop : Bool) : Shape :=
  { σ with scopes := (σ.level, isLoop) :: σ.scopes }

lemma traces_enterBlock (hs : σ.scopes ≠ []) :
    Traces σ (enterBlock isLoop) fun _ σ' => σ' = σ.enter isLoop := by
  refine .update fun l hl => ?_
  subst hl
  have hb : l.blocks ≠ [] := fun hn => hs (by simp [Layer.shape, hn])
  exact ⟨_, rfl, .single (.enter hb isLoop), rfl⟩

lemma Layer.declareAll_steps {names : List Bytes} {l : Layer} {b : Block} {outer : List Block}
    (hb : l.blocks = b :: outer) (hna : b.isLoop = true → ∀ name ∈ names, isHidden name = true)
    (h : Draft.declareAll names l.toDraft = .ok d) : ∃ l', l'.toDraft = d ∧ l.Steps l' ∧
      l'.shape = { l.shape with level := l.shape.level + names.length } := by
  induction names generalizing l with
  | nil => exact ⟨l, Except.ok.inj h, .refl, rfl⟩
  | cons name rest ih =>
    rw [Draft.declareAll] at h
    cases hd : l.declare name with
    | error e => simp [hd] at h
    | ok d1 =>
      simp only [hd] at h
      have heq := (Draft.declare_ok hd).2
      have hb' : d1.blocks = b :: outer := by
        rw [heq]
        exact hb
      have hname : b.isLoop = true → isHidden name = true := fun hl => hna hl name (by simp)
      obtain ⟨l', hl', hst, hs⟩ := ih
        (l := { l with toDraft := d1, fresh := some l.localVariables.size }) hb'
        (fun hl n hn => hna hl n (by simp [hn])) h
      refine ⟨l', hl', .head (.declare hb hname hd) hst, ?_⟩
      rw [hs]
      simp [Layer.shape, heq]
      omega

lemma traces_declareAll {names : List Bytes} (hs : σ.scopes = (n, isLoop) :: outer)
    (hn : isLoop = true → ∀ name ∈ names, isHidden name = true) :
    Traces σ (declareAll names) fun _ σ' => σ' = { σ with level := σ.level + names.length } := by
  refine .updateOrFail fun l hl d hd => ?_
  subst hl
  cases hb : l.blocks with
  | nil => simp [Layer.shape, hb] at hs
  | cons b rest =>
    have hlo : b.isLoop = isLoop := by
      simp only [Layer.shape, hb, List.map_cons, List.cons.injEq, Prod.mk.injEq] at hs
      exact hs.1.2
    exact Layer.declareAll_steps hb (by rw [hlo]; exact hn) hd

lemma Layer.isInLoop_eq (l : Layer) : l.isInLoop = l.shape.scopes.any (·.2) := by
  simp [Draft.isInLoop, Layer.shape, List.any_map, Function.comp_def]

lemma traces_isInLoop {f : Bool → Gen β} {R : β → Shape → Prop}
    (h : Traces σ (f (σ.scopes.any (·.2))) R) : Traces σ (isInLoop >>= f) R := by
  intro s hs
  subst hs
  refine meets_read ?_
  show Meets True s.generator (f s.isInLoop) _
  rw [Layer.isInLoop_eq]
  exact h s rfl

lemma traces_addBreak {jumps : List Nat} (h : σ.held = marks jumps n ++ held)
    (hlo : σ.scopes.any (·.2) = true) :
    Traces σ (addBreak jumps) fun _ σ' => σ' = { σ with held } := by
  refine .update fun l hl => ?_
  subst hl
  exact ⟨_, rfl, .single (.addBreak h (by rw [Layer.isInLoop_eq, hlo])), rfl⟩

lemma meets_leave {s : State} (hs : s.shape.scopes = (n, isLoop) :: outer)
    (ho : outer ≠ []) (hh : ∀ m ∈ s.held, m.level ≤ n ∨ ∀ b rest,
      s.blocks = b :: rest → b.isCaptured = true → ShutAt s.code b.numActive m.pc) :
    Meets True s.generator leaveBlock fun _ g => ∃ s', s'.generator = g ∧ s.Moves s' ∧
      s'.shape = ⟨n, outer, s.held.map (·.lower n), s.targets.filter (·.level ≤ n)⟩ := by
  cases hb : s.blocks with
  | nil => simp [Layer.shape, hb] at hs
  | cons b rest =>
    have hp : (b.numActive = n ∧ b.isLoop = isLoop) ∧
        rest.map (fun b => (b.numActive, b.isLoop)) = outer := by
      simpa [Layer.shape, hb] using hs
    obtain ⟨⟨rfl, -⟩, hr⟩ := hp
    refine meets_of_ok fun _ g hg => ?_
    obtain ⟨he, hl⟩ := leaveBlock_ok hb hg
    have hne : rest ≠ [] := by
      rintro rfl
      exact ho hr.symm
    have hst := State.Step.leave hb hne hg fun m hm =>
      (hh m hm).imp_right fun h => h b rest hb
    refine ⟨_, ?_, ⟨.of_step hst (Nat.le_refl _), forall₂_waits_refl _, hl.keepsOps⟩, ?_⟩
    · show (⟨g.toDraft, _⟩ : Generator) = g
      rw [show s.enclosing.map (·.toDraft) = g.enclosing from he.symm]
    · obtain ⟨ha, hbl⟩ := hl.scopes
      simp only [Layer.shape, ha, hbl, hr]

lemma map_lower_of_le (h : ∀ m ∈ held, m.level ≤ n) : held.map (·.lower n) = held := by
  refine (List.map_congr_left fun m hm => ?_).trans (List.map_id held)
  simp [Mark.lower, h m hm]

structure Shape.Outside (σ : Shape) (n : Nat) : Prop where
  held : ∀ m ∈ σ.held, m.level ≤ n
  targets : ∀ t ∈ σ.targets, t.level ≤ n

lemma traces_leaveBlock (hsc : σ.scopes = (n, isLoop) :: outer) (hou : outer ≠ [])
    (ho : σ.Outside n) :
    Traces σ leaveBlock fun _ σ' => σ' = { σ with level := n, scopes := outer } := by
  intro s hs
  subst hs
  refine (meets_leave hsc hou fun m hm => .inl (ho.held m hm)).mono ?_
  rintro - g ⟨s', hg, hmo, hsh⟩
  refine ⟨s', hg, hmo, ?_⟩
  have ht : s.targets.filter (·.level ≤ n) = s.targets :=
    List.filter_eq_self.mpr fun t hme => by simpa using ho.targets t hme
  have hl : s.held.map (·.lower n) = s.held := map_lower_of_le ho.held
  rw [hsh, ht, hl]
  rfl

end Trace

end LuaBytecode
