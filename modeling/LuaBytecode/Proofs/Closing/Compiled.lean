import LuaBytecode.Proofs.Closing.Capture
import LuaBytecode.Proofs.Grammar.WellFormed

namespace LuaBytecode

open Draft Trace State

variable {i : Instruction} {d : Draft} {b : Block} {source : ChunkName} {ds : List Draft}
  {c : Chunk} {f : Prototype} {src : Bytes} {v : Variable} {pc : Nat} {l' l : Layer}

lemma Draft.Scoped.numActive_lt (h : d.Scoped) (hb : b ∈ d.blocks) : b.numActive < 255 := by
  have hle := h.ranked.le b hb
  have ha : d.active.size ≤ 200 := h.active
  omega

namespace Trace

namespace Layer

variable {outer : List Block} {d' : Draft}

structure Guarded (l : Layer) : Prop where
  nests : l.Nests
  timed : l.Timed
  placed : l.Placed
  lends : l.Lends
  fresh : ∀ slot, l.fresh = some slot → l.Fresh slot
  guards : l.Guards

lemma Works.guarded (h : l.Works l') (hg : l.Guarded) : l'.Guarded := by
  have ha : l'.active = l.active := by rw [h.scope]
  have hl : l'.localVariables = l.localVariables := by rw [h.scope]
  have hu : l'.upvalues = l.upvalues := by rw [h.scope]
  have hb : l'.blocks = l.blocks := by rw [h.scope]
  have hc : l.SameClosures l'.toDraft := .of_advances h.code (by rw [h.scope])
  refine ⟨?_, hg.timed.congr ha hl h.code.size, hg.placed.works hg.timed h, ?_, fun slot hs => ?_,
    hg.guards.grows hg.timed h.grows⟩
  · rcases h.breaks with heq | ⟨hlo, jumps, heq⟩
    · exact hg.nests.congr ha hl hb heq
    · exact hg.nests.addBreak ha hl hb hlo heq
  · exact hg.lends.congr hc ha hl (by simp [hu]) (by simp [hb]) (by simp [hb])
  · rcases h.fresh with hf | hf
    · rw [hf] at hs
      exact (hg.fresh slot hs).congr hc ha hl
    · rw [hf] at hs
      cases hs

lemma Rescopes.guarded (h : l.Rescopes l') (hs : l.Scoped)
    (hco : l.code.size < 2 ^ 63) (hg : l.Guarded) : l'.Guarded := by
  have hp := hg.placed.rescopes hco hg.timed hs.recorded h
  have hgu := hg.guards.grows hg.timed (h.grows hco)
  cases h with
  | declare hb hn hd =>
    have hne : l.blocks ≠ [] := by simp [hb]
    refine ⟨hg.nests.declare hb hn hs.recorded hd, hg.timed.declare hco hd hs.recorded,
      hp, hg.lends.declare hco hd hne, ?_, hgu⟩
    rintro slot ⟨⟩
    exact .declare hco hg.lends hs.recorded hd hne
  | start hf hsl hv hst hpc hi hop ha hta hd =>
    have ht := hg.timed.startVariable hco hd
    have hne : l.blocks ≠ [] := by
      intro hni
      have hra := hs.ranked
      rw [hni] at hra
      have hz : l.active.size = 0 := hra
      have := lt_size hsl
      omega
    exact ⟨hg.nests.startVariable hd, ht, hp, hg.lends.startVariable hco hg.timed ht
      (hg.fresh _ hf) hsl hv hst hpc hi ha hne hd, by simp, hgu⟩
  | enter hne isLoop =>
    have hc : l.SameClosures (l.enterBlock isLoop) := .of_eq rfl rfl
    refine ⟨hg.nests.enter hne isLoop, hg.timed.congr rfl rfl .refl, hp, ?_,
      fun slot hsl => (hg.fresh slot hsl).congr hc rfl rfl, hgu⟩
    refine hg.lends.congr hc rfl rfl (fun _ _ hw => hw) (fun _ => hne) fun r hr hm => ?_
    rw [enterBlock, Marked, if_pos hr]
    exact hm

lemma Step.guarded (h : l.Step l') (hs : l.Scoped) (hc : l.code.size < 2 ^ 63)
    (hg : l.Guarded) : l'.Guarded := by
  rcases h.works hg.timed hg.placed fun b hb => hs.numActive_lt hb with hw | hw
  · exact hw.guarded hg
  · exact hw.guarded hs hc hg

lemma Steps.guarded (h : l.Steps l') (hs : l.Scoped)
    (hc : l'.code.size < 2 ^ 63) (hg : l.Guarded) : l'.Guarded ∧ l'.Scoped := by
  induction h with
  | refl => exact ⟨hg, hs⟩
  | tail _ hst ih =>
    have hle := hst.keepsOps.size_le
    obtain ⟨hg, hs⟩ := ih (by omega)
    exact ⟨hst.guarded hs (by omega) hg, (hst.scoped hs).1⟩

lemma steps_scopeClosed {isOutermost : Bool} (hb : l.blocks = b :: outer)
    (h : l.ScopeClosed b isOutermost d) : l.Steps { l with toDraft := d } := by
  unfold ScopeClosed at h
  split at h
  · obtain ⟨j, d1, d2, hj, he, hcl, rfl⟩ := h
    have hb1 : d1.blocks = b :: outer := by
      rw [Draft.emit_sameScope he]
      exact hb
    have hju := Step.jump hj he
    have hc : ∀ held, held = marks (l.code.size :: l.pending)
        l.active.size ++ l.held →
          Step { l with toDraft := d1, held } { l with toDraft := d2, held } :=
      fun held hh => .close hh hb1 hcl
    exact ((Relation.ReflTransGen.single hju).tail (hc _ rfl)).tail (.patchHere rfl)
  · subst h
    exact .refl

lemma code_scopeClosed (h : d.ScopeClosed b false d') (hc : b.isCaptured = true) :
    ∃ j, Remade (fun _ => Shut b.numActive) (d.code.size :: d.pending) (d.code.push j) d'.code ∧
      d'.breaks = d.breaks ∧ ∀ pc, pc ∈ d'.pending ↔ pc ∈ d.code.size :: d.pending := by
  rw [ScopeClosed, if_pos (by simp [hc])] at h
  obtain ⟨j, d1, d2, hj, he, hcl, rfl⟩ := h
  obtain ⟨code, hp, rfl⟩ := emit_ok he
  have hco : code = d.code := Array.ext_getElem? fun pc => hp.kept pc (by simp)
  subst hco
  obtain ⟨code', hs, rfl⟩ := closeAll_ok hcl
  exact ⟨j, hs, rfl, fun pc => by simp [patchToHere, label, emitted]⟩

lemma sealed_scopeClosed (hg : l.Guards) (h : l.ScopeClosed b false d)
    (hca : b.isCaptured = true) (hl : b.numActive < 255) :
    Sealed { l with toDraft := d } b.numActive ∧
      (∀ pc i, pc + 1 = d.code.size → d.code[pc]? = some i → i.op? ≠ some .closure) ∧
      ∀ pc i, ShutAt l.code b.numActive pc → d.code[pc]? = some i →
        i.Closes b.numActive := by
  obtain ⟨j, hre, hbr, hpe⟩ := code_scopeClosed h hca
  have hsc := h.keeps.1
  have hsi : d.code.size = l.code.size + 1 := by rw [hre.size, Array.size_push]
  have hc : ∀ pc i, pc ∈ l.code.size :: l.pending →
      d.code[pc]? = some i → i.Closes b.numActive := by
    intro pc i hpc hi
    have hlt : pc < (l.code.push j).size := by
      rw [← hre.size]
      exact lt_size hi
    obtain ⟨i', hi', hsh⟩ := hre.made pc hpc _ (Array.getElem?_eq_getElem hlt)
    cases hi.symm.trans hi'
    exact hsh.closes hl
  have hk : ∀ pc i, pc ∉ l.code.size :: l.pending →
      d.code[pc]? = some i → l.code[pc]? = some i := by
    intro pc i hpc hi
    have hne : pc ≠ l.code.size := fun heq => hpc (by simp [heq])
    rw [hre.kept pc hpc, Array.getElem?_push, if_neg hne] at hi
    exact hi
  refine ⟨fun r s hr hs pc i hi hle => ?_, fun pc i hpc hi hop => ?_, fun pc i hsh hi => ?_⟩
  · by_cases hpc : pc ∈ l.code.size :: l.pending
    · exact .inl (hc pc i hpc hi)
    · by_cases hbo : IsBound { l with toDraft := d } pc
      · exact .inr (.inl hbo)
      · have hopen : ¬ IsOpen { l with toDraft := d } pc := fun ho =>
          ho.elim (fun hp => hpc ((hpe pc).mp hp)) hbo
        have ho' : ¬ l.IsOpen pc := by
          rintro (hp | hb)
          · exact hpc (by simp [hp])
          · exact hbo (by rw [IsBound, hbr]; exact hb)
        have hs' : l.startAt r = some s := by
          rwa [startAt_congr (by rw [hsc]) (by rw [hsc])] at hs
        refine .inr (.inr ⟨hopen, fun t ht => ?_⟩)
        have hst := (hg.inside r s hs' pc i (hk pc i hpc hi) hle).resolve_left ho' t ht
        dsimp only
        omega
  · have hj := (hc pc i (by simp; omega) hi).1
    rw [hop] at hj
    cases hj
  · by_cases hpc : pc ∈ l.code.size :: l.pending
    · exact hc pc i hpc hi
    · obtain ⟨i', hi', hop, ha⟩ := hsh
      cases (hk pc i hpc hi).symm.trans hi'
      have hA : (b.numActive + 1).toUInt8.toNat = b.numActive + 1 := toNat_toUInt8 (by omega)
      exact ⟨hop, by omega, by omega⟩

lemma Guarded.after {jumps : List Nat} (h : l.Guarded) (hs : l.Scoped)
    (hc : l.code.size < 2 ^ 63) (hb : l.blocks = b :: outer)
    (he : Ends b outer jumps l.toDraft d') (hse : b.isCaptured = true → l.Sealed b.numActive)
    (hla : b.isCaptured = true → ∀ pc i, pc + 1 = l.code.size →
      l.code[pc]? = some i → i.op? ≠ some .closure)
    (hh : b.isCaptured = true → ∀ m ∈ l.held, m.level ≤ b.numActive ∨
      ∀ i, l.code[m.pc]? = some i → i.Closes b.numActive) :
    (l.after b.numActive d').Guarded := by
  have hl : b.numActive < 255 := hs.numActive_lt (by simp [hb])
  exact ⟨h.nests.ends hb he, he.undeclares.timed h.timed hc, h.placed.after h.timed he,
    h.lends.ends h.timed hc hb hl he hla, by simp [Layer.after],
    h.guards.after h.timed h.placed h.lends h.nests hc hb hl he hse hh⟩

lemma Guarded.leave (h : l.Guarded) (hs : l.Scoped) (hb : l.blocks = b :: outer)
    (ho : outer ≠ []) (hle : l.Left b outer d') (hco : d'.code.size < 2 ^ 63)
    (hh : ∀ m ∈ l.held, m.level ≤ b.numActive ∨
      (b.isCaptured = true → ShutAt l.code b.numActive m.pc)) :
    (l.after b.numActive d').Guarded := by
  have hl : b.numActive < 255 := hs.numActive_lt (by simp [hb])
  have hn := h.nests.nested
  rw [hb] at hn
  obtain ⟨d1, jumps, hsc, he⟩ := hle.ends hn
  have hf : outer.isEmpty = false := by simp [ho]
  rw [hf] at hsc
  have hc1 : d1.code.size < 2 ^ 63 := by
    rw [← he.undeclares.size]
    exact hco
  obtain ⟨hg1, hs1⟩ := (steps_scopeClosed hb hsc).guarded hs hc1 h
  have hb1 : d1.blocks = b :: outer := by
    rw [hsc.keeps.1]
    exact hb
  refine hg1.after hs1 hc1 hb1 he (fun hc => ?_) (fun hc => ?_) fun hc m hm => ?_
  · exact (sealed_scopeClosed h.guards hsc hc hl).1
  · exact (sealed_scopeClosed h.guards hsc hc hl).2.1
  · refine (hh m hm).imp_right fun hsh i hi => ?_
    exact (sealed_scopeClosed h.guards hsc hc hl).2.2 m.pc i (hsh hc) hi

lemma sealed_return (hg : l.Guards) (hn : l.Nests) (hb : l.blocks = [b]) (hh : l.held = [])
    (hop : i.op? = some .return) (h : l.emit i = .ok d) (n : Nat) :
    Sealed { l with toDraft := d } n := by
  have hsi := emit_size h
  have hbr : l.breaks = #[] := by
    have hne := hn.nested
    rw [hb] at hne
    have hl : b.isLoop = false := hne.2.2.2.1 rfl
    exact Array.size_eq_zero_iff.mp (by simpa [hl] using hne.2.2.1)
  obtain ⟨code, hp, rfl⟩ := emit_ok h
  have hc : code.size = l.code.size := hp.size
  intro r s hr hs pc j hj hle
  have hno : ¬ IsOpen { l with toDraft := l.emitted code i } pc := by
    simp [IsOpen, IsBound, emitted, hh, hbr]
  refine .inr (.inr ⟨hno, fun t ht => ?_⟩)
  have hs' : l.startAt r = some s := hs
  dsimp only [emitted] at hj
  rw [Array.getElem?_push] at hj
  split at hj
  · cases hj
    simp [Instruction.successors, hop] at ht
  · have hlt := lt_size hj
    rw [hsi]
    by_cases hpc : pc ∈ l.pending
    · obtain ⟨j', hj', ha⟩ := hp.made pc hpc _ (Array.getElem?_eq_getElem (by omega))
      cases hj.symm.trans hj'
      rcases ha.mem_successors ht with rfl | rfl <;> omega
    · rw [hp.kept pc hpc] at hj
      have ho : ¬ l.IsOpen pc := by simp [IsOpen, IsBound, hh, hbr, hpc]
      have hst := (hg.inside r s hs' pc j hj hle).resolve_left ho t ht
      omega

lemma Guarded.finish (h : l.Guarded) (hs : l.Scoped) (hb : l.blocks = [b]) (hh : l.held = [])
    (hop : i.op? = some .return) (he : l.emit i = .ok d) (hl : d.Left b [] d')
    (hco : d'.code.size < 2 ^ 63) :
    (Layer.after { l with toDraft := d } b.numActive d').Guarded := by
  have hsc := emit_sameScope he
  have hb1 : d.blocks = [b] := by
    rw [hsc]
    exact hb
  have hst : l.Step { l with toDraft := d } := .emit (Instruction.isPlain_of_op hop fun _ => rfl) he
  have hsi := hl.keepsOps.size_le
  have hs' := emit_size he
  have hg := hst.guarded hs (by omega) h
  have hs1 := (hst.scoped hs).1
  have hn := hg.nests.nested
  rw [hb1] at hn
  obtain ⟨d1, jumps, hc, hen⟩ := hl.ends hn
  have heq : d1 = d := by
    rw [ScopeClosed, if_neg (by simp)] at hc
    exact hc
  subst heq
  refine hg.after hs1 (by dsimp only; omega) hb1 hen (fun _ => ?_) (fun _ pc j hpc hj => ?_)
    (by simp [hh])
  · exact sealed_return h.guards h.nests hb hh hop he b.numActive
  · obtain ⟨code, hp, rfl⟩ := emit_ok he
    dsimp only [emitted] at hj hpc
    rw [Array.size_push] at hpc
    rw [Array.getElem?_push, if_pos (by omega)] at hj
    cases hj
    simp [hop]

end Layer

end Trace

namespace Prototype

def Owns (f : Prototype) (pc : Nat) (i : Instruction) (u : UpvalueDescriptor) : Prop :=
  if u.inStack then
    ∃ j v, f.localVariables[j]? = some v ∧ v.name = u.name ∧
      f.registerOf j v = u.index.toNat ∧ Covers v.start u.index.toNat pc i ∧ pc < v.stop
  else ∃ w : UpvalueDescriptor, f.upvalues[u.index.toNat]? = some w ∧ w.name = u.name

def Captures (f : Prototype) (j : Nat) (v : LocalVariable) : Prop :=
  ∃ pc i u, f.MakesAt pc i u ∧ u.inStack = true ∧ u.index.toNat = f.registerOf j v ∧
    Covers v.start u.index.toNat pc i ∧ pc < v.stop

structure ClosesCaptured (f : Prototype) : Prop where
  exits : ∀ (j : Nat) (v : LocalVariable), f.localVariables[j]? = some v → f.Captures j v →
    ∀ (pc : Nat) (i : Instruction), f.code[pc]? = some i → v.start ≤ pc → pc < v.stop →
      ∀ t ∈ i.successors pc, ¬ (v.start ≤ t ∧ t < v.stop) → i.Closes (f.registerOf j v)
  ends : ∀ (pc : Nat) (i : Instruction), f.code[pc]? = some i → i.successors pc = [] →
    i.op? = some .return ∨ i.op? = some .tailCall
  lent : ∀ (k : Nat) (g : Prototype), f.functions[k]? = some g → ∃ pc i, f.code[pc]? = some i ∧
    i.op? = some .closure ∧ i.argBx = k ∧ ∀ u ∈ g.upvalues, f.Owns pc i u

def AllClose (f : Prototype) : Prop :=
  ∀ path g, f.nested? path = some g → g.code.length < 2 ^ 63 → g.ClosesCaptured

end Prototype

lemma Instruction.op?_of_successors_eq_nil (h : i.successors pc = []) :
    i.op? = some .return ∨ i.op? = some .tailCall := by
  unfold successors at h
  split at h
  · next hop => exact .inl hop
  · next hop => exact .inr hop
  all_goals first | cases h | (split at h <;> cases h)

namespace Draft

variable {d' : Draft} {name : Bytes}

lemma resolve_marks {isOwn : Bool} {ds' : List Draft} (h : resolve name isOwn ds = .ok (v, ds')) :
    List.Forall₂ (Marks name) ds ds' := by
  refine resolve_forall₂ (fun _ => .inl rfl) (fun hr hd' => ?_) (fun hd' => ?_) h
  · obtain ⟨bs, hbs, rfl⟩ := markCaptured_ok hd'
    exact .inr ⟨_, hr, hbs⟩
  · obtain ⟨-, rfl⟩ := addUpvalue_ok hd'
    exact .inl rfl

lemma Left.functions {b : Block} {outer : List Block} (h : d.Left b outer d') :
    d'.functions = d.functions := by
  obtain ⟨d1, d2, ⟨hs1, -⟩, hu, hs2, -⟩ := h.undeclared
  rw [hs2, (undeclare_ok hu).2.2, hs1]

lemma makesAt_prototype {u : UpvalueDescriptor} :
    d.prototype.MakesAt pc i u ↔ d.MakesAt pc i u := by
  simp [Prototype.MakesAt, MakesAt, prototype]

lemma registerOf_prototype {j : Nat} {v : LocalVariable} (ha : d.active = #[])
    (hv : d.localVariables[j]? = some v) : d.prototype.registerOf j v = d.place j v.start := by
  have hlt := lt_size hv
  rw [place_finished ha (Nat.le_of_lt hlt)]
  rfl

lemma Owns.prototype {pc : Nat} {i : Instruction} {u : UpvalueDescriptor} (h : d.Owns pc i u)
    (ha : d.active = #[]) : d.prototype.Owns pc i u := by
  unfold Owns at h
  unfold Prototype.Owns
  split at h
  · next hin =>
    rw [if_pos hin]
    obtain ⟨j, v, hv, hn, hp, hc, he⟩ := h
    exact ⟨j, v, by simpa [Draft.prototype] using hv, hn,
      (registerOf_prototype ha hv).trans hp, hc, (he (by simp [ha])).1⟩
  · next hin =>
    rw [if_neg hin]
    obtain ⟨w, hw, hn⟩ := h
    exact ⟨w, by simpa [Draft.prototype] using hw, hn⟩

end Draft

namespace Trace

namespace Layer

variable {d' : Draft}

lemma Step.functions (h : l.Step l') : l'.functions = l.functions := by
  rcases h.scope with hs | ⟨_, _, _, -, -, hd⟩ | ⟨r, hd⟩ | ⟨isLoop, heq⟩
  · rw [hs]
  · rw [(declare_ok hd).2]
  · obtain ⟨slot, -, -, heq⟩ := startVariable_ok hd
    rw [heq]
  · rw [heq]
    rfl

lemma guarded_new (source : ChunkName) (n : UInt8) (isVararg : Bool) (first last : Int)
    (upvalues : Array UpvalueDescriptor) : Guarded
      ⟨(new source n isVararg first last upvalues).enterBlock false, [], [], none⟩ := by
  have hs : ∀ r, ((new source n isVararg first last upvalues).enterBlock false).startAt r =
      none := by
    simp [startAt, variableAt, new, enterBlock]
  refine ⟨⟨⟨.refl, .refl, .inl rfl, fun _ => rfl, rfl, rfl⟩, ?_, ?_, ?_⟩,
    ⟨?_, ?_, ?_, ?_⟩, ⟨?_, ?_, ?_, ?_⟩, lends_of_empty rfl rfl, by simp, ⟨?_, ?_⟩⟩
  · simp [new, enterBlock]
  · simp [new, enterBlock]
  · exact ⟨by simp [new, enterBlock], trivial⟩
  · simp [new, enterBlock]
  · simp [new, enterBlock]
  · simp [new, enterBlock]
  · simp [new, enterBlock]
  · simp [IsOpen, IsBound, new, enterBlock]
  · simp
  · simp [new, enterBlock]
  · simp
  · simp [hs]
  · simp [Ended, new, enterBlock]

lemma Guarded.grown {name : Bytes} (h : l.Guarded) (hn : isHidden name = false)
    (hg : l.Grown d) (hm : Marks name l.toDraft d) : Guarded { l with toDraft := d } := by
  have heq := hg.touched.eq
  have hc : d.code = l.code := by rw [heq]
  have ha : d.active = l.active := by rw [heq]
  have hl : d.localVariables = l.localVariables := by rw [heq]
  have hf : d.functions = l.functions := by rw [heq]
  have hb : d.breaks = l.breaks := by rw [heq]
  have hp : d.pending = l.pending := by rw [heq]
  have ho : ∀ pc, IsOpen { l with toDraft := d } pc ↔ l.IsOpen pc := isOpen_congr rfl hp hb
  have hsi : l.code.size ≤ d.code.size := Nat.le_of_eq (by rw [hc])
  refine ⟨h.nests.touched hn hg.touched hm, h.timed.congr ha hl hsi, ?_, h.lends.grown hg,
    fun slot hs => (h.fresh slot hs).congr (.of_eq hc hf) ha hl,
    h.guards.grows h.timed (.of_prolongs (.of_eq ha hl) hc hf ho)⟩
  refine h.placed.of_startAt ho rfl hb rfl hsi (Nat.le_of_eq (by rw [ha])) fun r s hs => ?_
  rw [startAt_congr ha hl] at hs
  exact .inl hs

lemma works_aimPending {code : Array Instruction} {safe : Int → Prop} (hs : safe l.code.size)
    (h : Patched l.pending l.code.size l.code code) :
    Moves safe l { l with toDraft := { l.toDraft with code, pending := [] } } := by
  have hb : ∀ pc, IsOpen { l with toDraft := { l.toDraft with code, pending := [] } } pc ↔
      l.IsBound pc := fun pc => by
    exact or_iff_right (by simp)
  refine ⟨rfl, ?_, fun pc hpc => .inl (.inr ((hb pc).mp hpc)), fun _ => .inl, .inl rfl,
    fun _ => .inl, .inl rfl⟩
  refine .patched h (fun pc hpc => ?_) (fun pc hpc => .inl hpc) hs
  rw [hb]
  exact (or_iff_right hpc).symm

lemma Guarded.of_makes {f : Prototype} {i : Instruction} (h : l.Guarded)
    (hs : ∀ u ∈ f.upvalues, l.Supplies u) (hm : Makes f i l.toDraft l'.toDraft)
    (ho : ∀ pc, l'.IsOpen pc ↔ l.IsOpen pc) (hh : l'.held = l.held)
    (ht : l'.targets = l.targets) (hf : l'.fresh = l.fresh)
    (hb : l'.breaks = l.breaks) : l'.Guarded := by
  have hsi : l.code.size ≤ l'.code.size := by simp [hm.code]
  refine ⟨h.nests.congr hm.active hm.localVariables hm.blocks hb,
    h.timed.congr hm.active hm.localVariables hsi, ?_, h.lends.makes h.timed hs hm,
    fun slot hsl => ?_, h.guards.grows h.timed (.of_makes hm h.lends h.timed ho)⟩
  · refine h.placed.of_startAt ho hh hb ht hsi (Nat.le_of_eq (by rw [hm.active])) fun r s hs => ?_
    rw [startAt_congr hm.active hm.localVariables] at hs
    exact .inl hs
  · rw [hf] at hsl
    exact (h.fresh slot hsl).makes h.lends h.timed hm

lemma Guarded.makes {line : Int} (h : l.Guarded) (hs : ∀ u ∈ f.upvalues, l.Supplies u)
    (hop : i.op? = some .closure) (hbx : i.argBx = l.functions.size)
    (he : emit { l.toDraft with functions := l.functions.push f, line } i = .ok d) :
    Guarded { l with toDraft := d } := by
  obtain ⟨code, hp, rfl⟩ := emit_ok he
  have hs' := Int.ofNat_le.mpr (Nat.le_of_eq hp.size.symm)
  have h1 := Works.guarded (works_aimPending (safe_of_le h.timed (Int.le_refl _) hs') hp) h
  exact h1.of_makes (fun u hu => (hs u hu).congr rfl rfl rfl rfl)
    ⟨hop, hbx, rfl, rfl, rfl, rfl, rfl, rfl⟩ (isOpen_congr rfl rfl rfl) rfl rfl rfl rfl

lemma Guarded.prototype (h : l.Guarded) (hb : l.blocks = []) :
    l.prototype.ClosesCaptured := by
  have hn := h.nests.nested
  rw [hb] at hn
  have ha : l.active = #[] := Array.size_eq_zero_iff.mp hn.1
  refine ⟨fun j v hv hc pc i hi hs hstop t ht hou => ?_, fun pc i _ hni =>
    Instruction.op?_of_successors_eq_nil hni, fun k g hg => ?_⟩
  · have hv : l.localVariables[j]? = some v := by simpa [Draft.prototype] using hv
    have hi : l.code[pc]? = some i := by simpa [Draft.prototype] using hi
    have hr := Draft.registerOf_prototype ha hv
    obtain ⟨pc0, i0, u, hm, hin, hindex, hco, hpc0⟩ := hc
    have hc : l.Captures j v := ⟨pc0, i0, u, Draft.makesAt_prototype.mp hm, hin,
      hindex.trans hr, hco, hpc0⟩
    have he : l.Ended j v := ⟨hv, by simp [ha]⟩
    rw [hr]
    rcases h.guards.left j v he hc pc i hi hs hstop with hcl | ⟨-, hst⟩
    · exact hcl
    · exact absurd (hst t ht) hou
  · have hg : l.functions[k]? = some g := by simpa [Draft.prototype] using hg
    obtain ⟨pc, i, hi, hop, hbx, ho⟩ := h.lends.owned k g hg
    exact ⟨pc, i, by simpa [Draft.prototype] using hi, hop, hbx, fun u hu => (ho u hu).prototype ha⟩

end Layer

namespace State

variable {s s' : State}

def layers (s : State) : List Layer := s.toLayer :: s.enclosing

structure Sound (s : State) : Prop where
  linked : Linked s.drafts
  guarded : ∀ l ∈ s.layers, l.code.size < 2 ^ 63 → l.Guarded

lemma Sound.with_current (h : s.Sound) (hl : Linked (l.toDraft :: s.enclosing.map (·.toDraft)))
    (hg : l.code.size < 2 ^ 63 → l.Guarded) : Sound { s with toLayer := l } :=
  ⟨hl, List.forall_mem_cons.mpr ⟨hg, (List.forall_mem_cons.mp h.guarded).2⟩⟩

lemma guarded_withDrafts {name : Bytes} {ls : List Layer} (hn : isHidden name = false)
    (h : ∀ l ∈ ls, l.code.size < 2 ^ 63 → l.Guarded)
    (hg : List.Forall₂ Grown (ls.map (·.toDraft)) ds)
    (hm : List.Forall₂ (Marks name) (ls.map (·.toDraft)) ds) :
    ∀ l ∈ ls.zipWith (fun l d => { l with toDraft := d }) ds, l.code.size < 2 ^ 63 → l.Guarded := by
  induction ls generalizing ds with
  | nil => simp
  | cons l ls ih =>
    cases hg with
    | cons hg1 hgs =>
      cases hm with
      | cons hm1 hms =>
        obtain ⟨h1, hs⟩ := List.forall_mem_cons.mp h
        refine List.forall_mem_cons.mpr ⟨fun hc => ?_, ih hs hgs hms⟩
        rw [hg1.touched.eq] at hc
        exact (h1 hc).grown hn hg1 hm1

lemma Sound.resolve {g : Generator} {name : Bytes} {v : Variable} (h : s.Sound)
    (hn : isHidden name = false) (hr : Gen.resolve name s.generator = .ok (v, g)) :
    (s.withDrafts g).Sound := by
  have hok := Gen.resolve_ok hr
  exact ⟨((Step.resolve hn hr).linked h.linked).1,
    guarded_withDrafts hn h.guarded (resolve_grown hok) (Draft.resolve_marks hok)⟩

lemma Step.sound (h : s.Step s') (hs : s.Sound) : s'.Sound := by
  have hli := (h.linked hs.linked).1
  have hsc := hs.linked.head
  obtain ⟨hg, hgs⟩ := List.forall_mem_cons.mp hs.guarded
  cases h with
  | inside h =>
    have hsi := h.keepsOps.size_le
    exact hs.with_current hli fun hc => h.guarded hsc (by omega) (hg (by omega))
  | leave hbl ho h hh =>
    obtain ⟨-, hle⟩ := Gen.leaveBlock_ok hbl h
    have hsi := hle.keepsOps.size_le
    refine hs.with_current hli fun hc => ?_
    exact (hg (Nat.lt_of_le_of_lt hsi hc)).leave hsc hbl ho hle hc hh
  | @finish g b i d hbl hh hop hem h =>
    have hsa := emit_sameScope hem
    have hb : d.blocks = [b] := by
      rw [hsa]
      exact hbl
    obtain ⟨-, hle⟩ := Gen.leaveBlock_ok hb h
    have hsi := hle.keepsOps.size_le
    have hs' := emit_size hem
    refine hs.with_current hli fun hc => ?_
    dsimp only at hsi hc
    have hf := (hg (by omega)).finish hsc hbl hh hop hem hle hc
    have hfo : (Layer.after { s.toLayer with toDraft := d } b.numActive g.toDraft).Step
        ⟨g.toDraft, [], [], none⟩ := .rearrange (by simp [Layer.after, hh]) (by simp)
    exact hfo.guarded hli.head hc hf
  | resolve hn h => exact hs.resolve hn h
  | openFunction source numParams isVararg first last =>
    refine ⟨hli, List.forall_mem_cons.mpr ⟨fun _ => ?_, hs.guarded⟩⟩
    exact Layer.guarded_new source numParams isVararg first last #[]
  | @closeFunction l rest line i d he hbl hp hh hop hbx h =>
    rw [he] at hgs
    obtain ⟨hl, hr⟩ := List.forall_mem_cons.mp hgs
    have hsi := emit_size h
    have hsu : ∀ u ∈ s.upvalues, l.Supplies u := by
      have hl := hs.linked
      rw [drafts, he] at hl
      exact hl.2.1
    refine ⟨hli, List.forall_mem_cons.mpr ⟨fun hc => ?_, hr⟩⟩
    dsimp only at hsi hc
    refine (hl (by omega)).makes (fun u hu => hsu u ?_) hop hbx h
    simpa [prototype] using hu

lemma sound_start (source : ChunkName) : (start source).Sound :=
  ⟨linked_start source, List.forall_mem_cons.mpr
    ⟨fun _ => Layer.guarded_new source 0 true 0 0 _, by simp [start]⟩⟩

lemma Reachable.sound (h : Reachable source s) : s.Sound := by
  induction h with
  | refl => exact sound_start source
  | tail _ hs ih => exact hs.sound ih

lemma waits_withDrafts {g : Generator} {name : Bytes}
    (h : Gen.resolve name s.generator = .ok (v, g)) :
    List.Forall₂ Layer.Waits s.layers (s.withDrafts g).layers := by
  obtain ⟨hc, ho⟩ := Trace.resolve_touched h
  exact .cons ⟨hc, rfl, rfl, rfl⟩ (over_enclosing ho).2

lemma Step.mem_functions (h : s.Step s') (hl' : l' ∈ s'.layers) (hf : f ∈ l'.functions) :
    (∃ l ∈ s.layers, f ∈ l.functions) ∨ (s.blocks = [] ∧ f = s.prototype) := by
  have hke : ∀ l'' : Layer, l''.functions = s.functions →
      l' ∈ l'' :: s.enclosing → ∃ l ∈ s.layers, f ∈ l.functions := fun l'' heq hm => by
    rcases List.mem_cons.mp hm with rfl | hm
    · exact ⟨s.toLayer, List.mem_cons_self, heq ▸ hf⟩
    · exact ⟨l', List.mem_cons_of_mem _ hm, hf⟩
  cases h with
  | inside h => exact .inl (hke _ h.functions hl')
  | leave hb ho h hh =>
    obtain ⟨-, hl⟩ := Gen.leaveBlock_ok hb h
    exact .inl (hke _ hl.functions hl')
  | @finish g b i d hb hh hop hem h =>
    have hs := emit_sameScope hem
    obtain ⟨-, hl⟩ := Gen.leaveBlock_ok (show d.blocks = [b] by rw [hs]; exact hb) h
    exact .inl (hke _ (hl.functions.trans (by rw [hs])) hl')
  | resolve hn h =>
    obtain ⟨k, hk, rfl⟩ := List.mem_iff_getElem.mp hl'
    have hw := waits_withDrafts h
    have hlt : k < s.layers.length := hw.length_eq ▸ hk
    have heq := congrArg (·.functions) (hw.get hlt hk).draft.eq
    exact .inl ⟨s.layers.get ⟨k, hlt⟩, List.get_mem _ _, heq ▸ hf⟩
  | openFunction source numParams isVararg first last =>
    rcases List.mem_cons.mp hl' with rfl | hl'
    · simp [new, enterBlock] at hf
    · exact .inl ⟨l', hl', hf⟩
  | @closeFunction l rest line i d hen hb hp hh hop hbx h =>
    have hold : ∀ e ∈ l :: rest, e ∈ s.layers := fun e he => by
      rw [layers, hen]
      exact List.mem_cons_of_mem _ he
    rcases List.mem_cons.mp hl' with rfl | hl'
    · rw [emit_sameScope h] at hf
      rcases Array.mem_push.mp hf with hf | hf
      · exact .inl ⟨l, hold l List.mem_cons_self, hf⟩
      · exact .inr ⟨hb, hf⟩
    · exact .inl ⟨l', hold l' (List.mem_cons_of_mem _ hl'), hf⟩

def Finishes (source : ChunkName) (f : Prototype) : Prop :=
  ∃ t, Reachable source t ∧ t.blocks = [] ∧ t.prototype = f

lemma Reachable.finishes_of (h : Reachable source s) (hb : s.blocks = [])
    (hs : ∀ f ∈ s.functions, ∀ path g, f.nested? path = some g → Finishes source g) :
    ∀ path g, s.prototype.nested? path = some g → Finishes source g := by
  intro path g hg
  cases path with
  | nil =>
    cases hg
    exact ⟨s, h, hb, rfl⟩
  | cons k path =>
    obtain ⟨f, hf, hg⟩ := Option.bind_eq_some_iff.mp hg
    exact hs f (by simpa [prototype] using List.mem_of_getElem? hf) path g hg

lemma Reachable.finishes (h : Reachable source s) : ∀ l ∈ s.layers,
    ∀ f ∈ l.functions, ∀ path g, f.nested? path = some g → Finishes source g := by
  induction h with
  | refl => simp [layers, start, Generator.start, new, enterBlock]
  | tail hr hs ih =>
    intro l hl f hf
    rcases hs.mem_functions hl hf with ⟨l0, hl0, hf0⟩ | ⟨hb, rfl⟩
    · exact ih l0 hl0 f hf0
    · exact Reachable.finishes_of hr hb (ih _ List.mem_cons_self)

end State

end Trace

lemma generate_finishes {tree : SourceTree} (ht : (SyntaxNode.chunk tree).WellFormed (2 ^ 64))
    (h : generate source tree = .ok c) :
    ∃ main, c.main = some main ∧ main.upvalues = [⟨environmentName, true, 0⟩] ∧
      ∀ path f, main.nested? path = some f → Finishes source f := by
  obtain ⟨g, hru, hm⟩ := generate_ok h
  obtain ⟨s, hr, rfl, -, hb, -, he⟩ :=
    Trace.SourceTree.code_reachable (Stmt.allWellFormed tree.body ht.children) hru
  have hl := hr.sound.linked
  rw [drafts, he] at hl
  exact ⟨_, hm, congrArg Array.toList hl.2,
    hr.finishes_of hb (hr.finishes s.toLayer List.mem_cons_self)⟩

lemma compile_finishes (hs : src.length < 2 ^ 63) (h : compile source src = .ok c) :
    ∃ main, c.main = some main ∧ main.upvalues = [⟨environmentName, true, 0⟩] ∧
      ∀ path f, main.nested? path = some f → Finishes source f := by
  obtain ⟨tree, hp, hg⟩ := compile_ok h
  exact generate_finishes (parse_wellFormed (by omega) hp) hg

lemma compile_allClose (hs : src.length < 2 ^ 63) (h : compile source src = .ok c) :
    ∃ main, c.main = some main ∧ main.upvalues = [⟨environmentName, true, 0⟩] ∧ main.AllClose := by
  obtain ⟨main, hm, hu, ha⟩ := compile_finishes hs h
  refine ⟨main, hm, hu, fun path f hf hc => ?_⟩
  obtain ⟨t, hr, hb, rfl⟩ := ha path f hf
  have hg := hr.sound.guarded t.toLayer List.mem_cons_self (by simpa [prototype] using hc)
  exact hg.prototype hb

/-- Texts and code have lengths that are 64-bit integers. -/
theorem compile_closesCaptured {source : ChunkName} {src : Bytes} {c : Chunk}
    (hsrc : src.length < 2 ^ 63) (h : compile source src = .ok c) :
    ∃ main, c.main = some main ∧ ∀ path f, main.nested? path = some f →
      f.code.length < 2 ^ 63 → f.ClosesCaptured := by
  obtain ⟨main, hmain, -, hall⟩ := compile_allClose hsrc h
  exact ⟨main, hmain, hall⟩

def capturedText : Bytes := .ofString
  "local a; while a do local x = a; a = function() return x end; if x then break end end"

def capturedMain : Option Prototype := (compile "=captured" capturedText).toOption.bind (·.main)

theorem compile_closesCaptured_break : capturedText.length < 2 ^ 63 ∧
    ∃ c main, compile (.ofString "=captured") capturedText = .ok c ∧ c.main = some main ∧
      main.code.length < 2 ^ 63 ∧ main.localVariables[1]? = some ⟨[byte 'x'], 4, 8⟩ ∧
      main.Captures 1 ⟨[byte 'x'], 4, 8⟩ ∧ main.ClosesCaptured := by
  have hlen : capturedText.length < 2 ^ 63 := by decide +kernel
  have hcode : capturedMain.map (fun f => (f.code.length, f.code[4]?)) = some (10, some ⟨44⟩) := by
    decide +kernel
  have hvars : capturedMain.map (·.localVariables) =
      some [⟨[byte 'a'], 1, 10⟩, ⟨[byte 'x'], 4, 8⟩] := by decide +kernel
  have hups : capturedMain.map (fun f => f.functions.map (·.upvalues)) =
      some [[⟨[byte 'x'], true, 1⟩]] := by decide +kernel
  refine ⟨hlen, ?_⟩
  cases h : compile (.ofString "=captured") capturedText with
  | error e =>
    have hnone : capturedMain = none := by rw [capturedMain, h]; rfl
    rw [hnone] at hcode
    cases hcode
  | ok c =>
    obtain ⟨main, hmain, hall⟩ := compile_closesCaptured hlen h
    have hsome : capturedMain = some main := by rw [capturedMain, h]; exact hmain
    rw [hsome] at hcode hvars hups
    simp only [Option.map_some, Option.some.injEq, Prod.mk.injEq] at hcode hvars hups
    obtain ⟨hlength, hclosure⟩ := hcode
    have hsize : main.code.length < 2 ^ 63 := by omega
    refine ⟨c, main, rfl, hmain, hsize, by rw [hvars]; rfl, ?_, hall [] main rfl hsize⟩
    obtain ⟨g, hg, hu⟩ := List.map_eq_singleton_iff.mp hups
    refine ⟨4, ⟨44⟩, ⟨[byte 'x'], true, 1⟩, ⟨hclosure, by decide, g, ?_, ?_⟩, rfl, ?_, ?_, ?_⟩
    · rw [hg]
      rfl
    · simp [hu]
    · rw [Prototype.registerOf, hvars]
      decide
    · exact .inl (by decide)
    · decide

end LuaBytecode
