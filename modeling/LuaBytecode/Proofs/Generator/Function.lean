import LuaBytecode.Proofs.Generator.Assign
import LuaBytecode.Proofs.Generator.Scope

namespace LuaBytecode

open Instruction Draft

variable {b : Nat} {ret : Instruction} {d : Draft}

namespace OpCode

variable {op : OpCode}

lemma after_eq_jump {c : Nat} : op.after b c = .jump ↔ op.props.isTest = true := by
  cases op <;> simp [after, props] <;> split <;> simp

lemma before_eq_batch : op.before b = .batch ↔ op = .extraArg := by
  cases op <;> simp [before] <;> split <;> simp

lemma before_eq_loop : op.before b = .loop ↔ op = .tforLoop := by
  cases op <;> simp [before] <;> split <;> simp

end OpCode

namespace Instruction

variable {i : Instruction} {n : Nat} {l : Link}

lemma isTest_iff : i.isTest = true ↔ i.after = .jump := by
  cases h : i.op? <;> simp [isTest, after, h, OpCode.after_eq_jump]

lemma takesExtra_iff : i.takesExtra = true ↔ i.after = .constant ∨ i.after = .batch := by
  cases h : i.op? with
  | none => simp [takesExtra, after, h]
  | some op => cases op <;> simp [takesExtra, after, h, OpCode.after] <;> split <;> simp_all

lemma leavesOpen_iff : i.leavesOpen = true ↔ i.after = .open := by
  cases h : i.op? with
  | none => simp [leavesOpen, after, h]
  | some op => cases op <;> simp [leavesOpen, after, h, OpCode.after] <;> split <;> simp_all

lemma takesOpen_iff : i.takesOpen = true ↔ i.before = .open := by
  cases h : i.op? with
  | none => simp [takesOpen, before, h]
  | some op => cases op <;> simp [takesOpen, before, h, OpCode.before]

lemma link_of_skips (h : i.skips = true) : i.after = .jump ∨ i.after = .bool := by
  rcases Bool.or_eq_true_iff.mp h with ht | hb
  · exact .inl (isTest_iff.mp ht)
  · obtain ⟨hop, hc⟩ : i.op? = some .loadBool ∧ i.argC ≠ 0 := by simpa using hb
    exact .inr (by simp [after, hop, OpCode.after, hc])

lemma op_of_before_eq_batch (h : i.before = .batch) : i.op? = some .extraArg := by
  cases hop : i.op? with
  | none => simp [before, hop] at h
  | some op =>
    simp only [before, hop, Option.elim_some, OpCode.before_eq_batch] at h
    rw [h]

lemma op_of_before_eq_loop (h : i.before = .loop) : i.op? = some .tforLoop := by
  cases hop : i.op? with
  | none => simp [before, hop] at h
  | some op =>
    simp only [before, hop, Option.elim_some, OpCode.before_eq_loop] at h
    rw [h]

lemma link_of_extraArg (hop : i.op? = some .extraArg) (h : i.Follows n l) :
    l = .constant ∨ l = .batch := by
  cases l <;> simp_all [Follows, before, OpCode.before]

lemma link_of_takesOpen (ht : i.takesOpen = true) (h : i.Follows n l) : l = .open := by
  have hb := takesOpen_iff.mp ht
  cases l with
  | jump =>
    have hop : i.op? = some .jmp := h
    simp [before, hop, OpCode.before] at hb
  | bool =>
    have hop : i.op? = some .loadBool := h
    simp [before, hop, OpCode.before] at hb
  | constant => simp [before, h.1, OpCode.before] at hb
  | _ => exact (h.symm.trans hb)

end Instruction

namespace Coded

variable {bs : Bounds} {code : Array Instruction} {i j : Instruction} {pc : Nat}

lemma next (h : Coded bs code) (he : linkAt code code.size = .plain)
    (hi : code[pc]? = some i) (hl : i.after ≠ .plain) :
    ∃ j, code[pc + 1]? = some j ∧ j.Follows bs.constants i.after := by
  have hlt := lt_size hi
  have hli : linkAt code (pc + 1) = i.after := by simp [linkAt, hi]
  by_cases hpc : pc + 1 = code.size
  · rw [← hpc, hli] at he
    exact absurd he hl
  · have hj : code[pc + 1]? = some code[pc + 1] := Array.getElem?_eq_getElem (by omega)
    exact ⟨_, hj, hli ▸ h.follows _ _ hj⟩

lemma previous (code : Array Instruction) (pc : Nat) (hl : linkAt code pc ≠ .plain) :
    ∃ before i, pc = before + 1 ∧ code[before]? = some i ∧ i.after = linkAt code pc := by
  cases pc with
  | zero => exact absurd rfl hl
  | succ k =>
    cases hk : code[k]? with
    | none => simp [linkAt, hk] at hl
    | some i => exact ⟨k, i, rfl, hk, by simp [linkAt, hk]⟩

lemma targets_lt (h : Coded bs (code.push ret)) (hold : Coded bs code)
    (he : linkAt (code.push ret) (code.push ret).size = .plain) (hr : ret.IsABC .return 0 1 0)
    (hi : (code.push ret)[pc]? = some i) (t : Int) (ht : t ∈ i.targets pc) :
    0 ≤ t ∧ t < (code.size + 1 : Nat) := by
  unfold Instruction.targets at ht
  split at ht
  · next hju =>
    obtain rfl := List.mem_singleton.mp ht
    rw [Array.getElem?_push] at hi
    split at hi
    · cases hi
      rw [hr.isJump_eq rfl] at hju
      cases hju
    · have := hold.targets pc i hi hju
      omega
  · split at ht
    · next hs =>
      obtain rfl := List.mem_singleton.mp ht
      have hli := Instruction.link_of_skips hs
      obtain ⟨j, hj, hf⟩ := h.next he hi (by rcases hli with hl | hl <;> simp [hl])
      rw [Array.getElem?_push] at hj
      split at hj
      · cases hj
        rcases hli with hl | hl <;> rw [hl] at hf <;>
          simp [Instruction.Follows, hr.op] at hf
      · have := lt_size hj
        omega
    · cases ht

end Coded

namespace Draft

variable {code : Array Instruction}

lemma Sound.emitted_return (hd : d.Sound) (hl : d.link = .plain)
    (hp : Patched d.pending d.code.size d.code code) (hr : ret.IsABC .return 0 1 0) :
    (d.emitted code ret).Sound := by
  refine hd.emitted hp (hr.fits rfl ?_) ?_ (by simp [hr.isJump_eq rfl])
  · constructor <;> simp
  · rw [hl]
    exact hr.follows rfl

lemma Sound.verified (hd : d.Sound) (hl : d.link = .plain)
    (hp : Patched d.pending d.code.size d.code code) (hre : ret.IsABC .return 0 1 0)
    (hpa : d.numParams.toNat ≤ d.maxStackSize) : (d.emitted code ret).prototype.Verified := by
  have hs := hd.emitted_return hl hp hre
  have hold := hp.coded hd.coded .refl
  have hc : Coded d.bounds (code.push ret) := hs.coded
  have he : linkAt (code.push ret) (code.push ret).size = .plain := by
    rw [linkAt_size_push, hre.after_eq]
    rfl
  have hst : d.maxStackSize.toUInt8.toNat = d.maxStackSize := by
    have := hd.stack
    exact toNat_toUInt8 (by omega)
  have hge : ∀ {pc : Nat} {i : Instruction},
      (d.emitted code ret).prototype.code[pc]? = some i ↔ (code.push ret)[pc]? = some i := by
    intro pc i
    rw [← Array.getElem?_toList]
    rfl
  have hm : ∀ i ∈ (d.emitted code ret).prototype.code, ∃ pc : Nat,
      (code.push ret)[pc]? = some i := by
    intro i hi
    obtain ⟨pc, hpc⟩ := List.mem_iff_getElem?.mp hi
    exact ⟨pc, hge.mp hpc⟩
  have hle : (d.emitted code ret).prototype.code.length = code.size + 1 := by
    simp [Draft.prototype, Draft.emitted]
  exact
    { stack := by
        show d.maxStackSize.toUInt8.toNat ≤ 254
        rw [hst]
        exact hd.stack
      params := by
        show d.numParams.toNat ≤ d.maxStackSize.toUInt8.toNat
        rw [hst]
        exact hpa
      opcodes := fun i hi => by
        obtain ⟨pc, hpc⟩ := hm i hi
        exact (hc.fits pc i hpc).opcode
      registers := fun i hi r hr => by
        obtain ⟨pc, hpc⟩ := hm i hi
        show r < d.maxStackSize.toUInt8.toNat
        rw [hst]
        exact (hc.fits pc i hpc).registers r hr
      constants := fun i hi k hk => by
        obtain ⟨pc, hpc⟩ := hm i hi
        exact (hc.fits pc i hpc).constants k hk
      upvalues := fun i hi u hu => by
        obtain ⟨pc, hpc⟩ := hm i hi
        exact (hc.fits pc i hpc).upvalues u hu
      closures := fun i hi n hn => by
        obtain ⟨pc, hpc⟩ := hm i hi
        exact (hc.fits pc i hpc).closures n hn
      targets := fun pc i hi t ht => by
        rw [hle]
        exact hc.targets_lt hold he hre (hge.mp hi) t ht
      tests := fun pc i hi ht => by
        have ha := isTest_iff.mp ht
        obtain ⟨j, hj, hf⟩ := hc.next he (hge.mp hi) (by simp [ha])
        rw [ha] at hf
        exact ⟨j, hge.mpr hj, hf⟩
      extra := fun pc i hi ht => by
        have ha := takesExtra_iff.mp ht
        obtain ⟨j, hj, hf⟩ := hc.next he (hge.mp hi) (by rcases ha with h | h <;> simp [h])
        refine ⟨j, hge.mpr hj, ?_⟩
        rcases ha with h | h
        · rw [h] at hf
          exact hf.1
        · rw [h] at hf
          exact op_of_before_eq_batch hf
      extra_only := fun pc j hj hop => by
        have hl := link_of_extraArg hop (hc.follows pc j (hge.mp hj))
        obtain ⟨before, i, rfl, hi, ha⟩ := Coded.previous (code.push ret) pc
          (by rcases hl with h | h <;> simp [h])
        refine ⟨before, i, rfl, hge.mpr hi, takesExtra_iff.mpr ?_⟩
        rw [ha]
        exact hl
      extra_constant := fun pc i j hij hop => by
        have ha : i.after = .constant := by simp [after, hop, OpCode.after]
        obtain ⟨j', hj', hf⟩ := hc.next he (hge.mp hij.1) (by simp [ha])
        cases (hge.mp hij.2).symm.trans hj'
        rw [ha] at hf
        exact hf.2
      openings := fun pc i hi ho => by
        have ha := leavesOpen_iff.mp ho
        obtain ⟨j, hj, hf⟩ := hc.next he (hge.mp hi) (by simp [ha])
        rw [ha] at hf
        exact ⟨j, hge.mpr hj, takesOpen_iff.mpr hf⟩
      openings_only := fun pc j hj ho => by
        have hl := link_of_takesOpen ho (hc.follows pc j (hge.mp hj))
        obtain ⟨before, i, rfl, hi, ha⟩ := Coded.previous (code.push ret) pc (by simp [hl])
        exact ⟨before, i, rfl, hge.mpr hi, leavesOpen_iff.mpr (ha.trans hl)⟩
      iterations := fun pc i hi hop => by
        have ha : i.after = .loop := by simp [after, hop, OpCode.after]
        obtain ⟨j, hj, hf⟩ := hc.next he (hge.mp hi) (by simp [ha])
        rw [ha] at hf
        exact ⟨j, hge.mpr hj, op_of_before_eq_loop hf⟩
      ending := ⟨ret, by simp [Draft.prototype, Draft.emitted], hre.op⟩
      lines := by simp [Draft.prototype, Draft.emitted, hd.lines, hp.size]
      captures := fun g hg u hu => by
        have hpr := (hd.functions g (Array.mem_toList_iff.mp hg)).2 u hu
        show if u.inStack then u.index.toNat < d.maxStackSize.toUInt8.toNat else _
        rw [hst]
        exact hpr }

end Draft

lemma Prototype.AllVerified.intro {f : Prototype} (h : f.Verified)
    (hu : f.upvalues.length ≤ maxUpvalues)
    (hf : ∀ g ∈ f.functions, g.AllVerified ∧ g.source = f.source) : f.AllVerified := by
  intro path g hg
  cases path with
  | nil =>
    cases hg
    exact ⟨h, hu, rfl⟩
  | cons k rest =>
    obtain ⟨f', hk, hr⟩ := Option.bind_eq_some_iff.mp hg
    obtain ⟨hf', hs⟩ := hf f' (List.mem_of_getElem? hk)
    obtain ⟨hv, hc, heq⟩ := hf' rest g hr
    exact ⟨hv, hc, heq.trans hs⟩

namespace Gen

open Generator

variable {lax : Prop} {g g0 : Generator} {m r dst : Nat} {b : Block}

lemma meets_leaveLast (hs : g.Sound) (hb : g.blocks = [b]) :
    Meets lax g leaveBlock fun _ g' => ∃ vars, g'.enclosing = g.enclosing ∧ g'.toDraft =
      Draft.setFirstFree
        { g.toDraft with blocks := [], localVariables := vars, active := #[] } 0 := by
  have hn := hs.nested
  rw [hb] at hn
  obtain ⟨-, -, -, hl, hnu, -⟩ := hn
  obtain ⟨vars, hok, -⟩ := Draft.undeclare_eq_ok (d := { g.toDraft with blocks := [] }) hs.slots
    (Nat.zero_le _)
  refine meets_read ?_
  simp only [hb, List.isEmpty_nil, hnu, closeScope, endLoop, hl rfl, Bool.not_true,
    Bool.and_false, Bool.false_eq_true, if_false]
  refine meets_pure_bind (meets_pure_bind ?_)
  rw [show g.active.take 0 = #[] by simp] at hok
  exact meets_updateOrFail_bind hok (meets_update_bind (meets_pure ⟨vars, rfl, rfl⟩))

lemma meets_finish (line : Int) (h : g.Ready m .plain) (hb : g.blocks = [b])
    (hp : g.numParams.toNat ≤ g.maxStackSize) :
    Meets lax g (finish line) fun _ g' => g'.enclosing = g.enclosing ∧
      g'.upvalues = g.upvalues ∧ g'.source = g.source ∧
      g'.prototype.AllVerified := by
  refine meets_update_bind ?_
  have hs : Sound { g.toDraft with line } := { h.sound with }
  obtain ⟨i, hi, hx⟩ := abc_eq_ok (a := 0) (b := 1) (c := 0)
    (rfl : OpCode.return.mode = .abc) (by decide) (by decide)
  refine (meets_emit (x := abc .return (0 : Nat).toUInt8 1 0) hi ?_).discard_bind ?_
  · exact fun pc hpc => (h.settled pc hpc).isJump
  rintro - _ ⟨-, code, hc, rfl⟩
  have hv := hs.verified h.link hc hx hp
  refine (meets_leaveLast (b := b) ?_ ?_).bind ?_
  · exact hs.emitted_return h.link hc hx
  · exact hb
  rintro - ⟨_, _⟩ ⟨vars, rfl, rfl⟩
  refine meets_read ?_
  refine meets_pure ⟨rfl, rfl, rfl, .intro { hv with } h.sound.upvalues fun f hf => ?_⟩
  exact (h.sound.functions f (Array.mem_toList_iff.mp hf)).1

lemma meets_closeFunction {outer : List Draft} (line : Int) (h : g.Ready m .plain)
    (hb : g.blocks = [b]) (hp : g.numParams.toNat ≤ g.maxStackSize)
    (ho : g.enclosing = d :: outer) :
    Meets lax g (closeFunction line) fun f g' => g' = ⟨d, outer⟩ ∧ f.AllVerified ∧
      f.source = g.source ∧ f.upvalues = g.upvalues.toList := by
  refine (meets_finish line h hb hp).bind ?_
  rintro - g' ⟨hg', hu, hs, hf⟩
  unfold Meets
  simp only [hg', ho, true_and]
  exact ⟨hf, hs, congrArg Array.toList hu⟩

def BodySound (lax : Prop) (body : Gen Unit) : Prop :=
  ∀ g : Generator, g.Rests g → Meets lax g body fun _ => g.Rests

end Gen

lemma Draft.new_sound (source : ChunkName) (numParams : UInt8) (isVararg : Bool)
    (first last : Int) {upvalues : Array UpvalueDescriptor} (h : upvalues.size ≤ maxUpvalues) :
    ((new source numParams isVararg first last upvalues).enterBlock false).Sound where
  coded := ⟨by simp [new, enterBlock], by simp [new, enterBlock], by simp [new, enterBlock]⟩
  lines := rfl
  top := Nat.zero_le _
  stack := by simp [new, enterBlock]
  released := rfl
  nested := ⟨.refl, .refl, .inl rfl, fun _ => rfl, rfl, rfl⟩
  breaks := by simp [new, enterBlock]
  slots := by simp [new, enterBlock]
  active := Nat.zero_le _
  upvalues := h
  constants := Nat.zero_le _
  functions := by simp [new, enterBlock]

lemma Generator.passes_new (source : ChunkName) (numParams : UInt8) (isVararg : Bool)
    (first last : Int) {upvalues : Array UpvalueDescriptor} {outer : List Draft}
    (h : upvalues.size ≤ maxUpvalues) (hc : Chained upvalues outer) :
    Generator.Passes 255 .plain 0
      ⟨(new source numParams isVararg first last upvalues).enterBlock false, outer⟩
      ⟨(new source numParams isVararg first last upvalues).enterBlock false, outer⟩ :=
  ⟨.refl (List.cons_ne_nil _ _),
    ⟨⟨new_sound source numParams isVararg first last h, hc, rfl, .refl⟩,
      by simp [Settled, new, enterBlock], .refl⟩, rfl⟩

namespace Generator

variable {g g0 : Generator} {m r : Nat} {l : Link}

lemma Reaches.pushFunction (h : g.Reaches m l r g0) {f : Prototype} (hf : f.AllVerified)
    (hs : f.source = g0.source) (hu : ∀ u ∈ f.upvalues, g0.Provides u) :
    g.Reaches m l r { g0 with toDraft :=
      { g0.toDraft with functions := g0.functions.push f } } := by
  have hle : g0.bounds.Le { g0.bounds with
      functions := (g0.functions.push f).size } :=
    ⟨.refl, .refl, .refl, by simp [bounds]⟩
  have hd := h.ready
  refine ⟨{ h.toAlters with frame := ?_ }, { hd with sound := ?_ }, h.top⟩
  · have hfr : g0.Frame 255
        { g0.toDraft with functions := g0.functions.push f } :=
      { Frame.refl g0.toDraft with bounds := hle }
    exact Frame.trans h.frame hfr .refl
  · exact
      { hd.sound with
        coded := hd.sound.coded.mono hle
        functions := fun f' hf' => by
          rcases Array.mem_push.mp hf' with hf' | rfl
          · exact hd.sound.functions f' hf'
          · exact ⟨⟨hf, hs⟩, hu⟩ }

end Generator

namespace Gen

open Generator

variable {lax : Prop} {g g0 : Generator} {m r dst : Nat}

lemma meets_closure {body : Gen Unit} (hb : BodySound lax body) (span : Span)
    (params : List Ident) (isVararg : Bool) (h : g.Reaches m .plain r g0) (hds : dst < r) :
    Meets lax g0 (closure span params isVararg body dst) fun _ g' =>
      g.Reaches 255 .plain r g' ∧ 0 < g'.code.size := by
  refine meets_read ?_
  by_cases hm : maxBx < g0.functions.size
  · simp only [if_pos hm]
    exact meets_fail_bind nofun
  by_cases hp : maxVariables < params.length
  · simp only [if_neg hm, if_pos hp]
    exact meets_update_bind (meets_fail_bind nofun)
  simp only [if_neg hm, if_neg hp]
  refine meets_read ?_
  have hch : Chained #[] (g0.toDraft :: g0.enclosing) :=
    ⟨by simp, h.ready.sound, h.ready.top, h.ready.chained⟩
  have hne := passes_new g0.source params.length.toUInt8 isVararg span.start.line
    span.stop.line (Nat.zero_le _) hch
  refine Meets.bind (P := fun _ g' => ∃ b, g'.Passes 255 .plain 0 g' ∧ g'.blocks = [b] ∧
    g'.active.size = 0 ∧ g'.numParams = params.length.toUInt8 ∧
    g'.source = g0.source ∧
    g'.enclosing = g0.toDraft :: g0.enclosing) ⟨_, hne, rfl, rfl, rfl, rfl, rfl⟩ ?_
  rintro - g1 ⟨b, h1, hbl, ha, hnu, hso, hou⟩
  refine (meets_setPos h1.reaches span.start).bind fun _ g2 h2 => ?_
  refine (meets_declareAll g2 _).bind ?_
  rintro - _ ⟨d, rfl, hd⟩
  have hl : params.length = (params.map (·.name)).length := by simp
  rw [hl]
  refine (meets_reserve_declared (h1.step h2) hd).discard_bind ?_
  rintro - g3 ⟨h3, hac⟩
  have hsi : g3.active.size = params.length := by
    rw [hac, hd.size, h2.active, ha, hl, Nat.zero_add]
  simp only [maxVariables] at hp
  have hr : g1.Rests g3 := by
    rw [← hl, Nat.zero_add, ← hsi] at h3
    exact h3.mono (by omega)
  refine (hb g3 hr.restart).bind fun _ g4 hw4 => ?_
  have h4 := hr.trans hw4
  obtain ⟨b', hb'⟩ : ∃ b', g4.blocks = [b'] := by
    have hs := h4.shapes
    rw [hbl] at hs
    obtain ⟨b', hb', -⟩ := List.map_eq_singleton_iff.mp hs
    exact ⟨b', hb'⟩
  have hn4 : g4.numParams.toNat ≤ g4.maxStackSize := by
    rw [h4.frame.numParams, hnu, toNat_toUInt8 (by omega), ← hsi]
    exact Nat.le_trans hr.reaches.le_stack hw4.frame.bounds.stack
  have ht := h4.outer
  rw [hou] at ht
  obtain ⟨d', outer, hd', ho', ho⟩ := List.forall₂_cons_left_iff.mp ht
  refine (meets_closeFunction span.stop.line h4.ready hb' hn4 ho).bind ?_
  rintro f _ ⟨rfl, hf, hn, hu⟩
  have hc := h4.ready.chained
  rw [ho] at hc
  obtain ⟨hpr, hsound, -, hre⟩ := hc
  have hn' : f.source = d'.source := by
    rw [hn, h4.frame.source, hso, hd'.eq]
  have h5 := (h.touch hd' hsound ho' hre).pushFunction hf hn' (by
    rw [hu]
    exact fun u hme => hpr u (Array.mem_toList_iff.mp hme))
  have hco : d'.functions.size = g0.functions.size := by rw [hd'.eq]
  refine meets_update_bind ?_
  refine ((meets_setLine h5 span.stop.line).and (meets_update (Q := fun _ g' =>
    g'.functions = d'.functions.push f) rfl)).bind ?_
  rintro - g6 ⟨h6, hfu⟩
  have hs := h6.le_stack
  have hs' := h6.stack_le
  refine meets_read ?_
  have hi : g6.functions.size - 1 = g0.functions.size := by
    rw [hfu, Array.size_push, hco]
    rfl
  have hlt : g0.functions.size < g6.bounds.functions := by
    show _ < g6.functions.size
    rw [hfu, Array.size_push]
    omega
  rw [hi]
  refine (meets_emitABx .closure dst _ h6 rfl (by omega) (by omega) ?_ rfl).discard ?_
  · constructor <;> simp [hlt]
    omega
  · rintro - g7 ⟨h7, -, i, -, code, -, rfl⟩
    exact ⟨h7, by simp [emitted]⟩

end Gen

open Gen in
lemma ExprCode.ofFunction_sound {lax : Prop} {body : Gen Unit} (hb : BodySound lax body)
    (span : Span) (params : List Ident) (isVararg : Bool) :
    (ExprCode.ofFunction span params isVararg body).Sound lax where
  body _ _ _ _ _ _ fresh h hd :=
    (meets_closure hb span params isVararg h (hd.lt h.active_le)).mono fun _ _ h' =>
      h'.1.mono (level_le h fresh)
  branch := nofun
  results := nofun
  chain := nofun

end LuaBytecode
