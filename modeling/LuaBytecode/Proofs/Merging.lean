import LuaBytecode.Proofs.Closing.Compiled
import LuaBytecode.Proofs.Execution.Machine

namespace LuaBytecode

open Instruction

variable {i j : Instruction} {n : Nat}

namespace Draft

variable {d d' : Draft}

def EndsNil (d : Draft) : Prop :=
  d.Mergeable ∧ ∃ i, d.code[d.code.size - 1]? = some i ∧ i.op? = some .loadNil

lemma EndsNil.of_ops (h : d'.EndsNil) (hm : d'.Mergeable → d.Mergeable)
    (hs : d'.code.size = d.code.size) (hop : ∀ (pc : Nat) (i : Instruction), d.code[pc]? = some i →
      ∃ j, d'.code[pc]? = some j ∧ (j.op? = i.op? ∨ j.op? ≠ some .loadNil)) : d.EndsNil := by
  obtain ⟨hme, j, hj, hn⟩ := h
  rw [hs] at hj
  have hlt : d.code.size - 1 < d.code.size := by
    have := lt_size hj
    omega
  obtain ⟨j', hj', ho⟩ := hop _ _ (Array.getElem?_eq_getElem hlt)
  cases hj.symm.trans hj'
  exact ⟨hm hme, _, Array.getElem?_eq_getElem hlt,
    (ho.resolve_right fun hne => hne hn).symm.trans hn⟩

lemma EndsNil.congr (h : d'.EndsNil) (hc : d'.code = d.code) (hp : d'.pending = d.pending)
    (ht : d'.lastTarget = d.lastTarget) : d.EndsNil := by
  rwa [EndsNil, Mergeable, hc, hp, ht] at h

lemma not_endsNil_emit (h : d.emit i = .ok d') (hop : i.op? ≠ some .loadNil) : ¬ d'.EndsNil := by
  rintro ⟨-, j, hj, hn⟩
  rw [emit_size h, Nat.add_sub_cancel, emit_last h] at hj
  cases hj
  exact hop hn

lemma not_endsNil_target (h : d.lastTarget = d.code.size) : ¬ d.EndsNil :=
  fun hn => absurd hn.1.1 (by omega)

lemma not_endsNil_of_lastNil? (h : d.lastNil? = none) : ¬ d.EndsNil := by
  rintro ⟨⟨ht, hp⟩, i, hi, hop⟩
  rw [← Array.back?_eq_getElem?] at hi
  simp [lastNil?, ht, hp, hi, hop] at h

end Draft

lemma Remade.keepsOps {R : Nat → Instruction → Instruction → Prop} {jumps : List Nat}
    {code code' : Array Instruction} (h : Remade R jumps code code')
    (hR : ∀ pc i j, R pc i j → j.op? = i.op?) (pc : Nat) (i : Instruction)
    (hi : code[pc]? = some i) :
    ∃ j, code'[pc]? = some j ∧ (j.op? = i.op? ∨ j.op? ≠ some .loadNil) :=
  (h.exists_op? hR hi).imp fun _ h => ⟨h.1, .inl h.2⟩

lemma KeepsOps.isJump {code code' : Array Instruction} {pc : Nat} (h : KeepsOps code code')
    (hi : ∃ i, code[pc]? = some i ∧ i.isJump = true) :
    ∃ j, code'[pc]? = some j ∧ j.isJump = true := by
  obtain ⟨i, hi, hju⟩ := hi
  obtain ⟨j, hj, hop | hop⟩ := h pc i hi
  · exact ⟨j, hj, by rw [Instruction.isJump, hop]; exact hju⟩
  · simp [Instruction.isJump, hop, OpCode.isJump] at hju

lemma Regs.clear_union {ρ : Regs} {p q first last first' last' : Nat}
    (h : ∀ r, p ≤ r ∧ r ≤ q ↔ (first ≤ r ∧ r ≤ last) ∨ (first' ≤ r ∧ r ≤ last')) :
    ρ.clear p q = (ρ.clear first last).clear first' last' := by
  funext r
  have := h r
  simp only [clear]
  split_ifs <;> first | rfl | omega

namespace Gen

lemma meets_loadNil_of (first : Nat) {g : Generator} (hn : 0 < n) :
    Meets True g (loadNil first n) fun _ g' => g'.code.size = g.code.size + 1 ∨
      (g.EndsNil ∧ ∃ i j, g.code[g.code.size - 1]? = some i ∧ i.op? = some .loadNil ∧
        j.op? = some .loadNil ∧ g' = { g with code := widenLast g.code j } ∧
        ∀ r, j.argA ≤ r ∧ r ≤ j.argA + j.argB ↔
          (i.argA ≤ r ∧ r ≤ i.argA + i.argB) ∨ (first ≤ r ∧ r < first + n)) := by
  have hne : Meets True g (discard <| emitABC .loadNil first (n - 1) 0) fun _ g' =>
      g'.code.size = g.code.size + 1 :=
    (meets_emit_of fun _ _ _ h => Draft.emit_size h).discard fun _ _ h => h
  unfold Meets at hne ⊢
  rcases loadNil_cases first n g with heq | ⟨i, p, q, hm, hi, hop, hp, hq, hg, heq⟩
  · rw [heq]
    exact Meets.mono hne fun _ _ => .inl
  · rw [heq]
    cases hj : abc .loadNil p.toUInt8 (q - p) 0 with
    | error e => trivial
    | ok j =>
      have hx := isABC_of_abc hj
      have hlt := i.argA_lt
      rw [Array.back?_eq_getElem?] at hi
      refine .inr ⟨⟨hm, i, hi, hop⟩, i, j, hi, hop, hx.op, rfl, fun r => ?_⟩
      have := hg r
      rw [hx.argA, hx.argB, toNat_toUInt8 (by omega)]
      omega

end Gen

namespace Trace

namespace Layer

open Draft

variable {l l' : Layer} {k : Nat} {b : Block} {outer : List Block} {d d' : Draft}

/-- Control that leaves the first `k` instructions enters at `k`, and so does every jump back. -/
structure StaysBelow (l : Layer) (k : Nat) : Prop where
  code : ∀ (pc : Nat) (i : Instruction), l.code[pc]? = some i → pc < k → ¬ l.IsOpen pc →
    ∀ t ∈ i.successors pc, t ≤ k
  targets : ∀ t ∈ l.targets, t.pc ≤ k

structure Fenced (l : Layer) : Prop where
  size : l.StaysBelow l.code.size
  nil : l.EndsNil → l.StaysBelow (l.code.size - 1)
  jumps : ∀ pc, l.IsOpen pc → ∃ i, l.code[pc]? = some i ∧ i.isJump = true

lemma StaysBelow.advances (h : l.StaysBelow k)
    (ha : Advances l.IsOpen l'.IsOpen (· ≤ (n : Int)) l.code l'.code) (hkn : k ≤ n)
    (hnew : ∀ pc, k ≤ pc → pc < n → l.code.size ≤ pc) (ht : ∀ t ∈ l'.targets, t.pc ≤ n) :
    l'.StaysBelow n := by
  refine ⟨fun pc j hj hlt ho t hsu => ?_, ht⟩
  by_cases hpc : pc < l.code.size
  · obtain ⟨j', hj', hij⟩ := ha.altered pc _ (Array.getElem?_eq_getElem hpc)
    cases hj.symm.trans hj'
    rcases hij.flow with ⟨hif, hsub⟩ | ⟨-, hs⟩
    · have hk : pc < k := Decidable.byContradiction fun hk => by
        have := hnew pc (by omega) hlt
        omega
      have := h.code pc _ (Array.getElem?_eq_getElem hpc) hk (fun h => ho (hif.mpr h)) t (hsub hsu)
      omega
    · rcases hs t hsu with rfl | hs
      · omega
      · exact hs
  · exact (ha.added pc j hj (by omega)).2.resolve_left ho t hsu

lemma StaysBelow.congr (h : l.StaysBelow k) (hc : ∀ pc < k, l'.code[pc]? = l.code[pc]?)
    (ho : ∀ pc, l'.IsOpen pc ↔ l.IsOpen pc) (ht : l'.targets ⊆ l.targets) : l'.StaysBelow k :=
  ⟨fun pc j hj hlt hno => h.code pc j (hc pc hlt ▸ hj) hlt fun h => hno ((ho pc).mpr h),
    fun t htm => h.targets t (ht htm)⟩

lemma Fenced.congr (h : l.Fenced) (hc : l'.code = l.code) (hh : l'.held = l.held)
    (hp : l'.pending = l.pending) (hl : l'.lastTarget = l.lastTarget) (hb : l'.breaks = l.breaks)
    (ht : l'.targets ⊆ l.targets) : l'.Fenced := by
  have ho := isOpen_congr hh hp hb
  refine ⟨?_, fun hn => ?_, fun pc hpc => ?_⟩
  · rw [hc]
    exact h.size.congr (fun _ _ => by rw [hc]) ho ht
  · rw [hc]
    exact (h.nil (hn.congr hc hp hl)).congr (fun _ _ => by rw [hc]) ho ht
  · rw [hc]
    exact h.jumps pc ((ho pc).mp hpc)

lemma StaysBelow.emit (h : l.StaysBelow l.code.size) (he : l.emit i = .ok d) :
    StaysBelow { l with toDraft := d } l.code.size := by
  obtain ⟨code, hp, rfl⟩ := emit_ok he
  have hm : Moves (· ≤ (l.code.size : Int)) l _ := works_aimPending (Int.le_refl _) hp
  have h1 := h.advances hm.code .refl (fun _ h h' => by omega) h.targets
  refine h1.congr (fun pc hpc => ?_) (isOpen_congr rfl rfl rfl) fun _ h => h
  have hs : code.size = l.code.size := hp.size
  exact Array.getElem?_push_lt (hs ▸ hpc) |>.trans (Array.getElem?_eq_getElem (hs ▸ hpc)).symm

lemma Rescopes.fenced (h : l.Rescopes l') (hf : l.Fenced) : l'.Fenced := by
  cases h with
  | declare _ _ h =>
    rw [(declare_ok h).2]
    exact hf.congr rfl rfl rfl rfl rfl fun _ h => h
  | start _ _ _ _ _ _ _ _ _ h =>
    obtain ⟨slot, -, -, heq⟩ := startVariable_ok h
    rw [heq]
    exact hf.congr rfl rfl rfl rfl rfl fun _ h => h
  | enter => exact hf.congr rfl rfl rfl rfl rfl fun _ h => h

lemma Step.endsNil (h : l.Step l') (hn : l'.EndsNil) :
    (l'.code.size = l.code.size ∧ l.EndsNil ∧ l'.targets ⊆ l.targets) ∨
      ∃ i d, l.emit i = .ok d ∧ l' = { l with toDraft := d } := by
  cases h with
  | tune h => exact .inl ⟨by rw [h], hn.congr (by rw [h]) (by rw [h]) (by rw [h]), fun _ h => h⟩
  | label => exact absurd hn (not_endsNil_target rfl)
  | aim h => exact absurd hn (not_endsNil_of_lastNil? h)
  | rearrange _ ht => exact .inl ⟨rfl, hn, ht⟩
  | emit _ h => exact .inr ⟨_, _, h, rfl⟩
  | pair _ _ _ _ _ h' hni => exact absurd hn (not_endsNil_emit h' hni)
  | branch _ _ hj _ h' =>
    exact absurd hn (not_endsNil_emit h' (by simp [(op?_of_asbx hj).op]))
  | jump hj h => exact absurd hn (not_endsNil_emit h (by simp [(op?_of_asbx hj).op]))
  | loopJump hj _ h =>
    refine absurd hn (not_endsNil_emit h fun hop => ?_)
    simp [isJump, hop, OpCode.isJump] at hj
  | patchHere => exact absurd hn (not_endsNil_target rfl)
  | patchBack _ _ _ h =>
    obtain ⟨code, hp, rfl⟩ := fixJumps_ok h
    exact .inl ⟨hp.size, hn.of_ops (by rw [Mergeable, Mergeable, hp.size]; exact id) hp.size
      (hp.keepsOps fun _ _ _ => Aimed.op?_eq), fun _ h => h⟩
  | close _ _ h =>
    obtain ⟨code, hp, rfl⟩ := closeAll_ok h
    exact .inl ⟨hp.size, hn.of_ops (by rw [Mergeable, Mergeable, hp.size]; exact id) hp.size
      (hp.keepsOps fun _ _ _ => Shut.op?_eq), fun _ h => h⟩
  | @replace pc i j h _ _ _ hni =>
    refine .inl ⟨by simp, hn.of_ops (by simp [Mergeable]) (by simp) fun k old hk => ?_,
      fun _ h => h⟩
    dsimp only
    rw [getElem?_setIfInBounds_of_some h]
    split
    · next heq =>
      subst heq
      cases h.symm.trans hk
      exact ⟨j, rfl, hni⟩
    · exact ⟨old, hk, .inl rfl⟩
  | addBreak => exact .inl ⟨rfl, hn, fun _ h => h⟩
  | declare _ _ h =>
    have heq := (declare_ok h).2
    exact .inl ⟨by rw [heq], hn.congr (by rw [heq]) (by rw [heq]) (by rw [heq]), fun _ h => h⟩
  | start _ _ _ _ _ _ _ _ _ h =>
    obtain ⟨slot, -, -, heq⟩ := startVariable_ok h
    exact .inl ⟨by rw [heq], hn.congr (by rw [heq]) (by rw [heq]) (by rw [heq]), fun _ h => h⟩
  | enter => exact .inl ⟨rfl, hn, fun _ h => h⟩
  | find => exact .inl ⟨rfl, hn, fun _ h => h⟩

lemma Step.fenced (h : l.Step l') (hn : ∀ b ∈ l.blocks, b.numActive < 255) (hf : l.Fenced) :
    l'.Fenced := by
  have hsi := h.keepsOps.size_le
  have hall : Moves (· ≤ (l'.code.size : Int)) l l' ∨ _ := h.moves hn (fun _ _ _ ht => ht)
    fun t ht _ => by have := hf.size.targets t ht; omega
  rcases hall with hm | hr
  · refine ⟨?_, fun hni => ?_, fun pc hpc =>
      (hm.opened pc hpc).elim (fun ho => h.keepsOps.isJump (hf.jumps pc ho)) id⟩
    · refine hf.size.advances hm.code hsi (fun _ h _ => h) fun t ht => ?_
      rcases hm.targets t ht with ht | rfl
      · have := hf.size.targets t ht
        omega
      · exact hsi
    · rcases h.endsNil hni with ⟨hs, hni', hta⟩ | ⟨i, d, he, rfl⟩
      · have hb := hf.nil hni'
        have hst : Moves (· ≤ ((l.code.size - 1 : Nat) : Int)) l l' ∨ _ := h.moves hn (by omega)
          fun t ht _ => by have := hb.targets t ht; omega
        rcases hst with hm | hr
        · rw [hs]
          exact hb.advances hm.code .refl (fun _ h h' => by omega) fun t ht => hb.targets t (hta ht)
        · exact (hr.fenced hf).nil hni
      · dsimp only
        rw [emit_size he]
        exact hf.size.emit he
  · exact hr.fenced hf

lemma Steps.fenced (h : l.Steps l') (hs : l.Scoped) (hf : l.Fenced) : l'.Fenced ∧ l'.Scoped := by
  induction h with
  | refl => exact ⟨hf, hs⟩
  | tail _ hst ih =>
    exact ⟨hst.fenced (fun b hb => ih.2.numActive_lt hb) ih.1, (hst.scoped ih.2).1⟩

lemma Fenced.after {jumps : List Nat} (hf : l.Fenced) (he : Ends b outer jumps l.toDraft d')
    (hb : b.numActive < 255) : (l.after b.numActive d').Fenced := by
  have hs := he.code.size
  have ht : (l.after b.numActive d').targets ⊆ l.targets := fun t ht => (List.mem_filter.mp ht).1
  have hstay : ∀ k ≤ l.code.size, l.StaysBelow k → (l.after b.numActive d').StaysBelow k :=
    fun k hk h => h.advances (.shut he.code (isOpen_after he) hb) .refl (fun _ h h' => by omega)
      fun t htm => h.targets t (ht htm)
  refine ⟨?_, fun hn => ?_, fun pc hpc =>
    (KeepsOps.shut he.code).isJump (hf.jumps pc ((isOpen_after he pc).mp hpc))⟩
  · rw [show (l.after b.numActive d').code.size = l.code.size from hs]
    exact hstay _ .refl hf.size
  · rw [show (l.after b.numActive d').code.size = l.code.size from hs]
    refine hstay _ (Nat.sub_le _ _) (hf.nil ?_)
    refine EndsNil.of_ops hn ?_ hs (he.code.keepsOps fun _ _ _ => Shut.op?_eq)
    rintro ⟨hlt, hp⟩
    have hlt : d'.lastTarget < d'.code.size := hlt
    refine ⟨?_, List.eq_nil_iff_forall_not_mem.mpr fun pc hpc => ?_⟩
    · rcases he.lastTarget with h | h <;> omega
    · have := (he.pending pc).mpr (.inl hpc)
      rw [show d'.pending = [] from hp] at this
      cases this

lemma Fenced.leave (hf : l.Fenced) (hs : l.Scoped) (hn : l.Nests) (hb : l.blocks = b :: outer)
    (hle : l.Left b outer d') : (l.after b.numActive d').Fenced := by
  have hne := hn.nested
  rw [hb] at hne
  obtain ⟨d1, jumps, hsc, he⟩ := hle.ends hne
  have h1 := ((steps_scopeClosed hb hsc).fenced hs hf).1
  exact h1.after he (hs.numActive_lt (by simp [hb]))

lemma Fenced.closure (hf : l.Fenced) (hop : i.op? = some .closure) (he : l.emit i = .ok d) :
    Fenced { l with toDraft := d } := by
  have hsi := emit_size he
  have h := hf.size.emit he
  refine ⟨⟨fun pc j hj hlt ho t ht => ?_, fun t ht => ?_⟩, fun hn =>
    absurd hn (not_endsNil_emit he (by simp [hop])), fun pc hpc => ?_⟩
  · dsimp only at hlt hj ⊢
    rcases Nat.lt_or_eq_of_le (Nat.le_of_lt_succ (hsi ▸ hlt)) with hlt | rfl
    · have := h.code pc j hj hlt ho t ht
      omega
    · cases hj.symm.trans (emit_last he)
      simp [successors, hop] at ht
      omega
  · have := h.targets t ht
    dsimp only
    omega
  · refine (emit_keepsOps he).isJump (hf.jumps pc (.inr ?_))
    obtain ⟨code, -, rfl⟩ := emit_ok he
    exact hpc.resolve_left (by simp [emitted])

lemma Waits.fenced (h : l.Waits l') (hf : l.Fenced) : l'.Fenced := by
  have heq := h.draft.eq
  refine hf.congr (by rw [heq]) h.held (by rw [heq]) (by rw [heq]) (by rw [heq]) ?_
  rw [h.targets]
  exact fun _ h => h

lemma fenced_new (source : ChunkName) (n : UInt8) (isVararg : Bool) (first last : Int)
    (upvalues : Array UpvalueDescriptor) : Fenced
      ⟨(Draft.new source n isVararg first last upvalues).enterBlock false, [], [], none⟩ := by
  refine ⟨⟨?_, by simp⟩, fun hn => ⟨?_, by simp⟩, ?_⟩ <;>
    simp [IsOpen, IsBound, Draft.new, Draft.enterBlock]

end Layer

namespace State

open Layer

variable {s s' : State} {source : ChunkName}

lemma Step.fenced (h : s.Step s') (hs : s.Sound)
    (hf : ∀ l ∈ s.layers, l.code.size < 2 ^ 63 → l.Fenced) :
    ∀ l ∈ s'.layers, l.code.size < 2 ^ 63 → l.Fenced := by
  have hsc := hs.linked.head
  obtain ⟨hg, -⟩ := List.forall_mem_cons.mp hs.guarded
  obtain ⟨hc, hcs⟩ := List.forall_mem_cons.mp hf
  cases h with
  | inside h =>
    refine List.forall_mem_cons.mpr ⟨fun hco => ?_, hcs⟩
    exact h.fenced (fun b hb => hsc.numActive_lt hb)
      (hc (Nat.lt_of_le_of_lt h.keepsOps.size_le hco))
  | leave hbl _ h _ =>
    obtain ⟨-, hle⟩ := Gen.leaveBlock_ok hbl h
    refine List.forall_mem_cons.mpr ⟨fun hco => ?_, hcs⟩
    have hco := Nat.lt_of_le_of_lt hle.keepsOps.size_le hco
    exact (hc hco).leave hsc (hg hco).nests hbl hle
  | @finish g b i d hbl hh hop hem h =>
    have hst : s.toLayer.Step { s.toLayer with toDraft := d } :=
      .emit (isPlain_of_op hop fun _ => rfl) hem
    have hb : d.blocks = [b] := by
      rw [Draft.emit_sameScope hem]
      exact hbl
    obtain ⟨-, hle⟩ := Gen.leaveBlock_ok hb h
    refine List.forall_mem_cons.mpr ⟨fun hco => ?_, hcs⟩
    have hco := Nat.lt_of_le_of_lt hst.keepsOps.size_le
      (Nat.lt_of_le_of_lt hle.keepsOps.size_le hco)
    have h1 := hst.fenced (fun b hb => hsc.numActive_lt hb) (hc hco)
    have h2 := h1.leave (hst.scoped hsc).1 (hst.guarded hsc hco (hg hco)).nests hb hle
    exact h2.congr rfl (by simp [Layer.after, hh]) rfl rfl rfl (by simp)
  | @resolve g _ _ hn h =>
    intro l' hl' hco
    obtain ⟨k, hk, rfl⟩ := List.mem_iff_getElem.mp hl'
    have hw := waits_withDrafts h
    have hlt : k < s.layers.length := hw.length_eq ▸ hk
    have hwa := hw.get hlt hk
    have hsi : ((s.withDrafts g).layers.get ⟨k, hk⟩).code.size =
        (s.layers.get ⟨k, hlt⟩).code.size := by rw [hwa.draft.eq]
    exact hwa.fenced (hf _ (List.get_mem _ _) (hsi ▸ hco))
  | openFunction source numParams isVararg first last =>
    exact List.forall_mem_cons.mpr
      ⟨fun _ => fenced_new source numParams isVararg first last #[], hf⟩
  | @closeFunction l rest line i d he _ _ _ hop _ h =>
    rw [he] at hcs
    obtain ⟨hl, hr⟩ := List.forall_mem_cons.mp hcs
    refine List.forall_mem_cons.mpr ⟨fun hco => ?_, hr⟩
    have hsi := Draft.emit_size h
    dsimp only at hsi hco
    have h1 : Fenced { l with toDraft := { l.toDraft with
        functions := l.functions.push s.prototype, line } } :=
      (hl (by omega)).congr rfl rfl rfl rfl rfl fun _ h => h
    exact h1.closure hop h

lemma Reachable.fenced (h : State.Reachable source s) :
    ∀ l ∈ s.layers, l.code.size < 2 ^ 63 → l.Fenced := by
  induction h with
  | refl => simp [layers, start, Generator.start, fenced_new]
  | tail hr hst ih => exact hst.fenced (Reachable.sound hr) ih

end State

/-- A `LOADNIL` that widens the last instruction clears what the two would clear one after the
other, and nothing that is placed already leads between them: no jump that has its target, no
conditional skip, no jump that waits for the next instruction and no start of a loop. Code is
generated in such states only. -/
theorem loadNil_widens {source : ChunkName} {s : State} (h : State.Reachable source s)
    (hcode : s.code.size < 2 ^ 63) :
    (∀ first n g, 0 < n → Gen.loadNil first n s.generator = .ok ((), g) →
      g.code.size = s.code.size →
      (∃ i j, s.code[s.code.size - 1]? = some i ∧ i.op? = some .loadNil ∧
        j.op? = some .loadNil ∧ g = { s.generator with code := widenLast s.code j } ∧
        (∀ r, j.argA ≤ r ∧ r ≤ j.argA + j.argB ↔
          (i.argA ≤ r ∧ r ≤ i.argA + i.argB) ∨ (first ≤ r ∧ r < first + n)) ∧
        ∀ ρ : Regs, ρ.clear j.argA (j.argA + j.argB) =
          (ρ.clear i.argA (i.argA + i.argB)).clear first (first + n - 1)) ∧
      (∀ pc k, s.code[pc]? = some k → (k.isJump = true → ¬ s.IsOpen pc) →
        (s.code.size : Int) ∈ k.successors pc → pc + 1 = s.code.size) ∧
      s.pending = [] ∧ ∀ m ∈ s.targets, m.pc < s.code.size) ∧
    (∀ (body : List Stmt) g, Stmt.AllWellFormed body → s.shape.Open →
      Stmt.codeAll body s.generator = .ok ((), g) →
        ∃ s', State.Reachable source s' ∧ s'.generator = g ∧ s'.shape.Open) ∧
    (∀ (e : Expr) dst fresh g, e.WellFormed → e.code.toReg dst fresh s.generator = .ok ((), g) →
      ∃ s', State.Reachable source s' ∧ s'.generator = g) ∧ s.GoesOn source := by
  refine ⟨fun first n g hn hrun hsize => ?_, fun body g hbody hopen => h.codeAll hbody hopen,
    fun e dst fresh g he hrun => h.goesOn.1 _ () g (.value he dst fresh) hrun, h.goesOn⟩
  have hfenced := h.fenced s.toLayer List.mem_cons_self hcode
  have hmeets := Gen.meets_loadNil_of first (g := s.generator) hn
  rw [Gen.Meets, hrun] at hmeets
  have hgrown : g.code.size ≠ s.generator.code.size + 1 := fun heq => by
    have := hsize.symm.trans heq
    exact absurd this (Nat.ne_of_lt (Nat.lt_succ_self _))
  obtain ⟨hend, i, j, hi, hop, hop', rfl, hranges⟩ := hmeets.resolve_left hgrown
  have hbelow := hfenced.nil hend
  have hpos : 0 < s.code.size := Nat.lt_of_le_of_lt (Nat.zero_le _) (lt_size hi)
  refine ⟨⟨i, j, hi, hop, hop', rfl, hranges, fun ρ => Regs.clear_union fun r => ?_⟩,
    fun pc k hk hopen hmem => ?_, hend.1.2, fun m hm => ?_⟩
  · have := hranges r
    omega
  · have hnot : ¬ s.IsOpen pc := fun ho => by
      obtain ⟨k', hk', hjump⟩ := hfenced.jumps pc ho
      cases hk.symm.trans hk'
      exact hopen hjump ho
    have hlt := lt_size hk
    refine Decidable.byContradiction fun hne => ?_
    have := hbelow.code pc k hk (by omega) hnot _ hmem
    omega
  · have := hbelow.targets m hm
    omega

def nilLayer (i : Instruction) : Layer :=
  ⟨{ (Generator.start "=nil").toDraft with code := #[i], lineInfo := #[1] }, [], [], none⟩

lemma nilLayer_reachable : State.Reachable "=nil" ⟨nilLayer ⟨4⟩, []⟩ := by
  have he : (State.start "=nil").emit ⟨4⟩ = .ok (nilLayer ⟨4⟩).toDraft := rfl
  exact .single (.inside (.emit rfl he))

theorem loadNil_widens_one : Gen.loadNil 1 1 (State.generator ⟨nilLayer ⟨4⟩, []⟩) =
      .ok ((), State.generator ⟨nilLayer ⟨8388612⟩, []⟩) ∧
    ∃ j, (nilLayer ⟨8388612⟩).code[0]? = some j ∧
      ∀ r, j.argA ≤ r ∧ r ≤ j.argA + j.argB ↔ r = 0 ∨ r = 1 := by
  have hrun : Gen.loadNil 1 1 (State.generator ⟨nilLayer ⟨4⟩, []⟩) =
      .ok ((), State.generator ⟨nilLayer ⟨8388612⟩, []⟩) := rfl
  obtain ⟨⟨i, j, hi, -, -, hg, hr, -⟩, -⟩ :=
    (loadNil_widens nilLayer_reachable (by decide)).1 1 1 _ Nat.one_pos hrun rfl
  obtain rfl : i = ⟨4⟩ := Option.some.inj hi.symm
  refine ⟨hrun, j, congrArg (·.code[0]?) hg, fun r => (hr r).trans ?_⟩
  change (0 ≤ r ∧ r ≤ 0 + 0) ∨ _ ↔ _
  omega

end Trace

end LuaBytecode
