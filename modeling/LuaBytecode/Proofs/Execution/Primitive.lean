import LuaBytecode.Proofs.Execution.Machine
import LuaBytecode.Proofs.Generator.Primitive

namespace LuaBytecode

open Generator

variable {i j : Instruction} {ops : Operators} {f : Prototype} {H' : Nat → Prop} {ρ : Regs}
  {js : List Nat} {T pc k : Nat} {m : Machine} {taken : Bool} {op : OpCode} {g' g : Generator}

namespace Prototype

variable {n : Nat}

def Target (f : Prototype) (T pc : Nat) : Prop :=
  ∃ i, f.code[pc]? = some i ∧ (pc : Int) + 1 + i.argSBx = T

def JumpsTo (f : Prototype) (T pc : Nat) : Prop :=
  ∃ i, f.code[pc]? = some i ∧ i.op? = some .jmp ∧ (pc : Int) + 1 + i.argSBx = T

def Leads (f : Prototype) (n T : Nat) : Prop := T = n ∨ f.JumpsTo T n

lemma JumpsTo.step (h : f.JumpsTo T n) (ρ : Regs) : Machine.Step ops f ⟨n, ρ⟩ ⟨T, ρ⟩ := by
  obtain ⟨i, hi, hop, ht⟩ := h
  have hT : ((n : Int) + 1 + i.argSBx).toNat? = some T := by rw [ht]; rfl
  exact Machine.step_of hi hop (by simp [Machine.execute, Machine.jump, hT])

end Prototype

namespace Draft

variable {d d' : Draft} {H : Nat → Prop} {n : Nat}

structure Settles (H : Nat → Prop) (f : Prototype) (d : Draft) : Prop where
  code : ∀ (pc : Nat) (i : Instruction), d.code[pc]? = some i → ¬ H pc → pc ∉ d.pending →
    f.code[pc]? = some i ∨
      (pc + 1 = d.code.size ∧ d.Mergeable ∧ ∃ j, f.code[pc]? = some j ∧ i.WidensTo j)
  jumps : ∀ pc, Closable d.code 0 pc → ∃ i, f.code[pc]? = some i ∧ i.op? = some .jmp
  constants : ∀ (k : Nat) (v : Value), d.constants.values[k]? = some v → f.constants[k]? = some v
  lands : ∃ T, f.Leads d.code.size T ∧ ∀ pc ∈ d.pending, f.Target T pc

def Apart (H : Nat → Prop) (d : Draft) : Prop :=
  ∀ pc, H pc → (∃ i, d.code[pc]? = some i ∧ i.isJump = true) ∧ pc ∉ d.pending

def Pends (d : Draft) : Prop := ∀ pc ∈ d.pending, ∃ i, d.code[pc]? = some i ∧ i.isJump = true

lemma Settled.pends (h : d.Settled n) : d.Pends := fun pc hpc => (h pc hpc).isJump

lemma Apart.not_size (h : Apart H d) : ¬ H d.code.size := by
  intro hx
  obtain ⟨⟨i, hi, -⟩, -⟩ := h _ hx
  have := lt_size hi
  omega

lemma Apart.not_plain (h : Apart H d) (hi : d.code[pc]? = some i) (hj : i.isJump = false) :
    ¬ H pc := by
  intro hx
  obtain ⟨⟨j, hj', hju⟩, -⟩ := h _ hx
  cases hi.symm.trans hj'
  rw [hj] at hju
  cases hju

lemma Pends.not_plain (h : d.Pends) (hi : d.code[pc]? = some i) (hj : i.isJump = false) :
    pc ∉ d.pending := by
  intro hx
  obtain ⟨j, hj', hju⟩ := h _ hx
  cases hi.symm.trans hj'
  rw [hj] at hju
  cases hju

lemma Apart.frame (h : Apart H d) (hf : d.Frame n d') : Apart H d' := by
  intro pc hpc
  obtain ⟨⟨i, hi, hj⟩, hp⟩ := h pc hpc
  have hlt := lt_size hi
  refine ⟨⟨i, hf.kept hi hp ?_, hj⟩, fun hp' => ?_⟩
  · intro hop
    simp [Instruction.isJump_of_op hop, OpCode.isJump] at hj
  · rcases hf.pending pc hp' with hp' | hle
    · exact hp hp'
    · omega

lemma Apart.not_loose (h : Apart H d) (hpc : H pc) : ¬ d.Loose pc := by
  obtain ⟨⟨i, hi, -⟩, hp⟩ := h pc hpc
  have hlt := lt_size hi
  rintro (hl | hl)
  · exact hp hl
  · omega

lemma Apart.or (h : Apart H d) (h' : Apart H' d) : Apart (fun pc => H pc ∨ H' pc) d :=
  fun pc hpc => hpc.elim (h pc) (h' pc)

structure Opens (d d' : Draft) (js : List Nat) : Prop where
  apart : Apart (· ∈ js) d'
  loose : ∀ pc ∈ js, d.Loose pc

section Opens

variable {d'' : Draft} {js' : List Nat}

lemma Opens.nil : Opens d d' [] := ⟨by simp [Apart], by simp⟩

lemma Holds.opens (h : Holds n d d' js) : Opens d d' js :=
  ⟨fun pc hpc => ⟨(h.closable pc hpc).isJump, h.apart pc hpc⟩, h.loose⟩

lemma opens_append : Opens d d' (js ++ js') ↔ Opens d d' js ∧ Opens d d' js' := by
  refine ⟨fun h => ⟨⟨fun pc hpc => ?_, fun pc hpc => ?_⟩, fun pc hpc => ?_, fun pc hpc => ?_⟩,
    fun h => ⟨fun pc hpc => ?_, fun pc hpc => ?_⟩⟩
  · exact h.apart pc (List.mem_append_left _ hpc)
  · exact h.loose pc (List.mem_append_left _ hpc)
  · exact h.apart pc (List.mem_append_right _ hpc)
  · exact h.loose pc (List.mem_append_right _ hpc)
  · exact (List.mem_append.mp hpc).elim (h.1.apart pc) (h.2.apart pc)
  · exact (List.mem_append.mp hpc).elim (h.1.loose pc) (h.2.loose pc)

lemma Opens.frame (h : Opens d d' js) (hf : d'.Frame n d'') : Opens d d'' js :=
  ⟨h.apart.frame hf, h.loose⟩

lemma Opens.since (h : Opens d' d'' js) (hf : d.Frame n d') : Opens d d'' js :=
  ⟨h.apart, fun pc hpc => hf.loose (h.loose pc hpc)⟩

lemma Opens.patchToHere (h : Opens d d' js) (hd : ∀ pc ∈ js', pc ∉ js) :
    Opens d (d'.patchToHere js') js :=
  ⟨fun pc hpc => ⟨(h.apart pc hpc).1, fun hp =>
    (List.mem_append.mp hp).elim (h.apart pc hpc).2 fun hp => hd pc hp hpc⟩, h.loose⟩

lemma Opens.disjoint (h : Opens d d' js) (h' : Opens d' d'' js') : ∀ pc ∈ js, pc ∉ js' :=
  fun pc hpc hpc' => h.apart.not_loose hpc (h'.loose pc hpc')

end Opens

lemma Settles.back (h : d'.Settles H' f) (hf : d.Frame n d') (hH : ∀ pc, H' pc → H pc ∨ d.Loose pc)
    (hl : ∃ T, f.Leads d.code.size T ∧ ∀ pc ∈ d.pending, f.Target T pc) :
    d.Settles H f where
  code pc i hi hpc hp := by
    have hlt := lt_size hi
    have hlo : ¬ d.Loose pc := by
      rintro (hl | hl)
      · exact hp hl
      · omega
    have hH' : ¬ H' pc := fun hx => (hH pc hx).elim hpc hlo
    have hp' : pc ∉ d'.pending := fun hx => hlo (hf.loose (.inl hx))
    rcases hf.code pc i hi hp with hi' | ⟨hpc', hm, j, hj, hw⟩
    · rcases h.code pc i hi' hH' hp' with hk | ⟨hpc', hm, hj⟩
      · exact .inl hk
      · have hs : d'.code.size = d.code.size := by have := hf.size; omega
        exact .inr ⟨by omega, hf.mergeable hs hm, hj⟩
    · rcases h.code pc j hj hH' hp' with hk | ⟨-, -, k, hk, hw'⟩
      · exact .inr ⟨hpc', hm, j, hk, hw⟩
      · exact .inr ⟨hpc', hm, k, hk, hw.trans hw'⟩
  jumps pc hc := h.jumps pc (hf.closable 0 pc (Nat.zero_le _) hc)
  constants k v hv := h.constants k v (hf.constants k v hv)
  lands := hl

inductive Ahead (f : Prototype) (d : Draft) (ρ ρ' : Regs) : Prop
  | same (h : d.lastNil? = none) (heq : ρ' = ρ)
  | cleared {first last : Nat} {j : Instruction} (h : d.lastNil? = some (first, last))
      (hnil : ∀ k, first ≤ k → k ≤ last → ρ k = .nil)
      (hj : f.code[d.code.size - 1]? = some j) (heq : ρ' = ρ.clear j.argA (j.argA + j.argB))

structure At (f : Prototype) (d : Draft) (ρ : Regs) (m : Machine) : Prop where
  pc : m.pc = d.code.size
  registers : d.Ahead f ρ m.registers

lemma at_of_lastNil? (h : d.lastNil? = none) (ρ : Regs) : d.At f ρ ⟨d.code.size, ρ⟩ :=
  ⟨rfl, .same h rfl⟩

lemma At.eq (h : d.At f ρ m) (hk : ∀ i, d.code[d.code.size - 1]? = some i → i.op? = some .loadNil →
      f.code[d.code.size - 1]? = some i) : m = ⟨d.code.size, ρ⟩ := by
  obtain ⟨pc, ρ'⟩ := m
  obtain ⟨rfl, ha⟩ := h
  have heq : ρ' = ρ := by
    cases ha with
    | same _ heq => exact heq
    | cleared hl hn hj heq =>
      obtain ⟨-, i, hi, hop, rfl, rfl⟩ := lastNil?_eq_some hl
      cases hj.symm.trans (hk i hi hop)
      exact heq.trans (Regs.clear_eq_self hn)
  rw [heq]

end Draft

namespace Machine

open Draft

variable {m' : Machine} {d d' : Draft} {ρ' : Regs} {values : List Value}

inductive Arrives (ops : Operators) (f : Prototype) (m : Machine) (d : Draft) (ρ : Regs) : Prop
  | falls {m' : Machine} (hr : m.Runs ops f m') (ha : d.At f ρ m')
  | jumps {T : Nat} {ρ' : Regs} (hj : f.JumpsTo T d.code.size)
      (hr : m.Moves ops f ⟨T, ρ'⟩) (ha : d.Ahead f ρ ρ')

lemma Arrives.of_runs (hr : m.Runs ops f m') (h : m'.Arrives ops f d ρ) :
    m.Arrives ops f d ρ := by
  cases h with
  | falls hr' ha => exact .falls (hr.trans hr') ha
  | jumps hj hr' ha => exact .jumps hj (hr'.trans_right hr) ha

section

variable (h : m.Arrives ops f d ρ)
include h

lemma Arrives.cases : ∃ m', d.At f ρ m' ∧
    (m.Runs ops f m' ∨ ∃ m'', m'.Step ops f m'' ∧ m.Moves ops f m'' ∧
      f.JumpsTo m''.pc d.code.size ∧ m''.registers = m'.registers) := by
  cases h with
  | falls hr ha => exact ⟨_, ha, .inl hr⟩
  | @jumps T ρ' hj hr ha =>
    exact ⟨⟨d.code.size, ρ'⟩, ⟨rfl, ha⟩, .inr ⟨⟨T, ρ'⟩, hj.step ρ', hr, hj, rfl⟩⟩

lemma Arrives.trans (h' : ∀ m', d.At f ρ m' → m'.Arrives ops f d' ρ') : m.Arrives ops f d' ρ' := by
  obtain ⟨m', ha, hr | ⟨⟨T, ρ1⟩, hs, hr, hj, rfl⟩⟩ := h.cases
  · exact (h' m' ha).of_runs hr
  · cases h' m' ha with
    | @falls m1 hr1 ha1 =>
      rcases Relation.ReflTransGen.cases_head hr1 with rfl | ⟨m2, h2, hre⟩
      · have hsi : d'.code.size = d.code.size := ha1.pc.symm.trans ha.pc
        exact .jumps (by rw [hsi]; exact hj) hr ha1.registers
      · cases hs.unique h2
        exact .falls (hr.to_reflTransGen.trans hre) ha1
    | jumps hj1 hr1 ha1 => exact .jumps hj1 (hr.trans_left (hr1.tail_of_step hs)) ha1

lemma Arrives.moves (h' : ∀ m1, d.At f ρ m1 → m1.Moves ops f m') : m.Moves ops f m' := by
  obtain ⟨m1, ha, hr | ⟨m2, hs, hr, -⟩⟩ := h.cases
  · exact (h' m1 ha).trans_right hr
  · exact hr.trans_left ((h' m1 ha).tail_of_step hs)

lemma Arrives.returns
    (h' : ∀ m1, d.At f ρ m1 → m1.Returns ops f values) : m.Returns ops f values := by
  obtain ⟨m1, ha, hr | ⟨m2, hs, hr, -⟩⟩ := h.cases
  · exact .of_runs hr (h' m1 ha)
  · exact .of_runs hr.to_reflTransGen ((h' m1 ha).step hs)

lemma Arrives.terminates (ht : m.Terminates ops f) : ∃ m1, d.At f ρ m1 ∧ m1.Terminates ops f := by
  obtain ⟨m1, ha, hr | ⟨m2, hs, hr, -⟩⟩ := h.cases
  · exact ⟨m1, ha, ht.runs hr⟩
  · exact ⟨m1, ha, (ht.runs hr.to_reflTransGen).of_step hs⟩

end

lemma Moves.arrives (h : m.Moves ops f ⟨T, ρ⟩) (hT : f.Leads d.code.size T)
    (hd : d.lastNil? = none) : m.Arrives ops f d ρ := by
  rcases hT with rfl | hj
  · exact .falls h.to_reflTransGen (at_of_lastNil? hd ρ)
  · exact .jumps hj h (.same hd rfl)

end Machine

abbrev Aims := List (Nat × Nat)

def aim (js : List Nat) (T : Nat) : Aims := js.map (·, T)

def Aims.places (o : Aims) : List Nat := o.map Prod.fst

@[simp] lemma places_aim (js : List Nat) (T : Nat) : (aim js T).places = js := by
  simp [Aims.places, aim, Function.comp_def]

@[simp] lemma places_nil : Aims.places [] = [] := rfl

@[simp] lemma places_append (o o' : Aims) : Aims.places (o ++ o') = o.places ++ o'.places :=
  List.map_append

@[simp] lemma aim_nil (T : Nat) : aim [] T = [] := rfl

@[simp] lemma aim_append (js js' : List Nat) (T : Nat) :
    aim (js ++ js') T = aim js T ++ aim js' T := List.map_append

lemma forall_mem_aim : (∀ p ∈ aim js T, f.Target p.2 p.1) ↔ ∀ pc ∈ js, f.Target T pc := by
  simp [aim]

namespace Draft

variable {d d' d'' : Draft} {H : Nat → Prop} {n : Nat} {o o' : Aims} {P Q : Prop} {ρ' ρ'' : Regs}

def Goes (ops : Operators) (f : Prototype) (d : Draft) (ρ : Regs) (d' : Draft) (ρ' : Regs) : Prop :=
  ∀ m, d.At f ρ m → m.Arrives ops f d' ρ'

lemma Goes.trans (h : d.Goes ops f ρ d' ρ') (h' : d'.Goes ops f ρ' d'' ρ'') :
    d.Goes ops f ρ d'' ρ'' := fun m hm => (h m hm).trans h'

def Simulates (f : Prototype) (o : Aims) (d d' : Draft) (P : Prop) : Prop :=
  ∀ H : Nat → Prop, Apart H d → d'.Settles (fun pc => H pc ∨ pc ∈ o.places) f →
    (∀ p ∈ o, f.Target p.2 p.1) → d.Settles H f ∧ P

lemma Settles.congr (h : d.Settles H f) (hH : ∀ pc, H' pc ↔ H pc) : d.Settles H' f := by
  rw [show H' = H from funext fun pc => propext (hH pc)]
  exact h

lemma Settles.nil (h : d.Settles (fun pc => H pc ∨ pc ∈ []) f) : d.Settles H f := h.congr (by simp)

lemma Frame.weaken (h : d.Frame n d') : d.Frame 0 d' :=
  { h with closable := fun m pc hm => h.closable m pc (by omega) }

structure Traces (f : Prototype) (o : Aims) (d d' : Draft) (P : Prop) : Prop where
  frame : d.Frame 0 d'
  opens : Opens d d' o.places
  simulates : d.Simulates f o d' P

lemma Traces.mono (h : d.Traces f o d' P) (hPQ : P → Q) : d.Traces f o d' Q :=
  { h with simulates := fun H hH hs ht => (h.simulates H hH hs ht).imp_right hPQ }

lemma traces_refl (hP : P) : d.Traces f [] d P := ⟨.refl d, .nil, fun _ _ hs _ => ⟨hs.nil, hP⟩⟩

lemma Traces.reorder (h : d.Traces f o d' P) (ho : ∀ p, p ∈ o' ↔ p ∈ o) :
    d.Traces f o' d' P := by
  have hpl : ∀ pc, pc ∈ o'.places ↔ pc ∈ o.places := by simp [Aims.places, ho]
  refine ⟨h.frame, ⟨fun pc hpc => ?_, fun pc hpc => ?_⟩, fun H hH hs ht => ?_⟩
  · exact h.opens.apart pc ((hpl pc).mp hpc)
  · exact h.opens.loose pc ((hpl pc).mp hpc)
  · exact h.simulates H hH (hs.congr fun pc => by rw [hpl]) fun p hp => ht p ((ho p).mpr hp)

lemma Traces.bind (h : d.Traces f o d' P) (h' : d'.Traces f o' d'' Q) :
    d.Traces f (o ++ o') d'' (P ∧ Q) where
  frame := h.frame.trans h'.frame .refl
  opens := by
    rw [places_append, opens_append]
    exact ⟨h.opens.frame h'.frame, h'.opens.since h.frame⟩
  simulates H hH hs ht := by
    simp only [places_append, List.mem_append, ← or_assoc] at hs
    obtain ⟨hs', hQ⟩ := h'.simulates _ ((hH.frame h.frame).or h.opens.apart) hs
      fun p hp => ht p (List.mem_append_right _ hp)
    obtain ⟨hs0, hP⟩ := h.simulates H hH hs' fun p hp => ht p (List.mem_append_left _ hp)
    exact ⟨hs0, hP, hQ⟩

end Draft

namespace Draft

variable {d d' : Draft} {H : Nat → Prop} {n : Nat} {ρ' : Regs}

lemma lastNil?_congr (hc : d'.code = d.code) (hp : d'.pending = d.pending)
    (ht : d'.lastTarget = d.lastTarget) : d'.lastNil? = d.lastNil? := by
  rw [lastNil?, lastNil?, hc, hp, ht]

lemma Ahead.congr (h : d.Ahead f ρ ρ') (hs : d'.code.size = d.code.size)
    (hl : d'.lastNil? = d.lastNil?) : d'.Ahead f ρ ρ' := by
  cases h with
  | same hn heq => exact .same (hl.trans hn) heq
  | cleared hn hni hj heq => exact .cleared (hl.trans hn) hni (by rw [hs]; exact hj) heq

lemma goes_congr (hs : d'.code.size = d.code.size) (hl : d'.lastNil? = d.lastNil?)
    (ρ : Regs) : d.Goes ops f ρ d' ρ :=
  fun _ hm => .falls .refl ⟨hm.pc.trans hs.symm, hm.registers.congr hs hl⟩

lemma lastNil?_eq_none_of_not_mergeable (h : ¬ d.Mergeable) : d.lastNil? = none := by
  cases hn : d.lastNil? with
  | none => rfl
  | some range => exact absurd (lastNil?_eq_some hn).1 h

lemma lastNil?_eq_none_of_last (hi : d.code[d.code.size - 1]? = some i)
    (hop : i.op? ≠ some .loadNil) : d.lastNil? = none := by
  cases hn : d.lastNil? with
  | none => rfl
  | some range =>
    obtain ⟨-, j, hj, hjo, -⟩ := lastNil?_eq_some hn
    cases hi.symm.trans hj
    exact absurd hjo hop

lemma lastNil?_of_mergeable (h : d.Mergeable) (hi : d.code[d.code.size - 1]? = some i)
    (hop : i.op? = some .loadNil) :
    d.lastNil? = some (i.argA, i.argA + i.argB) := by
  rw [← Array.back?_eq_getElem?] at hi
  rw [lastNil?]
  simp [h.1, h.2, hi, hop]

lemma not_mergeable_label : ¬ (d.label).Mergeable := by
  rintro ⟨hlt, -⟩
  exact absurd hlt (Nat.lt_irrefl _)

lemma isJump_of_loadNil (h : i.op? = some .loadNil) : i.isJump = false := by
  rw [Instruction.isJump_of_op h]
  rfl

lemma Settles.settled (h : d.Settles H f) (hH : Apart H d) (hp : d.Pends)
    (hi : d.code[pc]? = some i) (hj : i.isJump = false)
    (hl : pc + 1 < d.code.size ∨ ¬ d.Mergeable) : f.code[pc]? = some i := by
  rcases h.code pc i hi (hH.not_plain hi hj) (hp.not_plain hi hj) with hk | ⟨hs, hm, -⟩
  · exact hk
  · rcases hl with hlt | hnm
    · omega
    · exact absurd hm hnm

lemma Settles.aimed (h : d.Settles H f) {target : Nat} (hj : d.code[pc]? = some j)
    (ha : Aimed target pc i j) (hH : ¬ H pc) (hp : pc ∉ d.pending) :
    f.code[pc]? = some j ∧ f.Target target pc := by
  obtain ⟨op, -, hop, hx⟩ := ha
  have hf : f.code[pc]? = some j := by
    rcases h.code pc j hj hH hp with hk | ⟨-, -, k, -, hw⟩
    · exact hk
    · cases hx.op.symm.trans hw.op
      cases hop
  exact ⟨hf, j, hf, by rw [hx.argSBx]; omega⟩

lemma traces_silent (hs : g.Silent g') (hf : g.Frame n g'.toDraft) :
    g.Traces f [] g'.toDraft ((∀ ρ, g.Goes ops f ρ g'.toDraft ρ) ∧
      ∀ (k : Nat) (v : Value), g'.constants.values[k]? = some v → f.constants[k]? = some v) := by
  refine ⟨hf.weaken, .nil, fun H _ hse _ => ?_⟩
  have hl := hse.lands
  rw [hs.code, hs.pending] at hl
  exact ⟨hse.nil.back hf (fun _ => .inl) hl, goes_congr (by rw [hs.code])
    (lastNil?_congr hs.code hs.pending hs.lastTarget), hse.constants⟩

section Label

lemma Settles.label (h : (d.label).Settles H f) (hH : Apart H d) (hp : d.Pends) :
    d.Settles H f ∧ ∀ ρ m, d.At f ρ m → m = ⟨d.code.size, ρ⟩ := by
  refine ⟨⟨?_, h.jumps, h.constants, h.lands⟩, fun ρ m hm => hm.eq fun i hi hop => ?_⟩
  · intro pc i hi hpc hpe
    rcases h.code pc i hi hpc hpe with hk | ⟨-, hm, -⟩
    · exact .inl hk
    · exact absurd hm not_mergeable_label
  · exact h.settled (d := d.label) hH hp hi (isJump_of_loadNil hop) (.inr not_mergeable_label)

lemma Frame.label : d.Frame n d.label :=
  { Frame.refl d with mergeable := fun _ hm => absurd hm not_mergeable_label }

lemma traces_label (hp : d.Pends) : d.Traces f [] d.label (∀ ρ, d.Goes ops f ρ d.label ρ) := by
  refine ⟨.label, .nil, fun H hH hs _ => ?_⟩
  obtain ⟨hd, hat⟩ := hs.nil.label hH hp
  refine ⟨hd, fun ρ m hm => ?_⟩
  cases hat ρ m hm
  exact .falls .refl (at_of_lastNil? (lastNil?_eq_none_of_not_mergeable not_mergeable_label) ρ)

lemma Settles.patchToHere (ops : Operators) (h : (d.patchToHere js).Settles H f) (hH : Apart H d)
    (hp : d.Pends) (hj : ∀ pc ∈ js, ∃ i, d.code[pc]? = some i ∧ i.isJump = true)
    (hd : ∀ pc ∈ js, ¬ H pc) :
    d.Settles (fun pc => H pc ∨ pc ∈ js) f ∧ ∃ T, (∀ pc ∈ js, f.Target T pc) ∧
      f.Leads d.code.size T ∧ (∀ ρ, d.Goes ops f ρ (d.patchToHere js) ρ) ∧
      ∀ (ρ : Regs) (m : Machine), m.Moves ops f ⟨T, ρ⟩ → m.Arrives ops f (d.patchToHere js) ρ := by
  have hnm : ¬ (d.patchToHere js).Mergeable := fun hm => absurd hm.1 (Nat.lt_irrefl _)
  have hn := lastNil?_eq_none_of_not_mergeable hnm
  have hpe : (d.patchToHere js).Pends := fun pc hpc => (List.mem_append.mp hpc).elim (hp pc) (hj pc)
  have hH' : Apart H (d.patchToHere js) := fun pc hpc =>
    ⟨(hH pc hpc).1, fun hx => (List.mem_append.mp hx).elim (hH pc hpc).2 fun hx => hd pc hx hpc⟩
  obtain ⟨T, hT, ht⟩ := h.lands
  refine ⟨⟨?_, h.jumps, h.constants, T, hT, ?_⟩, T, ?_, hT, ?_, ?_⟩
  · intro pc i hi hpc hpend
    rw [not_or] at hpc
    rcases h.code pc i hi hpc.1 (fun hx => (List.mem_append.mp hx).elim hpend hpc.2) with
      hk | ⟨-, hm, -⟩
    · exact .inl hk
    · exact absurd hm hnm
  · exact fun pc hpc => ht pc (List.mem_append_left _ hpc)
  · exact fun pc hpc => ht pc (List.mem_append_right _ hpc)
  · intro ρ m hm
    have heq : m = ⟨d.code.size, ρ⟩ := hm.eq fun i hi hop =>
      h.settled hH' hpe hi (isJump_of_loadNil hop) (.inr hnm)
    rw [heq]
    exact .falls .refl (at_of_lastNil? hn ρ)
  · exact fun ρ m hm => hm.arrives hT hn

structure Lands (ops : Operators) (f : Prototype) (d d' : Draft) (T : Nat) : Prop where
  falls : ∀ ρ, d.Goes ops f ρ d' ρ
  jumps : ∀ (ρ : Regs) (m : Machine), m.Moves ops f ⟨T, ρ⟩ → m.Arrives ops f d' ρ

lemma Traces.patchToHere {d0 : Draft} {o : Aims} {P : Nat → Prop} (ops : Operators)
    (h : ∀ T, d0.Traces f (aim js T ++ o) d (P T)) (hp : d.Pends) (hd : ∀ pc ∈ js, pc ∉ o.places) :
    d0.Traces f o (d.patchToHere js) (∃ T, P T ∧ Lands ops f d (d.patchToHere js) T) := by
  have hop := (h 0).opens
  rw [places_append, places_aim, opens_append] at hop
  obtain ⟨hjs, ho⟩ := hop
  refine ⟨?_, ho.patchToHere hd, fun H hH hs ht => ?_⟩
  · exact
      { (h 0).frame with
        pending := fun pc hpc =>
          (List.mem_append.mp hpc).elim ((h 0).frame.pending pc) (hjs.loose pc)
        mergeable := fun _ hm => absurd hm.1 (Nat.lt_irrefl _) }
  · have hfr : ∀ pc ∈ js, ¬ (H pc ∨ pc ∈ o.places) := fun pc hpc hx =>
      hx.elim (fun hx => hH.not_loose hx (hjs.loose pc hpc)) (hd pc hpc)
    obtain ⟨hse, T, hta, -, hf, hj⟩ := hs.patchToHere ops
      ((hH.frame (h 0).frame).or ho.apart) hp (fun pc hpc => (hjs.apart pc hpc).1) hfr
    have hs' : d.Settles (fun pc => H pc ∨ pc ∈ Aims.places (aim js T ++ o)) f :=
      hse.congr fun pc => by
        simp only [places_append, places_aim, List.mem_append]
        tauto
    obtain ⟨hs0, hP⟩ := (h T).simulates H hH hs' fun p hp' =>
      (List.mem_append.mp hp').elim (forall_mem_aim.mpr hta p) (ht p)
    exact ⟨hs0, T, hP, hf, hj⟩

end Label

section FixJumps

variable {code : Array Instruction} {target : Nat}

lemma lastNil?_patched (hc : Patched js target d.code code) :
    Draft.lastNil? { d with code := code } = d.lastNil? := by
  have hba : code.back? = d.code.back? ∨ ∃ i j, d.code.back? = some i ∧ code.back? = some j ∧
      i.op? ≠ some .loadNil ∧ j.op? ≠ some .loadNil := by
    rw [Array.back?_eq_getElem?, Array.back?_eq_getElem?, hc.size]
    by_cases hm : d.code.size - 1 ∈ js
    · cases hi : d.code[d.code.size - 1]? with
      | none =>
        rw [Array.getElem?_eq_none_iff] at hi
        exact .inl (Array.getElem?_eq_none (by rw [hc.size]; exact hi))
      | some i =>
        obtain ⟨j, hj, op, hop, hju, hx⟩ := hc.made _ hm i hi
        have hne : op ≠ .loadNil := by
          rintro rfl
          cases hju
        exact .inr ⟨i, j, rfl, hj, by simp [hop, hne], by simp [hx.op, hne]⟩
    · exact .inl (hc.kept _ hm)
  unfold Draft.lastNil?
  rcases hba with hb | ⟨i, j, hi, hj, hni, hnj⟩
  · simp only [hb, hc.size]
  · simp only [hi, hj, hni, hnj, if_false, ite_self]

def Fixes (f : Prototype) (d : Draft) (js : List Nat) (target : Nat) : Prop :=
  ∀ pc ∈ js, ∃ i j, d.code[pc]? = some i ∧ f.code[pc]? = some j ∧ Aimed target pc i j

lemma Fixes.aims (h : Fixes f d js target) : ∀ pc ∈ js, f.Target target pc := by
  intro pc hpc
  obtain ⟨i, j, -, hj, op, -, -, hx⟩ := h pc hpc
  exact ⟨j, hj, by rw [hx.argSBx]; omega⟩

lemma Settles.fixJumps (ops : Operators) (hc : Patched js target d.code code)
    (h : Draft.Settles H f { d with code := code })
    (hj : ∀ pc ∈ js, (∃ i, d.code[pc]? = some i ∧ i.isJump = true) ∧ pc ∉ d.pending ∧ ¬ H pc) :
    d.Settles (fun pc => H pc ∨ pc ∈ js) f ∧ Fixes f d js target ∧
      ∀ ρ, d.Goes ops f ρ { d with code := code } ρ := by
  refine ⟨⟨?_, ?_, h.constants, ?_⟩, ?_, goes_congr hc.size (lastNil?_patched hc)⟩
  · intro pc i hi hpc hp
    rw [not_or] at hpc
    rcases h.code pc i (by rw [hc.kept pc hpc.2]; exact hi) hpc.1 hp with hk | ⟨hs, hm, hw⟩
    · exact .inl hk
    · exact .inr ⟨hs.trans hc.size, ⟨Nat.lt_of_lt_of_eq hm.1 hc.size, hm.2⟩, hw⟩
  · exact fun pc hcl => h.jumps pc (hc.closable hcl)
  · obtain ⟨T, hT, ht⟩ := h.lands
    exact ⟨T, by rw [← hc.size]; exact hT, ht⟩
  · intro pc hpc
    obtain ⟨⟨i, hi, -⟩, hp, hnH⟩ := hj pc hpc
    obtain ⟨j, hj', ha⟩ := hc.made pc hpc i hi
    exact ⟨i, j, hi, (h.aimed hj' ha hnH hp).1, ha⟩

lemma Traces.fixJumps {d0 : Draft} {o : Aims} {P : Prop} (ops : Operators)
    (h : d0.Traces f (aim js target ++ o) d P) (hc : Patched js target d.code code)
    (hd : ∀ pc ∈ js, pc ∉ o.places) :
    d0.Traces f o { d with code := code } (P ∧ Fixes f d js target ∧
      ∀ ρ, d.Goes ops f ρ { d with code := code } ρ) := by
  have hop := h.opens
  rw [places_append, places_aim, opens_append] at hop
  obtain ⟨hjs, ho⟩ := hop
  have hke : ∀ pc ∈ o.places, code[pc]? = d.code[pc]? :=
    fun pc hpc => hc.kept pc fun hpc' => hd pc hpc' hpc
  refine ⟨?_, ⟨fun pc hpc => ⟨?_, (ho.apart pc hpc).2⟩, ho.loose⟩, fun H hH hs ht => ?_⟩
  · have hk : d.Keeps d0.Loose 0 { d with code := code } :=
      { Keeps.refl (S := d0.Loose) (n := 0) fun pc hpc => .inl (h.frame.pending pc hpc) with
        size := Nat.le_of_eq hc.size.symm
        code := fun pc i hi hs => .inl (by rw [hc.kept pc fun hpc => hs (hjs.loose pc hpc), hi])
        closable := fun _ _ _ hcl => hc.closable hcl
        mergeable := fun _ hm => ⟨Nat.lt_of_lt_of_eq hm.1 hc.size, hm.2⟩ }
    exact Keeps.trans h.frame hk .refl fun _ hpc => hpc
  · rw [hke pc hpc]
    exact (ho.apart pc hpc).1
  · obtain ⟨hse, hf, hg⟩ := hs.fixJumps ops hc fun pc hpc =>
      ⟨(hjs.apart pc hpc).1, (hjs.apart pc hpc).2, fun hx =>
        hx.elim (fun hx => hH.not_loose hx (hjs.loose pc hpc)) (hd pc hpc)⟩
    have hs' : d.Settles (fun pc => H pc ∨ pc ∈ Aims.places (aim js target ++ o)) f :=
      hse.congr fun pc => by
        simp only [places_append, places_aim, List.mem_append]
        tauto
    obtain ⟨hs0, hP⟩ := h.simulates H hH hs' fun p hp' =>
      (List.mem_append.mp hp').elim (forall_mem_aim.mpr hf.aims p) (ht p)
    exact ⟨hs0, hP, hf, hg⟩

end FixJumps

structure Performs (f : Prototype) (d d' : Draft) (i : Instruction) : Prop where
  code : f.code[d.code.size]? = some i
  start : ∀ ρ m, d.At f ρ m → m = ⟨d.code.size, ρ⟩
  size : d'.code.size = d.code.size + 1
  last : d'.lastNil? = none

lemma Performs.goes (h : Performs f d d' i) (hop : i.op? = some op)
    (hx : Machine.execute ops f ⟨d.code.size, ρ⟩ i op = some ⟨d.code.size + 1, ρ'⟩) :
    d.Goes ops f ρ d' ρ' := by
  intro m hm
  cases h.start ρ m hm
  rw [← h.size] at hx
  exact .falls (.single (Machine.step_of h.code hop hx)) (at_of_lastNil? h.last ρ')

structure Escapes (ops : Operators) (f : Prototype) (d d' : Draft) (T : Nat) : Prop where
  moves : ∀ ρ m, d.At f ρ m → m.Moves ops f ⟨T, ρ⟩
  size : d'.code.size = d.code.size + 1
  last : d'.lastNil? = none

structure Forks (ops : Operators) (f : Prototype) (d d' : Draft) (ρ ρ' : Regs) (T : Nat)
    (taken : Bool) : Prop where
  jumps : taken = true → ∀ m, d.At f ρ m → m.Moves ops f ⟨T, ρ'⟩
  falls : taken = false → d.Goes ops f ρ d' ρ'

lemma Goes.forks {d'' : Draft} {ρ'' : Regs} (h : d.Goes ops f ρ d' ρ')
    (h' : Forks ops f d' d'' ρ' ρ'' T taken) : Forks ops f d d'' ρ ρ'' T taken :=
  ⟨fun ht m hm => (h m hm).moves (h'.jumps ht), fun hf => h.trans (h'.falls hf)⟩

def Skips (ops : Operators) (f : Prototype) (d d' : Draft) (ρ ρ' : Regs) (taken : Bool) :
    Prop :=
  ∀ T d'', Escapes ops f d' d'' T → Forks ops f d d'' ρ ρ' T taken

lemma Performs.skips (h : Performs f d d' i) (hop : i.op? = some op)
    (hx : Machine.execute ops f ⟨d.code.size, ρ⟩ i op =
      some ⟨d.code.size + if taken then 1 else 2, ρ'⟩) : Skips ops f d d' ρ ρ' taken := by
  intro T d'' hj
  have hs := Machine.step_of h.code hop hx
  constructor
  · rintro rfl m hm
    cases h.start ρ m hm
    simp only [if_true, ← h.size] at hs
    exact .head hs (hj.moves ρ' _ (at_of_lastNil? h.last ρ'))
  · rintro rfl m hm
    cases h.start ρ m hm
    have hsi : d.code.size + 2 = d''.code.size := by rw [hj.size, h.size]
    simp only [Bool.false_eq_true, if_false, hsi] at hs
    exact .falls (.single hs) (at_of_lastNil? hj.last ρ')

end Draft

namespace Generator

open Draft

variable {H : Nat → Prop} {first n : Nat}

section

variable (he : g.Emits i g')
include he

lemma Emits.kept {pc : Nat} (hj : g.code[pc]? = some j)
    (hp : pc ∉ g.pending) : g'.code[pc]? = some j := by
  obtain ⟨code, hc, rfl⟩ := he
  have hlt := lt_size hj
  simp only [emitted]
  rw [Array.getElem?_push, if_neg (by rw [hc.size]; omega), hc.kept _ hp, hj]

lemma Emits.lastNil? (hop : i.op? ≠ some .loadNil) :
    g'.lastNil? = none := lastNil?_eq_none_of_last he.last hop

lemma Emits.settles (hH : Apart H g.toDraft) (hp : g.Pends)
    (hs : g'.Settles H' f) (hH' : ∀ pc, H' pc → H pc ∨ pc = g.code.size) :
    g.Settles H f ∧ (∀ ρ m, g.At f ρ m → m = ⟨g.code.size, ρ⟩) ∧
      (¬ H' g.code.size → f.code[g.code.size]? = some i ∨
        (g'.Mergeable ∧ ∃ j, f.code[g.code.size]? = some j ∧ i.WidensTo j)) := by
  have hpe : ∀ pc, pc ∉ g'.pending := by simp [he.pending]
  have hnH : ∀ {pc : Nat} {j : Instruction}, g.code[pc]? = some j → ¬ H pc → ¬ H' pc := by
    intro pc j hj hpc hpc'
    have hlt := lt_size hj
    rcases hH' pc hpc' with hx | rfl
    · exact hpc hx
    · omega
  refine ⟨?_, fun ρ m hm => hm.eq fun j hj hop => ?_, fun hno => ?_⟩
  · obtain ⟨code, hc, rfl⟩ := he
    refine hs.back (n := 0) (Keeps.emitted hc fun _ h => h) (fun pc hpc => ?_)
      ⟨g.code.size, .inl rfl, fun pc hpc => ?_⟩
    · rcases hH' pc hpc with hx | rfl
      · exact .inl hx
      · exact .inr (.inr .refl)
    · obtain ⟨j, hj, -⟩ := hp pc hpc
      obtain ⟨j', hj', ha⟩ := hc.made pc hpc j hj
      have hlt := lt_size hj
      refine (hs.aimed ?_ ha (hnH hj fun hx => (hH pc hx).2 hpc) (hpe pc)).2
      simp only [emitted]
      rw [Array.getElem?_push, if_neg (by rw [hc.size]; omega), hj']
  · have hn := isJump_of_loadNil hop
    have hlt := lt_size hj
    rcases hs.code _ j (he.kept hj (hp.not_plain hj hn)) (hnH hj (hH.not_plain hj hn))
      (hpe _) with hk | ⟨hl, -⟩
    · exact hk
    · rw [he.size] at hl
      omega
  · rcases hs.code _ i he.getElem? hno (hpe _) with hk | ⟨-, hm, hw⟩
    · exact .inl hk
    · exact .inr ⟨hm, hw⟩

lemma Emits.frame : g.Frame n g'.toDraft := by
  obtain ⟨code, hc, rfl⟩ := he
  exact .emitted hc fun _ h => h

lemma Emits.traces (hop : i.op? ≠ some .loadNil) (hp : g.Pends) :
    g.Traces f [] g'.toDraft (Performs f g.toDraft g'.toDraft i) := by
  refine ⟨he.frame, .nil, fun H hH hs _ => ?_⟩
  obtain ⟨hse, hat, hc⟩ := he.settles hH hp hs.nil fun _ => .inl
  refine ⟨hse, ?_, hat, he.size, he.lastNil? hop⟩
  rcases hc hH.not_size with hk | ⟨-, j, -, hw⟩
  · exact hk
  · exact absurd hw.op hop

lemma Emits.traces_open (hj : i.isJump = true) (hp : g.Pends) :
    g.Traces f (aim [g.code.size] T) g'.toDraft ((∀ ρ m, g.At f ρ m → m = ⟨g.code.size, ρ⟩) ∧
        Fixes f g.toDraft g.pending g.code.size) := by
  refine ⟨he.frame, ⟨fun pc hpc => ?_, fun pc hpc => ?_⟩, fun H hH hs _ => ?_⟩
  · rw [places_aim, List.mem_singleton] at hpc
    subst hpc
    exact ⟨⟨i, he.getElem?, hj⟩, by simp [he.pending]⟩
  · rw [places_aim, List.mem_singleton] at hpc
    exact .inr (Nat.le_of_eq hpc.symm)
  · rw [places_aim] at hs
    simp only [List.mem_singleton] at hs
    obtain ⟨hse, hat, -⟩ := he.settles hH hp hs fun _ => id
    refine ⟨hse, hat, fun pc hpc => ?_⟩
    obtain ⟨k, hk, -⟩ := hp pc hpc
    have hlt := lt_size hk
    have hh : ¬ (H pc ∨ pc = g.code.size) := by
      rintro (hx | hx)
      · exact (hH pc hx).2 hpc
      · omega
    obtain ⟨code, hc, rfl⟩ := he
    obtain ⟨k', hk', ha⟩ := hc.made pc hpc k hk
    have hg : (g.emitted code i).code[pc]? = some k' := by
      simp only [emitted]
      rw [Array.getElem?_push, if_neg (by rw [hc.size]; omega), hk']
    exact ⟨k, k', hk, (hs.aimed hg ha hh (by simp [emitted])).1, ha⟩

end

lemma step_loadNil (hi : f.code[pc]? = some i) (hop : i.op? = some .loadNil) :
    Machine.Step ops f ⟨pc, ρ⟩ ⟨pc + 1, ρ.clear i.argA (i.argA + i.argB)⟩ :=
  Machine.step_of hi hop rfl

lemma Emits.traces_loadNil (he : g.Emits i g') (hi : i.op? = some .loadNil) (hp : g.Pends) :
    g.Traces f [] g'.toDraft
      (∀ ρ, g.Goes ops f ρ g'.toDraft (ρ.clear i.argA (i.argA + i.argB))) := by
  refine ⟨he.frame, .nil, fun H hH hs _ => ?_⟩
  obtain ⟨hse, hat, hc⟩ := he.settles hH hp hs.nil fun _ => .inl
  refine ⟨hse, fun ρ m hm => ?_⟩
  cases hat ρ m hm
  rcases hc hH.not_size with hk | ⟨hm', j, hk, hw⟩
  · -- The instruction stays, so that nothing is ahead.
    refine .falls (.single (step_loadNil hk hi)) ⟨he.size.symm, ?_⟩
    cases hl : g'.lastNil? with
    | none => exact .same hl rfl
    | some range =>
      obtain ⟨-, i', hi', -, hr⟩ := Draft.lastNil?_eq_some (p := range.1) (q := range.2) hl
      rw [Array.back?_eq_getElem?, he.last] at hi'
      cases hi'
      refine .cleared (hl.trans (congrArg some (Prod.ext hr.1 hr.2)))
        (fun k h1 h2 => Regs.clear_of_mem h1 h2)
        (by rw [he.size]; exact hk)
        (Regs.clear_clear .refl .refl).symm
  · exact .falls (.single (step_loadNil hk hw.op')) ⟨he.size.symm, .cleared
      (lastNil?_of_mergeable hm' he.last hi) (fun k h1 h2 => Regs.clear_of_mem h1 h2)
      (by rw [he.size]; exact hk)
      (Regs.clear_clear hw.first hw.last).symm⟩

lemma traces_widenLast (hm : g.Mergeable) (hi : g.code.back? = some i) (hw : i.WidensTo j)
    (hfi : j.argA ≤ first) (hl : first + n ≤ j.argA + j.argB + 1)
    (hga : ∀ k, j.argA ≤ k → k ≤ j.argA + j.argB →
      (first ≤ k ∧ k < first + n) ∨ (i.argA ≤ k ∧ k ≤ i.argA + i.argB))
    (hf : g.Frame k { g.toDraft with code := widenLast g.code j }) :
    g.Traces f [] { g.toDraft with code := widenLast g.code j }
      (∀ ρ, g.Goes ops f ρ { g.toDraft with code := widenLast g.code j }
        (ρ.clear first (first + n - 1))) := by
  refine ⟨hf.weaken, .nil, fun H hH hs _ => ?_⟩
  have hs := hs.nil
  have hsi : g.code.size - 1 + 1 = g.code.size := by
    have := hm.1
    omega
  have hg : (widenLast g.code j)[g.code.size - 1]? = some j := by
    rw [getElem?_widenLast hi, if_pos hsi]
  refine ⟨hs.back hf (fun _ => .inl) (by simpa using hs.lands), fun ρ m hma => ?_⟩
  refine .falls .refl ⟨by simpa using hma.pc, ?_⟩
  cases hma.registers with
  | same hn => rw [lastNil?_of_mergeable hm hi hw.op] at hn; cases hn
  | @cleared first' last' j' hso hni hj' heq =>
    rw [lastNil?_of_mergeable hm hi hw.op] at hso
    obtain ⟨rfl, rfl⟩ := hso
    -- The finished instruction covers the widened one.
    have hc : j'.argA ≤ j.argA ∧ j.argA + j.argB ≤ j'.argA + j'.argB := by
      have hnH := hH.not_plain hi (isJump_of_loadNil hw.op)
      rcases hs.code _ j hg hnH (by simp [hm.2]) with hk | ⟨-, -, k, hk, hw'⟩
      · cases hj'.symm.trans hk
        exact ⟨.refl, .refl⟩
      · cases hj'.symm.trans hk
        exact ⟨hw'.first, hw'.last⟩
    refine .cleared (lastNil?_of_mergeable ⟨by simpa using hm.1, hm.2⟩ (by simpa using hg)
      hw.op') (fun r h1 h2 => ?_) (by simpa using hj') ?_
    · rcases hga r h1 h2 with hme | hme
      · exact Regs.clear_of_mem hme.1 (by omega)
      · by_cases hin : first ≤ r ∧ r ≤ first + n - 1
        · exact Regs.clear_of_mem hin.1 hin.2
        · rw [Regs.clear_of_lt (by omega)]
          exact hni r hme.1 hme.2
    · rw [heq, Regs.clear_clear (by omega) (by omega)]

lemma LoadsNil.traces (h : g.LoadsNil first n g') (hn : 0 < n) (hp : g.Pends)
    (hf : g.Frame k g'.toDraft) :
    g.Traces f [] g'.toDraft (∀ ρ, g.Goes ops f ρ g'.toDraft (ρ.clear first (first + n - 1))) := by
  cases h with
  | new i hi he =>
    rw [show first + n - 1 = i.argA + i.argB by rw [hi.argA, hi.argB]; omega, ← hi.argA]
    exact he.traces_loadNil hi.op hp
  | widened i j hm hi hw hfi hl hg he =>
    subst he
    exact traces_widenLast hm hi hw hfi hl hg hf

end Generator

namespace Draft

variable {d : Draft}

lemma traces_jump (hi : i.IsAsBx .jmp 0 0) (hp : d.Settled 0) :
    d.Traces f (aim (d.code.size :: d.pending) T) (d.emitted d.code i)
      (Escapes ops f d (d.emitted d.code i) T) := by
  have hg : (d.emitted d.code i).code[d.code.size]? = some i := by simp [emitted]
  have hsi : (d.emitted d.code i).code.size = d.code.size + 1 := by simp [emitted]
  have hl : (d.emitted d.code i).lastNil? = none :=
    lastNil?_eq_none_of_last (i := i) (by rw [hsi]; exact hg) (by rw [hi.op]; simp)
  have hke : ∀ {pc : Nat} {j : Instruction}, d.code[pc]? = some j →
      (d.emitted d.code i).code[pc]? = some j := by
    intro pc j hj
    have hlt := lt_size hj
    simp [emitted, Array.getElem?_push, Nat.ne_of_lt hlt, hj]
  have hf : d.Frame 0 (d.emitted d.code i) :=
    .emitted (k := 0) .nil (by simp)
  refine ⟨hf, ?_, fun H hH hs ht => ?_⟩
  · rw [places_aim]
    refine Holds.opens (n := 0) ⟨fun pc hpc => ?_, fun pc hpc => ?_, fun pc _ => by simp [emitted]⟩
    · rcases List.mem_cons.mp hpc with rfl | hpc
      · exact ⟨i, hg, hi.op, .inl hi.argA⟩
      · exact (hp pc hpc).push
    · rcases List.mem_cons.mp hpc with rfl | hpc
      · exact .inr .refl
      · exact .inl hpc
  · rw [places_aim] at hs
    have hta := forall_mem_aim.mp ht
    -- The jump stays a jump while it is patched.
    have hju : f.JumpsTo T d.code.size := by
      obtain ⟨j, hj, hop⟩ := hs.jumps d.code.size ⟨i, hg, hi.op, .inl hi.argA⟩
      obtain ⟨j', hj', htarget⟩ := hta d.code.size (by simp)
      cases hj.symm.trans hj'
      exact ⟨j, hj, hop, htarget⟩
    refine ⟨hs.back hf (fun pc hpc => hpc.imp_right fun hpc => ?_) ⟨T, .inr hju,
      fun pc hpc => hta pc (by simp [hpc])⟩, fun ρ m hm => ?_, hsi, hl⟩
    · rcases List.mem_cons.mp hpc with rfl | hpc
      · exact .inr .refl
      · exact .inl hpc
    · have heq : m = ⟨d.code.size, ρ⟩ := hm.eq fun j hj hop => by
        have hn := isJump_of_loadNil hop
        have hlt := lt_size hj
        have hh : ¬ (H (d.code.size - 1) ∨ d.code.size - 1 ∈ d.code.size :: d.pending) := by
          rw [List.mem_cons]
          rintro (hx | hx | hx)
          · exact hH.not_plain hj hn hx
          · omega
          · exact hp.pends.not_plain hj hn hx
        rcases hs.code _ j (hke hj) hh (by simp [emitted]) with hk | ⟨hen, -⟩
        · exact hk
        · omega
      rw [heq]
      exact .single (hju.step ρ)

end Draft

end LuaBytecode
