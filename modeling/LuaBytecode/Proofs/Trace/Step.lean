import LuaBytecode.Compile
import LuaBytecode.Proofs.Generator.Code
import LuaBytecode.Proofs.Generator.Scope
import LuaBytecode.Proofs.Tree.Children
import LuaBytecode.Proofs.Verifier
import Mathlib.Logic.Relation

namespace LuaBytecode

open Instruction

variable {isOutermost : Bool} {b : Block} {i j : Instruction} {n : Nat}

def OpCode.isPlain (c : Nat) : OpCode → Bool
  | .jmp | .forLoop | .forPrep | .tforLoop => false
  | .eq | .lt | .le | .test | .testSet => false
  | .loadKX | .closure => false
  | .loadBool => c = 0
  | .setList => c ≠ 0
  | _ => true

namespace Instruction

variable {op : OpCode} {a : UInt8} {pc : Nat} {t : Int}

def isPlain (i : Instruction) : Bool := i.op?.any (OpCode.isPlain i.argC)

def successors (pc : Nat) (i : Instruction) : List Int :=
  match i.op? with
  | some .return | some .tailCall => []
  | some .jmp | some .forPrep => [pc + 1 + i.argSBx]
  | some .forLoop | some .tforLoop => [pc + 1, pc + 1 + i.argSBx]
  | some .eq | some .lt | some .le | some .test | some .testSet => [pc + 1, pc + 2]
  | some .loadBool => if i.argC = 0 then [pc + 1] else [pc + 2]
  | some .setList => if i.argC = 0 then [pc + 2] else [pc + 1]
  | some .loadKX => [pc + 2]
  | _ => [pc + 1]

lemma isPlain_of_op (h : i.op? = some op) (hc : ∀ c, op.isPlain c = true) : i.isPlain = true := by
  simp [isPlain, h, hc]

lemma mem_successors (h : t ∈ i.successors pc) :
    t = pc + 1 ∨ (i.isPlain = false ∧ i.isJump = false ∧ t = pc + 2) ∨
      (i.isJump = true ∧ t = pc + 1 + i.argSBx) := by
  cases hop : i.op? with
  | none =>
    simp [successors, hop] at h
    exact .inl h
  | some op =>
    cases op <;> simp [successors, isPlain, isJump, hop, OpCode.isPlain, OpCode.isJump] at h ⊢ <;>
      grind

lemma successors_isPlain (hi : i.isPlain = true) (h : t ∈ i.successors pc) : t = pc + 1 := by
  rcases mem_successors h with h | ⟨hp, -⟩ | ⟨hj, -⟩
  · exact h
  · rw [hi] at hp
    cases hp
  · cases hop : i.op? with
    | none => simp [isJump, hop] at hj
    | some op => cases op <;> simp_all [isPlain, isJump, OpCode.isPlain, OpCode.isJump]

lemma op?_of_abx {bx : Nat} (h : abx op a bx = .ok i) : i.IsABx op a.toNat bx := by
  have hm : op.mode = .abx := Decidable.byContradiction fun hm => by
    simp [abx, hm] at h
  have hb : bx ≤ maxBx := Decidable.byContradiction fun hb => by
    simp [abx, hm, Nat.not_le.mp hb] at h
  obtain ⟨j, hj, hx⟩ := abx_eq_ok (a := a) hm hb
  cases hj.symm.trans h
  exact hx

lemma op?_of_asbx {x : Int} (h : asbx op a x = .ok i) : i.IsAsBx op a.toNat x := by
  have hm : op.mode = .asbx := Decidable.byContradiction fun hm => by
    simp [asbx, hm] at h
  have hx : fitsOffset x = true := Decidable.byContradiction fun hx => by
    simp [asbx, hm, hx] at h
  obtain ⟨j, hj, hi⟩ := asbx_eq_ok (a := a) hm hx
  cases hj.symm.trans h
  exact hi

lemma op?_of_extraArgument {ax : Nat} (h : extraArgument ax = .ok i) : i.op? = some .extraArg := by
  have hx : ax ≤ maxAx := Decidable.byContradiction fun hx => by
    simp [extraArgument, Nat.not_le.mp hx] at h
  obtain ⟨j, hj, hop, -⟩ := extraArgument_eq_ok hx
  cases hj.symm.trans h
  exact hop

end Instruction

def ShutAt (code : Array Instruction) (n pc : Nat) : Prop :=
  ∃ i, code[pc]? = some i ∧ i.op? = some .jmp ∧ i.argA = (n + 1).toUInt8.toNat

namespace Draft

def Tuned (d d' : Draft) : Prop := d' = { d with
    maxStackSize := d'.maxStackSize, lineInfo := d'.lineInfo, constants := d'.constants
    firstFree := d'.firstFree, released := d'.released, line := d'.line, pos := d'.pos }

end Draft

namespace Trace

structure Mark where
  pc : Nat
  level : Nat

def marks (pcs : List Nat) (level : Nat) : List Mark := pcs.map (⟨·, level⟩)

def Mark.lower (n : Nat) (m : Mark) : Mark := { m with level := min m.level n }

structure Layer extends Draft where
  held : List Mark
  targets : List Mark
  fresh : Option Nat

namespace Layer

/-- The steps inside of a function, apart from the end of a block. -/
inductive Step : Layer → Layer → Prop
  | tune {l : Layer} {d : Draft} (h : l.Tuned d) : Step l { l with toDraft := d }
  | label (l : Layer) : Step l { l with toDraft := l.label }
  | aim {l : Layer} (h : l.lastNil? = none) :
      Step l { l with targets := ⟨l.code.size, l.active.size⟩ :: l.targets }
  | rearrange {l : Layer} {held targets : List Mark} (hheld : ∀ m, m ∈ held ↔ m ∈ l.held)
      (htargets : targets ⊆ l.targets) : Step l { l with held, targets }
  | emit {l : Layer} {i : Instruction} {d : Draft} (hi : i.isPlain = true)
      (h : l.emit i = .ok d) : Step l { l with toDraft := d }
  | pair {l : Layer} {i j : Instruction} {d d' : Draft} {target : Nat} {jumps : List Nat}
      {level : Nat} {held : List Mark} (hi : i.isJump = false) (hop : i.op? ≠ some .closure)
      (hj : j.isPlain = true) (hheld : l.held = marks jumps level ++ held)
      (h : l.emit i = .ok d)
      (h' : Draft.emit { d with lastTarget := target, pending := jumps } j = .ok d')
      (hnil : j.op? ≠ some .loadNil) : Step l { l with toDraft := d', held }
  | branch {l : Layer} {i j : Instruction} {d d' : Draft} (hi : i.isJump = false)
      (hop : i.op? ≠ some .closure) (hj : Instruction.asbx .jmp 0 0 = .ok j)
      (h : l.emit i = .ok d) (h' : d.emit j = .ok d') :
      Step l { l with
        toDraft := d', held := marks [l.code.size + 1] l.active.size ++ l.held }
  | jump {l : Layer} {j : Instruction} {d : Draft} (hj : Instruction.asbx .jmp 0 0 = .ok j)
      (h : Draft.emit { l.toDraft with pending := [] } j = .ok d) :
      Step l { l with
        toDraft := d
        held := marks (l.code.size :: l.pending) l.active.size ++ l.held }
  | loopJump {l : Layer} {j : Instruction} {d : Draft} (hj : j.isJump = true)
      (hop : j.op? ≠ some .jmp) (h : l.emit j = .ok d) :
      Step l { l with
        toDraft := d, held := marks [l.code.size] l.active.size ++ l.held }
  | patchHere {l : Layer} {jumps : List Nat} {level : Nat} {held : List Mark}
      (hheld : l.held = marks jumps level ++ held) :
      Step l { l with toDraft := l.patchToHere jumps, held }
  | patchBack {l : Layer} {jumps : List Nat} {level : Nat} {held : List Mark} {t : Mark} {d : Draft}
      (hheld : l.held = marks jumps level ++ held) (ht : t ∈ l.targets)
      (hlevel : l.active.size ≤ t.level) (h : Draft.fixJumps t.pc jumps l.toDraft = .ok d) :
      Step l { l with toDraft := d, held }
  | close {l : Layer} {jumps : List Nat} {level : Nat} {held : List Mark} {b : Block}
      {outer : List Block} {d : Draft} (hheld : l.held = marks jumps level ++ held)
      (hblocks : l.blocks = b :: outer)
      (h : Draft.closeAll b.numActive jumps l.toDraft = .ok d) : Step l { l with toDraft := d }
  | replace {l : Layer} {pc : Nat} {i j : Instruction} (h : l.code[pc]? = some i)
      (hi : i.isPlain = true) (hj : j.isPlain = true)
      (hop : j.op? = i.op? ∨ i.op? = some .call) (hnil : j.op? = i.op? ∨ j.op? ≠ some .loadNil) :
      Step l { l with toDraft := { l.toDraft with code := l.code.setIfInBounds pc j } }
  | addBreak {l : Layer} {jumps : List Nat} {level : Nat} {held : List Mark}
      (hheld : l.held = marks jumps level ++ held) (hloop : l.isInLoop = true) :
      Step l { l with toDraft := l.addBreak jumps, held }
  | declare {l : Layer} {name : Bytes} {b : Block} {outer : List Block} {d : Draft}
      (hblocks : l.blocks = b :: outer) (hname : b.isLoop = true → isHidden name = true)
      (h : l.declare name = .ok d) :
      Step l { l with toDraft := d, fresh := some l.localVariables.size }
  | start {l : Layer} {r slot pc : Nat} {v : LocalVariable} {i : Instruction} {d : Draft}
      (hfresh : l.fresh = some slot) (hslot : l.active[r]? = some slot)
      (hv : l.localVariables[slot]? = some v) (hstart : v.startPC = .ofNat pc)
      (hpc : pc + 1 = l.code.size)
      (hi : l.code[pc]? = some i) (hop : i.op? = some .closure) (ha : i.argA = r)
      (htargets : ∀ t ∈ l.targets, t.level ≤ r) (h : l.startVariable r = .ok d) :
      Step l { l with toDraft := d, fresh := none }
  | enter {l : Layer} (hblocks : l.blocks ≠ []) (isLoop : Bool) :
      Step l { l with toDraft := l.enterBlock isLoop }
  | find {l : Layer} {name : Bytes} {r : Nat} (h : l.register name = .ok (some r)) :
      Step l { l with fresh := none }

abbrev Steps : Layer → Layer → Prop := Relation.ReflTransGen Step

end Layer

structure State extends Layer where
  enclosing : List Layer

namespace State

def generator (s : State) : Generator := ⟨s.toDraft, s.enclosing.map (·.toDraft)⟩

def withDrafts (s : State) (g : Generator) : State := ⟨{ s.toLayer with toDraft := g.toDraft },
    s.enclosing.zipWith (fun l d => { l with toDraft := d }) g.enclosing⟩

inductive Step : State → State → Prop
  | inside {s : State} {l : Layer} (h : s.toLayer.Step l) : Step s { s with toLayer := l }
  | leave {s : State} {g : Generator} {b : Block} {outer : List Block}
      (hblocks : s.blocks = b :: outer) (houter : outer ≠ [])
      (h : Gen.leaveBlock s.generator = .ok ((), g))
      (hheld : ∀ m ∈ s.held, m.level ≤ b.numActive ∨
        (b.isCaptured = true → ShutAt s.code b.numActive m.pc)) :
      Step s ⟨⟨g.toDraft, s.held.map (·.lower b.numActive),
        s.targets.filter (·.level ≤ b.numActive), none⟩, s.enclosing⟩
  | finish {s : State} {g : Generator} {b : Block} {i : Instruction} {d : Draft}
      (hblocks : s.blocks = [b]) (hheld : s.held = [])
      (hop : i.op? = some .return) (hemit : s.emit i = .ok d)
      (h : Gen.leaveBlock ⟨d, s.enclosing.map (·.toDraft)⟩ = .ok ((), g)) :
      Step s ⟨⟨g.toDraft, [], [], none⟩, s.enclosing⟩
  | resolve {s : State} {g : Generator} {name : Bytes} {v : Variable}
      (hname : isHidden name = false) (h : Gen.resolve name s.generator = .ok (v, g)) :
      Step s (s.withDrafts g)
  | openFunction (s : State) (source : ChunkName) (numParams : UInt8) (isVararg : Bool)
      (first last : Int) :
      Step s ⟨⟨(Draft.new source numParams isVararg first last #[]).enterBlock false, [], [], none⟩,
        s.toLayer :: s.enclosing⟩
  | closeFunction {s : State} {l : Layer} {rest : List Layer} {line : Int} {i : Instruction}
      {d : Draft} (henclosing : s.enclosing = l :: rest) (hblocks : s.blocks = [])
      (hpending : s.pending = []) (hheld : s.held = [])
      (hop : i.op? = some .closure) (hbx : i.argBx = l.functions.size)
      (h : Draft.emit { l.toDraft with
        functions := l.functions.push s.prototype, line } i = .ok d) :
      Step s ⟨{ l with toDraft := d }, rest⟩

abbrev Steps : State → State → Prop := Relation.ReflTransGen Step

def start (source : ChunkName) : State := ⟨⟨(Generator.start source).toDraft, [], [], none⟩, []⟩

def Reachable (source : ChunkName) (s : State) : Prop := (start source).Steps s

def drafts (s : State) : List Draft := s.toDraft :: s.enclosing.map (·.toDraft)

/-- Steps during which the function that `k` functions are around stays open. -/
def StepsAbove (k : Nat) : State → State → Prop :=
  Relation.ReflTransGen fun s s' => s.Step s' ∧ k < s'.drafts.length

end State

end Trace

lemma OpCode.isJump_of_mode {op : OpCode} (h : op.mode = .asbx) : op.isJump = true := by
  cases op <;> first | rfl | cases h

def Shut (n : Nat) (i j : Instruction) : Prop :=
  i.op? = some .jmp ∧ (i.argA = 0 ∨ n < i.argA) ∧ j.IsAsBx .jmp (n + 1).toUInt8.toNat i.argSBx

lemma Shut.op?_eq (h : Shut n i j) : j.op? = i.op? := h.2.2.op.trans h.1.symm

lemma Aimed.op?_eq {target pc : Nat} (h : Aimed target pc i j) : j.op? = i.op? := by
  obtain ⟨op, hop, -, hx⟩ := h
  exact hx.op.trans hop.symm

lemma Shut.trans {k : Instruction} (h : Shut n i j) (h' : Shut n j k) : Shut n i k :=
  ⟨h.1, h.2.1, by rw [← h.2.2.argSBx]; exact h'.2.2⟩

def PendingBreak.lower (n : Nat) (p : PendingBreak) : PendingBreak :=
  { p with numActive := min p.numActive n }

lemma Remade.exists_op? {R : Nat → Instruction → Instruction → Prop} {l : List Nat} {pc : Nat}
    {code code' : Array Instruction} (h : Remade R l code code')
    (hR : ∀ pc i j, R pc i j → j.op? = i.op?) (hi : code[pc]? = some i) :
    ∃ j, code'[pc]? = some j ∧ j.op? = i.op? := by
  by_cases hpc : pc ∈ l
  · obtain ⟨j, hj, hij⟩ := h.made pc hpc i hi
    exact ⟨j, hj, hR pc i j hij⟩
  · exact ⟨i, by rw [h.kept pc hpc, hi], rfl⟩

def KeepsOps (code code' : Array Instruction) : Prop :=
  ∀ (pc : Nat) (i : Instruction), code[pc]? = some i →
    ∃ j, code'[pc]? = some j ∧ (j.op? = i.op? ∨ i.op? = some .call)

namespace KeepsOps

variable {code code' code'' : Array Instruction} {pc target : Nat} {l : List Nat}

lemma refl (code : Array Instruction) : KeepsOps code code := fun _ i hi => ⟨i, hi, .inl rfl⟩

lemma trans (h : KeepsOps code code') (h' : KeepsOps code' code'') : KeepsOps code code'' := by
  intro pc i hi
  obtain ⟨j, hj, hij⟩ := h pc i hi
  obtain ⟨k, hk, hjk⟩ := h' pc j hj
  refine ⟨k, hk, ?_⟩
  rcases hij with hij | hij
  · rw [← hij]
    exact hjk
  · exact .inr hij

lemma remade {R : Nat → Instruction → Instruction → Prop} (hr : Remade R l code code')
    (hR : ∀ pc i j, R pc i j → j.op? = i.op?) : KeepsOps code code' :=
  fun _ _ hi => (hr.exists_op? hR hi).imp fun _ h => ⟨h.1, .inl h.2⟩

lemma patched (hp : Patched l target code code') : KeepsOps code code' :=
  remade hp fun _ _ _ => Aimed.op?_eq

lemma shut (hs : Remade (fun _ => Shut n) l code code') : KeepsOps code code' :=
  remade hs fun _ _ _ => Shut.op?_eq

lemma push : KeepsOps code (code.push i) := by
  intro pc j hj
  have hlt := lt_size hj
  exact ⟨j, by rw [Array.getElem?_push, if_neg (by omega), hj], .inl rfl⟩

lemma replace (hi : code[pc]? = some i) (hop : j.op? = i.op? ∨ i.op? = some .call) :
    KeepsOps code (code.setIfInBounds pc j) := by
  intro k old hold
  have hlt := lt_size hi
  by_cases hk : pc = k
  · subst hk
    cases hi.symm.trans hold
    exact ⟨j, by simp [hlt], hop⟩
  · exact ⟨old, by rw [Array.getElem?_setIfInBounds_ne hk, hold], .inl rfl⟩

lemma size_le (h : KeepsOps code code') : code.size ≤ code'.size := by
  refine Decidable.byContradiction fun hlt => ?_
  have hi : code[code'.size]? = some code[code'.size] := Array.getElem?_eq_getElem (by omega)
  obtain ⟨j, hj, -⟩ := h _ _ hi
  have := lt_size hj
  omega

end KeepsOps

namespace Draft

variable {d d' d'' : Draft} {pc target : Nat} {l : List Nat} {outer : List Block} {k count : Nat}

def SameScope (d d' : Draft) : Prop := d' = { d with
    maxStackSize := d'.maxStackSize, code := d'.code, lineInfo := d'.lineInfo
    constants := d'.constants, breaks := d'.breaks, firstFree := d'.firstFree
    released := d'.released, lastTarget := d'.lastTarget, pending := d'.pending
    line := d'.line, pos := d'.pos }

lemma SameScope.refl (d : Draft) : d.SameScope d := rfl

lemma SameScope.trans (h : d.SameScope d') (h' : d'.SameScope d'') : d.SameScope d'' := by
  unfold SameScope at *
  rw [h', h]

lemma Tuned.sameScope (h : d.Tuned d') : d.SameScope d' := by
  unfold Tuned SameScope at *
  rw [h]

lemma fixJump_ok (h : d.fixJump target pc = .ok d') : ∃ i j, d.code[pc]? = some i ∧
    Aimed target pc i j ∧ d' = { d with code := d.code.setIfInBounds pc j } := by
  cases hi : d.code[pc]? with
  | none =>
    simp only [fixJump, hi, Option.bind_none] at h
    split at h <;> cases h
  | some i =>
    have hfi : fitsOffset (target - (pc + 1)) = true :=
      Decidable.byContradiction fun hf => by simp [fixJump, hf] at h
    have hmo : i.mode? = some .asbx := Decidable.byContradiction fun hm => by
      simp [fixJump, hfi, hi, withSBx?, withSBx, changed?, hm] at h
    obtain ⟨op, hop, hm⟩ := Option.map_eq_some_iff.mp hmo
    have hj : i.isJump = true := by
      rw [isJump_of_op hop, OpCode.isJump_of_mode hm]
    rcases fixJump_cases hi hj target with ⟨j, ha, hok⟩ | ⟨e, he, -⟩
    · exact ⟨i, j, rfl, ha, Except.ok.inj (h.symm.trans hok)⟩
    · rw [he] at h
      cases h

lemma fixJumps_ok (h : fixJumps target l d = .ok d') :
    ∃ code, Patched l target d.code code ∧ d' = { d with code := code } := by
  induction l generalizing d with
  | nil => exact ⟨d.code, .nil, (Except.ok.inj h).symm⟩
  | cons pc rest ih =>
    rw [fixJumps] at h
    cases hf : d.fixJump target pc with
    | error e => simp [hf] at h
    | ok d1 =>
      obtain ⟨i, j, hi, ha, rfl⟩ := fixJump_ok hf
      simp only [hf] at h
      obtain ⟨code, hp, rfl⟩ := ih h
      exact ⟨code, .cons (fun _ _ _ _ => Aimed.trans) hi ha hp, rfl⟩

lemma emit_ok (h : d.emit i = .ok d') :
    ∃ code, Patched d.pending d.code.size d.code code ∧ d' = d.emitted code i := by
  rw [emit] at h
  cases hf : fixJumps d.code.size d.pending { d with pending := [] } with
  | error e => simp [hf] at h
  | ok d1 =>
    obtain ⟨code, hp, rfl⟩ := fixJumps_ok hf
    simp only [hf] at h
    cases h
    exact ⟨code, hp, rfl⟩

lemma emit_sameScope (h : d.emit i = .ok d') : d.SameScope d' := by
  obtain ⟨code, -, rfl⟩ := emit_ok h
  rfl

lemma emit_keepsOps (h : d.emit i = .ok d') : KeepsOps d.code d'.code := by
  obtain ⟨code, hp, rfl⟩ := emit_ok h
  exact (KeepsOps.patched hp).trans .push

lemma emit_size (h : d.emit i = .ok d') : d'.code.size = d.code.size + 1 := by
  obtain ⟨code, hp, rfl⟩ := emit_ok h
  simp [emitted, hp.size]

lemma closeAt_ok (h : d.closeAt n pc = .ok d') : ∃ i j, d.code[pc]? = some i ∧ Shut n i j ∧
    d' = { d with code := d.code.setIfInBounds pc j } := by
  cases hi : d.code[pc]? with
  | none => simp [closeAt, hi] at h
  | some i =>
    by_cases hc : (i.op? ≠ some .jmp || (i.argA ≠ 0 && i.argA < n + 1)) = true
    · rw [closeAt, hi] at h
      simp only [hc, if_true] at h
      cases h
    · have hj : i.op? = some .jmp ∧ (i.argA = 0 ∨ n < i.argA) := by
        simp at hc
        exact ⟨hc.1, by omega⟩
      obtain ⟨j, hw, hx⟩ := withA?_eq_some (n + 1).toUInt8 hj.1 rfl
      simp only [closeAt, hi, hc, hw] at h
      cases h
      exact ⟨i, j, rfl, ⟨hj.1, hj.2, hx⟩, rfl⟩

lemma closeAll_ok (h : closeAll n l d = .ok d') :
    ∃ code, Remade (fun _ => Shut n) l d.code code ∧ d' = { d with code := code } := by
  induction l generalizing d with
  | nil => exact ⟨d.code, .nil, (Except.ok.inj h).symm⟩
  | cons pc rest ih =>
    rw [closeAll] at h
    cases hc : d.closeAt n pc with
    | error e => simp [hc] at h
    | ok d1 =>
      obtain ⟨i, j, hi, hs, rfl⟩ := closeAt_ok hc
      simp only [hc] at h
      obtain ⟨code, hp, rfl⟩ := ih h
      exact ⟨code, .cons (fun _ _ _ _ => Shut.trans) hi hs hp, rfl⟩

lemma closeAll_lt (h : closeAll n l d = .ok d') : ∀ pc ∈ l, pc < d.code.size := by
  induction l generalizing d with
  | nil => simp
  | cons pc rest ih =>
    rw [closeAll] at h
    cases hc : d.closeAt n pc with
    | error e => simp [hc] at h
    | ok d1 =>
      obtain ⟨i, j, hi, -, rfl⟩ := closeAt_ok hc
      simp only [hc] at h
      intro k hk
      rcases List.mem_cons.mp hk with rfl | hk
      · exact lt_size hi
      · simpa using ih h k hk

lemma declare_ok {name : Bytes} (h : d.declare name = .ok d') :
    d.active.size < maxVariables ∧ d' = { d with
      localVariables := d.localVariables.push ⟨name, .ofNat d.code.size, 0⟩
      active := d.active.push d.localVariables.size } := by
  by_cases hm : maxVariables ≤ d.active.size
  · simp [declare, hm] at h
  · simp [declare, hm] at h
    exact ⟨by omega, h.symm⟩

lemma undeclare_ok (h : d.undeclare n = .ok d') :
    n ≤ d.active.size ∧ (∀ r, n ≤ r → ∀ slot, d.active[r]? = some slot →
      slot < d.localVariables.size) ∧ d' = { d with
        localVariables := d.active.foldl (fun vars slot => vars.modify slot fun record =>
          { record with endPC := Int64.ofNat d.code.size }) d.localVariables n
        active := d.active.take n } := by
  by_cases hc : (d.active.size < n || d.active.any (d.localVariables.size ≤ ·) n) = true
  · simp [undeclare, hc] at h
  · simp only [undeclare, hc] at h
    rw [Bool.or_eq_true, not_or, decide_eq_true_eq, Array.any_iff_exists] at hc
    refine ⟨by omega, fun r hr slot hs => ?_, (Except.ok.inj h).symm⟩
    obtain ⟨hlt, heq⟩ := Array.getElem?_eq_some_iff.mp hs
    refine Decidable.byContradiction fun hle => hc.2 ⟨r, hlt, hr, hlt, ?_⟩
    simp [heq]
    omega

lemma undeclare_names (h : d.undeclare n = .ok d') :
    d'.localVariables.map (·.name) = d.localVariables.map (·.name) := by
  obtain ⟨-, -, rfl⟩ := undeclare_ok h
  dsimp only
  rw [Array.foldl_eq_foldl_extract, ← Array.foldl_toList]
  exact map_name_foldl_modify _ _ _ fun _ => rfl

lemma startVariable_ok {r : Nat} (h : d.startVariable r = .ok d') : ∃ slot,
    d.active[r]? = some slot ∧ slot < d.localVariables.size ∧ d' = { d with
      localVariables := d.localVariables.modify slot fun record =>
        { record with startPC := .ofNat d.code.size } } := by
  cases hr : d.active[r]? with
  | none => simp [startVariable, hr] at h
  | some slot =>
    by_cases hs : d.localVariables.size ≤ slot
    · simp [startVariable, hr, hs] at h
    · simp only [startVariable, hr, hs] at h
      exact ⟨slot, rfl, by omega, (Except.ok.inj h).symm⟩

lemma patchBreaks_ok (h : d.patchBreaks n = .ok d') : n ≤ d.breaks.size ∧ d' = { d with
    lastTarget := if (d.breaks.extract n).toList = [] then d.lastTarget else d.code.size
    pending := d.pending ++ (d.breaks.extract n).toList.flatMap (·.jumps)
    breaks := d.breaks.take n } := by
  have hn : n ≤ d.breaks.size := Decidable.byContradiction fun hn => by
    simp [patchBreaks, Nat.not_le.mp hn] at h
  have hs : d.breaks = d.breaks.take n ++ (d.breaks.extract n).toList.toArray := by
    apply Array.toList_inj.mp
    simp [List.take_of_length_le]
  have hsi : (d.breaks.take n).size = n := by simp [hn]
  have hok := patchBreaks_eq_ok _ hs
  rw [hsi, h] at hok
  exact ⟨hn, Except.ok.inj hok⟩

structure BreaksClosed (b : Block) (k count : Nat) (d : Draft) (l : List Nat)
    (code : Array Instruction) (breaks : Array PendingBreak) : Prop where
  code : Remade (fun _ => Shut b.numActive) l d.code code
  kept : b.isCaptured = false → l = []
  closed : b.isCaptured = true → ∀ (i : Nat) (p : PendingBreak), k ≤ i → i < k + count →
    d.breaks[i]? = some p → b.numActive < p.numActive → p.jumps ⊆ l
  breaks : ∀ i : Nat, breaks[i]? =
    if k ≤ i ∧ i < k + count then (d.breaks[i]?).map (·.lower b.numActive) else d.breaks[i]?

lemma BreaksClosed.none (h : ∀ i, k ≤ i → i < k + count → d.breaks[i]? = none) :
    BreaksClosed b k count d [] d.code d.breaks where
  code := .nil
  kept _ := rfl
  closed _ i p hk hi hp := by
    rw [h i hk hi] at hp
    cases hp
  breaks i := by
    split
    · next hi => simp [h i hi.1 hi.2]
    · rfl

lemma BreaksClosed.cons {p : PendingBreak} {l1 l2 : List Nat} {code code' : Array Instruction}
    {breaks : Array PendingBreak} (hp : d.breaks[k]? = some p)
    (hco : Remade (fun _ => Shut b.numActive) l1 d.code code) (hke : b.isCaptured = false → l1 = [])
    (hcl : b.isCaptured = true → b.numActive < p.numActive → p.jumps ⊆ l1)
    (h : BreaksClosed b (k + 1) count { d with
      code := code, breaks := d.breaks.setIfInBounds k (p.lower b.numActive) } l2 code' breaks) :
    BreaksClosed b k (count + 1) d (l1 ++ l2) code' breaks := by
  have hlt := lt_size hp
  refine ⟨hco.append (fun _ _ _ _ => Shut.trans) h.code, fun hc => by rw [hke hc, h.kept hc]; rfl,
    fun hc i q hk hi hq hl => ?_, fun i => ?_⟩
  · by_cases heq : k = i
    · subst heq
      cases hp.symm.trans hq
      exact fun pc hpc => List.mem_append_left _ (hcl hc hl hpc)
    · have hq' : (d.breaks.setIfInBounds k (p.lower b.numActive))[i]? = some q := by
        rw [Array.getElem?_setIfInBounds_ne heq, hq]
      exact fun pc hpc => List.mem_append_right _ (h.closed hc i q (by omega) (by omega) hq' hl hpc)
  · rw [h.breaks i]
    dsimp only
    by_cases heq : k = i
    · subst heq
      rw [if_neg (by omega), if_pos (by omega), hp, Array.getElem?_setIfInBounds_self_of_lt hlt]
      rfl
    · rw [Array.getElem?_setIfInBounds_ne heq]
      split <;> split <;> first | rfl | omega

lemma closeBreaks_ok (h : closeBreaks b k count d = .ok d') :
    ∃ l code breaks, BreaksClosed b k count d l code breaks ∧
      d' = { d with code := code, breaks := breaks } := by
  induction count generalizing k d with
  | zero =>
    cases h
    exact ⟨_, _, _, .none fun i hk hi => by omega, rfl⟩
  | succ count ih =>
    rw [closeBreaks] at h
    split at h
    · next hn =>
      cases h
      refine ⟨_, _, _, .none fun i hk _ => ?_, rfl⟩
      rw [Array.getElem?_eq_none_iff] at hn ⊢
      omega
    · next p hp =>
      split at h
      · next hl =>
        split at h
        · cases h
        · next d1 hd1 =>
          have hco : ∃ l code, Remade (fun _ => Shut b.numActive) l d.code code ∧
              (b.isCaptured = false → l = []) ∧ (b.isCaptured = true → p.jumps ⊆ l) ∧
              d1 = { d with code := code } := by
            split at hd1
            · next hc =>
              obtain ⟨code, hr, rfl⟩ := closeAll_ok hd1
              exact ⟨_, code, hr, by simp [hc], fun _ _ hpc => hpc, rfl⟩
            · next hc =>
              cases hd1
              exact ⟨[], d.code, .nil, fun _ => rfl, fun hca => absurd hca hc, rfl⟩
          obtain ⟨l1, code, hr, hke, hsu, rfl⟩ := hco
          have hlo : p.lower b.numActive = { p with numActive := b.numActive } := by
            rw [PendingBreak.lower, Nat.min_eq_right (Nat.le_of_lt hl)]
          rw [← hlo] at h
          obtain ⟨l2, code', breaks, hcl, rfl⟩ := ih h
          exact ⟨_, _, _, .cons hp hr hke (fun hc _ => hsu hc) hcl, rfl⟩
      · next hl =>
        have hlo : p.lower b.numActive = p := by
          rw [PendingBreak.lower, Nat.min_eq_left (Nat.le_of_not_lt hl)]
        have hs : d.breaks.setIfInBounds k (p.lower b.numActive) = d.breaks := by
          refine Array.ext_getElem? fun i => ?_
          rw [hlo, Array.getElem?_setIfInBounds]
          split
          · next heq =>
            subst heq
            rw [if_pos (lt_size hp), hp]
          · rfl
        obtain ⟨l2, code', breaks, hcl, rfl⟩ := ih h
        refine ⟨[] ++ l2, code', breaks,
          .cons hp .nil (fun _ => rfl) (fun _ hlt => absurd hlt hl) ?_, rfl⟩
        rw [hs]
        exact hcl

def ScopeClosed (b : Block) (isOutermost : Bool) (d d' : Draft) : Prop :=
  if b.isCaptured && !isOutermost then
    ∃ j d1 d2, asbx .jmp 0 0 = .ok j ∧ emit { d with pending := [] } j = .ok d1 ∧
      closeAll b.numActive (d.code.size :: d.pending) d1 = .ok d2 ∧
      d' = d2.patchToHere (d.code.size :: d.pending)
  else d' = d

def Left (b : Block) (outer : List Block) (d d' : Draft) : Prop :=
  ∃ d1 d2 d3, d.ScopeClosed b outer.isEmpty d1 ∧
    (if b.isLoop then d1.patchBreaks b.firstBreak = .ok d2 else d2 = d1) ∧
    undeclare { d2 with blocks := outer } b.numActive = .ok d3 ∧
    if outer.isEmpty then d' = d3.setFirstFree b.numActive
    else closeBreaks b b.firstBreak (d3.breaks.size - b.firstBreak) (d3.setFirstFree b.numActive) =
      .ok d'

lemma ScopeClosed.keeps (h : d.ScopeClosed b isOutermost d') :
    d.SameScope d' ∧ d'.breaks = d.breaks ∧ KeepsOps d.code d'.code := by
  unfold ScopeClosed at h
  split at h
  · obtain ⟨j, d1, d2, -, he, hc, rfl⟩ := h
    have ho := emit_keepsOps he
    obtain ⟨code, -, rfl⟩ := emit_ok he
    obtain ⟨code', hs, rfl⟩ := closeAll_ok hc
    exact ⟨rfl, rfl, ho.trans (.shut hs)⟩
  · rw [h]
    exact ⟨.refl d, rfl, .refl _⟩

lemma Left.undeclared (h : d.Left b outer d') :
    ∃ d1 d2, (d.SameScope d1 ∧ KeepsOps d.code d1.code) ∧
      undeclare { d1 with blocks := outer } b.numActive = .ok d2 ∧
      d2.SameScope d' ∧ KeepsOps d2.code d'.code := by
  obtain ⟨d1, d2, d3, hs, hl, hu, hb⟩ := h
  obtain ⟨hsa, -, ho⟩ := hs.keeps
  refine ⟨d2, d3, ?_, hu, ?_⟩
  · split at hl
    · rw [(patchBreaks_ok hl).2]
      exact ⟨hsa.trans rfl, ho⟩
    · rw [hl]
      exact ⟨hsa, ho⟩
  · split at hb
    · rw [hb]
      exact ⟨rfl, .refl _⟩
    · obtain ⟨_, _, _, hc, rfl⟩ := closeBreaks_ok hb
      exact ⟨rfl, .shut hc.code⟩

lemma Left.scopes (h : d.Left b outer d') : d'.active.size = b.numActive ∧ d'.blocks = outer := by
  obtain ⟨d1, d2, -, hu, hs, -⟩ := h.undeclared
  obtain ⟨hle, -, heq⟩ := undeclare_ok hu
  simp at hle
  rw [hs, heq]
  exact ⟨by simp [hle], rfl⟩

lemma Left.keepsOps (h : d.Left b outer d') : KeepsOps d.code d'.code := by
  obtain ⟨d1, d2, ⟨-, ho⟩, hu, -, ho'⟩ := h.undeclared
  have hc : d2.code = d1.code := by rw [(undeclare_ok hu).2.2]
  rw [hc] at ho'
  exact ho.trans ho'

end Draft

namespace Gen

variable {g : Generator} {α : Type}

lemma meets_updateOrFail_of {f : Draft → Except GenerateError Draft}
    {Q : Unit → Generator → Prop}
    (h : ∀ d, f g.toDraft = .ok d → Q () { g with toDraft := d }) :
    Meets True g (updateOrFail f) Q := by
  cases hf : f g.toDraft with
  | ok d => simpa [Meets, updateOrFail, hf] using h d hf
  | error e => cases e <;> simp [Meets, updateOrFail, hf]

lemma meets_emit_of {i : Except EncodingFault Instruction} {Q : Nat → Generator → Prop}
    (h : ∀ j d, i = .ok j → g.emit j = .ok d →
      Q g.code.size { g with toDraft := d }) : Meets True g (emit i) Q := by
  cases i with
  | error e => trivial
  | ok j =>
    refine (meets_updateOrFail_of (Q := fun _ g' => Q (g'.code.size - 1) g') ?_).bind fun _ _ h => h
    intro d hd
    have hs := Draft.emit_size hd
    simpa [hs] using h j d rfl hd

lemma meets_jump_of {Q : List Nat → Generator → Prop} (h : ∀ j d, asbx .jmp 0 0 = .ok j →
      Draft.emit { g.toDraft with pending := [] } j = .ok d →
      Q (g.code.size :: g.pending) { g with toDraft := d }) :
    Meets True g jump Q := by
  apply meets_read
  apply meets_update_bind
  exact (meets_emit_of (Q := fun pc => Q (pc :: g.pending)) h).bind fun _ _ h => h

lemma meets_closeScope_of : Meets True g (closeScope b isOutermost) fun _ g' =>
      g'.enclosing = g.enclosing ∧ g.ScopeClosed b isOutermost g'.toDraft := by
  unfold closeScope Draft.ScopeClosed
  split
  · refine (meets_jump_of (Q := fun js g' => g'.enclosing = g.enclosing ∧
      js = g.code.size :: g.pending ∧ ∃ j, asbx .jmp 0 0 = .ok j ∧
        Draft.emit { g.toDraft with pending := [] } j = .ok g'.toDraft)
      fun j d hj hd => ⟨rfl, rfl, j, hj, hd⟩).bind ?_
    rintro js g1 ⟨hen, rfl, j, hj, he⟩
    refine (meets_updateOrFail_of (Q := fun _ g' => g'.enclosing = g.enclosing ∧
      Draft.closeAll b.numActive (g.code.size :: g.pending) g1.toDraft =
        .ok g'.toDraft) fun d hd => ⟨hen, hd⟩).bind ?_
    rintro - g2 ⟨he2, hc⟩
    exact meets_update ⟨he2, j, _, _, hj, he, hc, rfl⟩
  · exact meets_pure ⟨rfl, rfl⟩

lemma meets_leaveBlock_of {outer : List Block} (hb : g.blocks = b :: outer) :
    Meets True g leaveBlock fun _ g' =>
      g'.enclosing = g.enclosing ∧ g.Left b outer g'.toDraft := by
  unfold leaveBlock
  apply meets_read
  rw [hb]
  refine meets_closeScope_of.bind ?_
  rintro - g1 ⟨he1, hs⟩
  have hl : Meets True g1 (endLoop b) fun _ g' => g'.enclosing = g.enclosing ∧
      if b.isLoop then g1.patchBreaks b.firstBreak = .ok g'.toDraft
      else g'.toDraft = g1.toDraft := by
    unfold endLoop
    split
    · exact meets_updateOrFail_of fun d hd => ⟨he1, hd⟩
    · exact meets_pure ⟨he1, rfl⟩
  refine hl.bind ?_
  rintro - g2 ⟨he2, he⟩
  refine (meets_updateOrFail_of (Q := fun _ g' => g'.enclosing = g.enclosing ∧
    Draft.undeclare { g2.toDraft with blocks := outer } b.numActive = .ok g'.toDraft)
    fun d hd => ⟨he2, hd⟩).bind ?_
  rintro - g3 ⟨he3, hu⟩
  apply meets_update_bind
  cases outer with
  | nil => exact meets_pure ⟨he3, _, _, _, hs, he, hu, rfl⟩
  | cons _ _ =>
    exact meets_updateOrFail_of fun d hd =>
      ⟨he3, _, _, _, hs, he, hu, hd⟩

lemma leaveBlock_ok {g' : Generator} {outer : List Block} (hb : g.blocks = b :: outer)
    (h : leaveBlock g = .ok ((), g')) : g'.enclosing = g.enclosing ∧ g.Left b outer g'.toDraft :=
  (meets_leaveBlock_of hb).of_ok h

end Gen

end LuaBytecode
