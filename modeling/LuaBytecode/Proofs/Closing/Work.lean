import LuaBytecode.Proofs.Closing.Blocks

namespace LuaBytecode

open Instruction Draft

variable {i j : Instruction} {d d' : Draft} {held : List Mark} {m : Mark}

def Instruction.Closes (r : Nat) (i : Instruction) : Prop :=
  i.op? = some .jmp ∧ 1 ≤ i.argA ∧ i.argA ≤ r + 1

lemma Instruction.Closes.mono {r r' : Nat} {i : Instruction} (h : i.Closes r) (hr : r ≤ r') :
    i.Closes r' :=
  ⟨h.1, h.2.1, by have := h.2.2; omega⟩

section

variable {n pc target r : Nat} {t : Int}

lemma Aimed.mem_successors (h : Aimed target pc i j) (ht : t ∈ j.successors pc) :
    t = pc + 1 ∨ t = target := by
  obtain ⟨op, -, hju, hx⟩ := h
  have hj : j.isJump = true := by rw [Instruction.isJump_of_op hx.op, hju]
  rcases Instruction.mem_successors ht with ht | ⟨-, hn, -⟩ | ⟨-, ht⟩
  · exact .inl ht
  · rw [hj] at hn
    cases hn
  · rw [hx.argSBx] at ht
    exact .inr (by omega)

lemma Aimed.closes (h : Aimed target pc i j) (hc : i.Closes r) : j.Closes r := by
  obtain ⟨op, hop, -, hx⟩ := h
  cases hop.symm.trans hc.1
  exact ⟨hx.op, by rw [hx.argA]; exact hc.2⟩

lemma Shut.successors (h : Shut n i j) : j.successors pc = i.successors pc := by
  simp [Instruction.successors, h.1, h.2.2.op, h.2.2.argSBx]

lemma Shut.closes (h : Shut n i j) (hn : n < 255) : j.Closes n := by
  have hA : (n + 1).toUInt8.toNat = n + 1 := toNat_toUInt8 (by omega)
  refine ⟨h.2.2.op, ?_⟩
  rw [h.2.2.argA]
  omega

lemma Shut.closes_of (h : Shut n i j) (hn : n < 255) (hc : i.Closes r) : j.Closes r := by
  refine (h.closes hn).mono ?_
  have := h.2.1
  have := hc.2
  omega

lemma Instruction.successors_replaced (hi : i.isPlain = true) (hj : j.isPlain = true)
    (hop : j.op? = i.op? ∨ i.op? = some .call) : j.successors pc ⊆ i.successors pc := by
  intro t ht
  rcases hop with hop | hop
  · cases hi' : i.op? with
    | none => simp [isPlain, hi'] at hi
    | some op =>
      cases op <;> simp_all [successors, isPlain, OpCode.isPlain]
  · rw [successors_isPlain hj ht]
    simp [successors, hop]

end

structure Altered (isOpen isOpen' : Prop) (safe : Int → Prop) (pc : Nat) (i j : Instruction) :
    Prop where
  closure : i.op? = some .closure ∨ j.op? = some .closure → j = i
  closes : ∀ r, i.Closes r → j.Closes r
  flow : ((isOpen' ↔ isOpen) ∧ j.successors pc ⊆ i.successors pc) ∨
    (isOpen ∧ ∀ t ∈ j.successors pc, t = pc + 1 ∨ safe t)

namespace Altered

variable {isOpen isOpen' isOpen'' : Prop} {safe : Int → Prop} {pc target n : Nat} {k : Instruction}

lemma refl (h : isOpen' ↔ isOpen) : Altered isOpen isOpen' safe pc i i :=
  ⟨fun _ => rfl, fun _ h => h, .inl ⟨h, fun _ h => h⟩⟩

lemma trans (h : Altered isOpen isOpen' safe pc i j) (h' : Altered isOpen' isOpen'' safe pc j k) :
    Altered isOpen isOpen'' safe pc i k where
  closure hop := by
    rcases hop with hop | hop
    · have hj := h.closure (.inl hop)
      subst hj
      exact h'.closure (.inl hop)
    · have hk := h'.closure (.inr hop)
      subst hk
      exact h.closure (.inr hop)
  closes r hc := h'.closes r (h.closes r hc)
  flow := by
    rcases h.flow, h'.flow with ⟨⟨hi, hsu⟩ | ⟨ho, hs⟩, ⟨hi', hsu'⟩ | ⟨ho', hs'⟩⟩
    · exact .inl ⟨hi'.trans hi, fun t ht => hsu (hsu' ht)⟩
    · exact .inr ⟨hi.mp ho', hs'⟩
    · exact .inr ⟨ho, fun t ht => hs t (hsu' ht)⟩
    · exact .inr ⟨ho, hs'⟩

lemma aimed (ho : isOpen) (h : Aimed target pc i j) (hs : safe target) :
    Altered isOpen isOpen' safe pc i j where
  closure hop := by
    obtain ⟨op, hi, hj, hx⟩ := h
    rw [hi, hx.op, or_self] at hop
    cases hop
    cases hj
  closes _ := h.closes
  flow := by
    refine .inr ⟨ho, fun t ht => (h.mem_successors ht).imp_right ?_⟩
    rintro rfl
    exact hs

lemma shut (hi : isOpen' ↔ isOpen) (h : Shut n i j) (hn : n < 255) :
    Altered isOpen isOpen' safe pc i j where
  closure hop := by
    rw [h.1, h.2.2.op, or_self] at hop
    cases hop
  closes _ := h.closes_of hn
  flow := .inl ⟨hi, by rw [h.successors]; exact fun _ h => h⟩

lemma replaced (hif : isOpen' ↔ isOpen) (hi : i.isPlain = true) (hj : j.isPlain = true)
    (hop : j.op? = i.op? ∨ i.op? = some .call) : Altered isOpen isOpen' safe pc i j where
  closure h := by
    rcases h with h | h
    · simp [isPlain, h, OpCode.isPlain] at hi
    · simp [isPlain, h, OpCode.isPlain] at hj
  closes r hc := by simp [isPlain, hc.1, OpCode.isPlain] at hi
  flow := .inl ⟨hif, successors_replaced hi hj hop⟩

end Altered

structure Advances (isOpen isOpen' : Nat → Prop) (safe : Int → Prop)
    (code code' : Array Instruction) : Prop where
  size : code.size ≤ code'.size
  altered : ∀ (pc : Nat) (i : Instruction), code[pc]? = some i →
    ∃ j, code'[pc]? = some j ∧ Altered (isOpen pc) (isOpen' pc) safe pc i j
  added : ∀ (pc : Nat) (j : Instruction), code'[pc]? = some j → code.size ≤ pc →
    j.op? ≠ some .closure ∧ (isOpen' pc ∨ ∀ t ∈ j.successors pc, safe t)

namespace Advances

variable {isOpen isOpen' isOpen'' : Nat → Prop} {safe : Int → Prop}
  {code code' code'' : Array Instruction} {pc target n : Nat} {l : List Nat}

lemma of_remade {R : Nat → Instruction → Instruction → Prop} (h : Remade R l code code')
    (hk : ∀ pc, pc ∉ l → (isOpen' pc ↔ isOpen pc))
    (hm : ∀ pc i j, pc ∈ l → R pc i j → Altered (isOpen pc) (isOpen' pc) safe pc i j) :
    Advances isOpen isOpen' safe code code' where
  size := Nat.le_of_eq h.size.symm
  altered pc i hi := by
    by_cases hpc : pc ∈ l
    · obtain ⟨j, hj, hij⟩ := h.made pc hpc i hi
      exact ⟨j, hj, hm pc i j hpc hij⟩
    · exact ⟨i, by rw [h.kept pc hpc, hi], .refl (hk pc hpc)⟩
  added pc j hj hpc := by
    have := lt_size hj
    rw [h.size] at this
    omega

lemma refl (h : ∀ pc, isOpen' pc ↔ isOpen pc) : Advances isOpen isOpen' safe code code :=
  of_remade (R := fun _ _ _ => False) .nil (fun pc _ => h pc) fun _ _ _ _ h => h.elim

lemma patched (h : Patched l target code code') (hk : ∀ pc, pc ∉ l → (isOpen' pc ↔ isOpen pc))
    (ho : ∀ pc ∈ l, isOpen pc) (hs : safe target) : Advances isOpen isOpen' safe code code' :=
  of_remade h hk fun pc _ _ hpc hij => .aimed (ho pc hpc) hij hs

lemma shut (h : Remade (fun _ => Shut n) l code code') (hi : ∀ pc, isOpen' pc ↔ isOpen pc)
    (hn : n < 255) :
    Advances isOpen isOpen' safe code code' :=
  of_remade h (fun pc _ => hi pc) fun pc _ _ _ hij => .shut (hi pc) hij hn

lemma replaced (hi : code[pc]? = some i) (hpi : i.isPlain = true) (hpj : j.isPlain = true)
    (hop : j.op? = i.op? ∨ i.op? = some .call) (hif : ∀ pc, isOpen' pc ↔ isOpen pc) :
    Advances isOpen isOpen' safe code (code.setIfInBounds pc j) := by
  have hs := getElem?_setIfInBounds_of_some (j := j) hi
  refine ⟨by simp, fun k old hold => ?_, fun k new hn hk => ?_⟩
  · rw [hs]
    split
    · next heq =>
      subst heq
      cases hi.symm.trans hold
      exact ⟨j, rfl, .replaced (hif pc) hpi hpj hop⟩
    · exact ⟨old, hold, .refl (hif k)⟩
  · have := lt_size hn
    simp at this
    omega

lemma push (hi : i.op? ≠ some .closure) (hold : ∀ pc < code.size, isOpen' pc ↔ isOpen pc)
    (hn : isOpen' code.size ∨ ∀ t ∈ i.successors code.size, safe t) :
    Advances isOpen isOpen' safe code (code.push i) := by
  refine ⟨by simp, fun pc j hj => ?_, fun pc j hj hpc => ?_⟩
  · have hlt := lt_size hj
    exact ⟨j, by rw [Array.getElem?_push, if_neg (by omega), hj], .refl (hold pc hlt)⟩
  · have hlt := lt_size hj
    rw [Array.size_push] at hlt
    have heq : pc = code.size := by omega
    subst heq
    rw [Array.getElem?_push, if_pos rfl] at hj
    cases hj
    exact ⟨hi, hn⟩

lemma trans (h : Advances isOpen isOpen' safe code code')
    (h' : Advances isOpen' isOpen'' safe code' code'')
    (hn : ∀ pc, code.size ≤ pc → pc < code'.size → safe (pc + 1)) :
    Advances isOpen isOpen'' safe code code'' := by
  refine ⟨Nat.le_trans h.size h'.size, fun pc i hi => ?_, fun pc k hk hpc => ?_⟩
  · obtain ⟨j, hj, hij⟩ := h.altered pc i hi
    obtain ⟨k, hk, hjk⟩ := h'.altered pc j hj
    exact ⟨k, hk, hij.trans hjk⟩
  · by_cases hlt : pc < code'.size
    · have hj : code'[pc]? = some code'[pc] := Array.getElem?_eq_getElem hlt
      obtain ⟨hop, hf⟩ := h.added pc _ hj hpc
      obtain ⟨k', hk', hjk⟩ := h'.altered pc _ hj
      cases hk.symm.trans hk'
      refine ⟨fun hc => hop ?_, ?_⟩
      · rw [← hjk.closure (.inr hc)]
        exact hc
      · rcases hjk.flow with ⟨hif, hsu⟩ | ⟨-, hs⟩
        · exact hf.imp hif.mpr fun h t ht => h t (hsu ht)
        · exact .inr fun t ht => (hs t ht).elim (fun heq => heq ▸ hn pc hpc hlt) id
    · exact h'.added pc k hk (by omega)

lemma congr (h : Advances isOpen isOpen' safe code code')
    (hif : ∀ pc < code.size, isOpen'' pc ↔ isOpen pc) :
    Advances isOpen'' isOpen' safe code code' := by
  refine ⟨h.size, fun pc i hi => ?_, h.added⟩
  obtain ⟨j, hj, hij⟩ := h.altered pc i hi
  refine ⟨j, hj, ?_⟩
  rw [propext (hif pc (lt_size hi))]
  exact hij

lemma of_iff (h : ∀ pc < code.size, isOpen' pc ↔ isOpen pc) :
    Advances isOpen isOpen' safe code code :=
  congr (.refl fun _ => .rfl) fun pc hpc => (h pc hpc).symm

lemma closure (h : Advances isOpen isOpen' safe code code') (hj : code'[pc]? = some j)
    (hop : j.op? = some .closure) : code[pc]? = some j := by
  by_cases hlt : pc < code.size
  · have hi : code[pc]? = some code[pc] := Array.getElem?_eq_getElem hlt
    obtain ⟨j', hj', hij⟩ := h.altered pc _ hi
    cases hj.symm.trans hj'
    rw [hi, ← hij.closure (.inr hop)]
  · exact absurd hop (h.added pc j hj (by omega)).1

lemma closure_kept (h : Advances isOpen isOpen' safe code code') (hi : code[pc]? = some i)
    (hop : i.op? = some .closure) : code'[pc]? = some i := by
  obtain ⟨j, hj, hij⟩ := h.altered pc i hi
  rw [hj, hij.closure (.inl hop)]

end Advances

lemma Draft.emit_last (h : d.emit i = .ok d') : d'.code[d.code.size]? = some i := by
  obtain ⟨code, hp, rfl⟩ := emit_ok h
  simp [emitted, ← hp.size]

lemma advances_emit (bound bound' : Nat → Prop) (safe : Int → Prop) (h : d.emit i = .ok d')
    (hop : i.op? ≠ some .closure) (hold : ∀ pc < d.code.size, bound' pc ↔ bound pc)
    (hn : bound' d.code.size ∨ ∀ t ∈ i.successors d.code.size, safe t) (hs : safe d.code.size) :
    Advances (fun pc => pc ∈ d.pending ∨ bound pc)
      (fun pc => pc ∈ d'.pending ∨ bound' pc) safe d.code d'.code := by
  obtain ⟨code, hp, rfl⟩ := emit_ok h
  have hpa : Advances (fun pc => pc ∈ d.pending ∨ bound pc) bound safe d.code code :=
    .patched hp (fun pc hpc => by simp [hpc]) (fun pc hpc => .inl hpc) hs
  have hsi : code.size = d.code.size := hp.size
  rw [← hsi] at hold hn
  have hpu : Advances bound (fun pc => pc ∈ (d.emitted code i).pending ∨ bound' pc) safe
      code (code.push i) :=
    .push hop (fun pc hpc => by simp [emitted, hold pc hpc]) (hn.imp_left .inr)
  exact hpa.trans hpu fun pc h h' => by omega

namespace Trace

namespace Layer

variable {l l' : Layer} {pc : Nat} {jumps : List Nat} {level : Nat} {safe : Int → Prop}

def IsBound (l : Layer) (pc : Nat) : Prop :=
  (∃ m ∈ l.held, m.pc = pc) ∨ ∃ p ∈ l.breaks, pc ∈ p.jumps

def IsOpen (l : Layer) (pc : Nat) : Prop := pc ∈ l.pending ∨ l.IsBound pc

def Safe (l : Layer) (size : Nat) (t : Int) : Prop := t ≤ size ∧ ∀ r s, l.startAt r = some s → s ≤ t

structure Placed (l : Layer) : Prop where
  opened : ∀ pc, l.IsOpen pc → pc < l.code.size
  held : ∀ m ∈ l.held, ∀ r s, m.level ≤ r → l.startAt r = some s → m.pc < s
  breaks : ∀ p ∈ l.breaks, ∀ pc ∈ p.jumps, ∀ r s, p.numActive ≤ r → l.startAt r = some s → pc < s
  targets : ∀ t ∈ l.targets, t.pc ≤ l.code.size ∧ t.level ≤ l.active.size ∧
    ∀ r s, r < t.level → l.startAt r = some s → s ≤ t.pc

structure Moves (safe : Int → Prop) (l l' : Layer) : Prop where
  scope : l.SameScope l'.toDraft
  code : Advances l.IsOpen l'.IsOpen safe l.code l'.code
  opened : ∀ pc, l'.IsOpen pc → l.IsOpen pc ∨ ∃ i, l'.code[pc]? = some i ∧ i.isJump = true
  held : ∀ m ∈ l'.held, m ∈ l.held ∨ m.level = l.active.size
  breaks : l'.breaks = l.breaks ∨ (l.isInLoop = true ∧
    ∃ jumps, l'.breaks = l.breaks.push ⟨jumps, l.active.size⟩)
  targets : ∀ t ∈ l'.targets, t ∈ l.targets ∨ t = ⟨l.code.size, l.active.size⟩
  fresh : l'.fresh = l.fresh ∨ l'.fresh = none

abbrev Works (l l' : Layer) : Prop := Moves (l.Safe l'.code.size) l l'

lemma mem_marks : m ∈ marks jumps level ↔ m.pc ∈ jumps ∧ m.level = level := by
  rw [marks, List.mem_map]
  constructor
  · rintro ⟨pc, hpc, rfl⟩
    exact ⟨hpc, rfl⟩
  · rintro ⟨hpc, rfl⟩
    exact ⟨m.pc, hpc, rfl⟩

lemma exists_held_append :
    (∃ m ∈ marks jumps level ++ held, m.pc = pc) ↔ pc ∈ jumps ∨ ∃ m ∈ held, m.pc = pc := by
  simp only [List.mem_append, mem_marks]
  constructor
  · rintro ⟨m, ⟨hm, -⟩ | hm, rfl⟩
    · exact .inl hm
    · exact .inr ⟨m, hm, rfl⟩
  · rintro (hpc | ⟨m, hm, rfl⟩)
    · exact ⟨⟨pc, level⟩, .inl ⟨hpc, rfl⟩, rfl⟩
    · exact ⟨m, .inr hm, rfl⟩

lemma safe_of_le (ht : l.Timed) {size : Nat} {t : Int} (h : l.code.size ≤ t)
    (h' : t ≤ size) : l.Safe size t :=
  ⟨h', fun _ _ hs => Int.le_trans (ht.startAt_le hs) h⟩

lemma Moves.of_same (hs : l.SameScope l'.toDraft)
    (hc : l'.code = l.code) (hi : ∀ pc, l'.IsOpen pc ↔ l.IsOpen pc)
    (hh : ∀ m ∈ l'.held, m ∈ l.held ∨ m.level = l.active.size)
    (hb : l'.breaks = l.breaks ∨ (l.isInLoop = true ∧
      ∃ jumps, l'.breaks = l.breaks.push ⟨jumps, l.active.size⟩))
    (ht : ∀ t ∈ l'.targets, t ∈ l.targets ∨ t = ⟨l.code.size, l.active.size⟩)
    (hf : l'.fresh = l.fresh ∨ l'.fresh = none) : Moves safe l l' :=
  ⟨hs, by rw [hc]; exact .refl hi, fun pc hpc => .inl ((hi pc).mp hpc), hh, hb,
    ht, hf⟩

lemma works_tune (h : l.Tuned d) : Moves safe l { l with toDraft := d } := by
  have hc : d.code = l.code := by rw [h]
  have hp : d.pending = l.pending := by rw [h]
  have hb : d.breaks = l.breaks := by rw [h]
  refine .of_same h.sameScope hc (fun pc => ?_) (fun _ => .inl) (.inl hb) (fun _ => .inl) (.inl rfl)
  rw [IsOpen, IsOpen, IsBound, IsBound, hp, hb]

lemma works_rearrange {targets : List Mark} (hh : ∀ m, m ∈ held ↔ m ∈ l.held)
    (hta : targets ⊆ l.targets) : Moves safe l { l with held, targets } := by
  refine .of_same (.refl _) rfl (fun pc => ?_) (fun m hm => .inl ((hh m).mp hm)) (.inl rfl)
    (fun t ht => .inl (hta ht)) (.inl rfl)
  simp only [IsOpen, IsBound, hh]

lemma works_patchHere (hh : l.held = marks jumps level ++ held) :
    Moves safe l { l with toDraft := l.patchToHere jumps, held } := by
  refine .of_same rfl rfl (fun pc => ?_) (fun m hm => .inl ?_) (.inl rfl) (fun _ => .inl) (.inl rfl)
  · simp only [IsOpen, IsBound, hh, exists_held_append, or_assoc]
    simp only [patchToHere, label, List.mem_append, or_assoc]
  · rw [hh]
    exact List.mem_append_right _ hm

lemma works_addBreak (hh : l.held = marks jumps level ++ held) (hl : l.isInLoop = true) :
    Moves safe l { l with toDraft := l.addBreak jumps, held } := by
  refine .of_same rfl rfl (fun pc => ?_) (fun m hm => .inl ?_) (.inr ⟨hl, jumps, rfl⟩)
    (fun _ => .inl) (.inl rfl)
  · have hb : (∃ p ∈ (l.addBreak jumps).breaks, pc ∈ p.jumps) ↔
        pc ∈ jumps ∨ ∃ p ∈ l.breaks, pc ∈ p.jumps := by
      simp only [addBreak, Array.mem_push]
      constructor
      · rintro ⟨p, hp | rfl, hpc⟩
        · exact .inr ⟨p, hp, hpc⟩
        · exact .inl hpc
      · rintro (hpc | ⟨p, hp, hpc⟩)
        · exact ⟨_, .inr rfl, hpc⟩
        · exact ⟨p, .inl hp, hpc⟩
    simp only [IsOpen, IsBound, hh, exists_held_append, hb]
    exact or_congr_right (or_left_comm.trans or_assoc.symm)
  · rw [hh]
    exact List.mem_append_right _ hm

lemma works_patchBack {t : Mark} (hh : l.held = marks jumps level ++ held) (hs : safe t.pc)
    (h : fixJumps t.pc jumps l.toDraft = .ok d) :
    Moves safe l { l with toDraft := d, held } := by
  obtain ⟨code, hpa, rfl⟩ := fixJumps_ok h
  have ho : ∀ pc, l.IsOpen pc ↔ pc ∈ jumps ∨
      IsOpen { l with toDraft := { l.toDraft with code := code }, held } pc := fun pc => by
    simp only [IsOpen, IsBound, hh, exists_held_append]
    exact (or_congr_right or_assoc).trans or_left_comm
  refine ⟨rfl, .patched hpa (fun pc hpc => ?_) (fun pc hpc => (ho pc).mpr (.inl hpc)) hs,
    fun pc hpc => .inl ((ho pc).mpr (.inr hpc)), fun m hm => .inl ?_, .inl rfl, fun _ => .inl,
    .inl rfl⟩
  · rw [ho]
    exact (or_iff_right hpc).symm
  · rw [hh]
    exact List.mem_append_right _ hm

lemma works_close {n : Nat} (hn : n < 255) (h : closeAll n jumps l.toDraft = .ok d) :
    Moves safe l { l with toDraft := d } := by
  obtain ⟨code, hs, rfl⟩ := closeAll_ok h
  exact ⟨rfl, .shut hs (fun _ => .rfl) hn, fun _ => .inl, fun _ => .inl, .inl rfl, fun _ => .inl,
    .inl rfl⟩

lemma works_replace (h : l.code[pc]? = some i) (hi : i.isPlain = true) (hj : j.isPlain = true)
    (hop : j.op? = i.op? ∨ i.op? = some .call) :
    Moves safe l { l with toDraft := { l.toDraft with code := l.code.setIfInBounds pc j } } :=
  ⟨rfl, .replaced h hi hj hop fun _ => .rfl, fun _ => .inl, fun _ => .inl, .inl rfl, fun _ => .inl,
    .inl rfl⟩

def IsOpenWith (l : Layer) (pending : List Nat) (held : List Mark) (pc : Nat) : Prop :=
  pc ∈ pending ∨ (∃ m ∈ held, m.pc = pc) ∨ ∃ p ∈ l.breaks, pc ∈ p.jumps

lemma works_emission {d0 : Draft} (ht : ∀ t : Int, l.code.size ≤ t → t ≤ d.code.size → safe t)
    (hs : l.SameScope d0) (hb : d0.breaks = l.breaks) (h : d0.emit i = .ok d)
    (hop : i.op? ≠ some .closure)
    (hc : Advances l.IsOpen (l.IsOpenWith d0.pending held) safe l.code d0.code)
    (hn : (∃ m ∈ held, m.pc = d0.code.size) ∨ i.isPlain = true)
    (hh : ∀ m ∈ held, m ∈ l.held ∨ (m.level = l.active.size ∧
      ((m.pc = d0.code.size ∧ i.isJump = true) ∨ l.IsOpen m.pc))) :
    Moves safe l { l with toDraft := d, held } := by
  have hsi := emit_size h
  have hle := hc.size
  have he : d.breaks = l.breaks ∧ d.pending = [] := by
    obtain ⟨code, -, rfl⟩ := emit_ok h
    exact ⟨hb, rfl⟩
  have hbo : ∀ pc, IsBound { l with toDraft := d, held } pc ↔ l.IsOpenWith [] held pc := by
    intro pc
    simp only [IsBound, IsOpenWith, he.1, List.not_mem_nil, false_or]
  have hl := advances_emit (l.IsOpenWith [] held) (IsBound { l with toDraft := d, held })
    safe h hop (fun pc _ => hbo pc) ?_ (ht _ (by omega) (by omega))
  · refine ⟨hs.trans (emit_sameScope h), hc.trans (hl.congr fun pc _ => ?_)
      fun pc _ _ => ht _ (by omega) (by omega), fun pc hpc => ?_,
      fun m hm => (hh m hm).imp_right (·.1), .inl he.1, fun _ => .inl, .inl rfl⟩
    · simp only [IsOpenWith, List.not_mem_nil, false_or]
    · rcases hpc with hpc | ⟨m, hm, rfl⟩ | hpc
      · rw [show (d.pending = []) from he.2] at hpc
        cases hpc
      · rcases hh m hm with hm | ⟨-, ⟨heq, hj⟩ | ho⟩
        · exact .inl (.inr (.inl ⟨m, hm, rfl⟩))
        · exact .inr ⟨i, heq ▸ emit_last h, hj⟩
        · exact .inl ho
      · rw [show d.breaks = l.breaks from he.1] at hpc
        exact .inl (.inr (.inr hpc))
  · refine hn.imp (fun hm => .inl hm) fun hi t hsu => ?_
    rw [successors_isPlain hi hsu]
    exact ht _ (by omega) (by omega)

lemma works_emission₂ {d1 : Draft} (ht : ∀ t : Int, l.code.size ≤ t → t ≤ d'.code.size → safe t)
    (hi : i.isJump = false) (hop : i.op? ≠ some .closure) (h : l.emit i = .ok d)
    (hsc : d.SameScope d1) (hc : d1.code = d.code) (hb : d1.breaks = d.breaks)
    (h' : d1.emit j = .ok d') (hop' : j.op? ≠ some .closure)
    (ho : ∀ pc ≤ l.code.size, l.IsOpenWith d1.pending held pc ↔ l.IsBound pc)
    (hn : (∃ m ∈ held, m.pc = l.code.size + 1) ∨ j.isPlain = true) (hh : ∀ m ∈ held, m ∈ l.held ∨
      (m.level = l.active.size ∧ m.pc = l.code.size + 1 ∧ j.isJump = true)) :
    Moves safe l { l with toDraft := d', held } := by
  have hs := emit_size h
  have hs' := emit_size h'
  rw [hc] at hs'
  have he : d.breaks = l.breaks ∧ d.pending = [] := by
    obtain ⟨code, -, rfl⟩ := emit_ok h
    exact ⟨rfl, rfl⟩
  have hf := advances_emit l.IsBound l.IsBound safe h hop (fun _ _ => .rfl)
    (.inr fun t hsu => ?_) (ht _ (Int.le_refl _) (by omega))
  · simp only [he.2, List.not_mem_nil, false_or] at hf
    refine works_emission ht ((emit_sameScope h).trans hsc) (hb.trans he.1) h'
      hop' ?_ (by rw [hc, hs]; exact hn)
      fun m hm => (hh m hm).imp_right fun h => ⟨h.1, .inl ⟨by rw [hc, hs, h.2.1], h.2.2⟩⟩
    rw [hc]
    exact hf.trans (.of_iff fun pc _ => ho pc (by omega))
      fun pc _ _ => ht _ (by omega) (by omega)
  · refine ht _ ?_ ?_ <;> rcases mem_successors hsu with
      h | ⟨-, -, h⟩ | ⟨h, -⟩ <;> first | omega | simp [hi] at h

lemma op_ne_closure_of_isPlain (h : i.isPlain = true) : i.op? ≠ some .closure := fun hop => by
  simp [isPlain, hop, OpCode.isPlain] at h

lemma op_ne_closure_of_isJump (h : i.isJump = true) : i.op? ≠ some .closure := fun hop => by
  simp [isJump, hop, OpCode.isJump] at h

lemma op_ne_closure_of_jmp (h : asbx .jmp 0 0 = .ok j) : j.op? ≠ some .closure := fun hop => by
  rw [(op?_of_asbx h).op] at hop
  cases hop

lemma isJump_of_jmp (h : asbx .jmp 0 0 = .ok j) : j.isJump = true := isJump_of_op (op?_of_asbx h).op

lemma held_of_marks (P : Nat → Prop) (hP : ∀ pc ∈ jumps, P pc)
    (hm : m ∈ marks jumps l.active.size ++ l.held) :
    m ∈ l.held ∨ (m.level = l.active.size ∧ P m.pc) := by
  rcases List.mem_append.mp hm with hm | hm
  · exact .inr ⟨(mem_marks.mp hm).2, hP _ (mem_marks.mp hm).1⟩
  · exact .inl hm

inductive Rescopes (l : Layer) : Layer → Prop
  | declare {name : Bytes} {b : Block} {outer : List Block} {d : Draft}
      (hblocks : l.blocks = b :: outer) (hname : b.isLoop = true → isHidden name = true)
      (h : l.declare name = .ok d) :
      Rescopes l { l with toDraft := d, fresh := some l.localVariables.size }
  | start {r slot pc : Nat} {v : LocalVariable} {i : Instruction} {d : Draft}
      (hfresh : l.fresh = some slot) (hslot : l.active[r]? = some slot)
      (hv : l.localVariables[slot]? = some v) (hstart : v.startPC = .ofNat pc)
      (hpc : pc + 1 = l.code.size) (hi : l.code[pc]? = some i)
      (hop : i.op? = some .closure) (ha : i.argA = r) (htargets : ∀ t ∈ l.targets, t.level ≤ r)
      (h : l.startVariable r = .ok d) :
      Rescopes l { l with toDraft := d, fresh := none }
  | enter (hblocks : l.blocks ≠ []) (isLoop : Bool) :
      Rescopes l { l with toDraft := l.enterBlock isLoop }

lemma Step.moves (h : l.Step l') (hn : ∀ b ∈ l.blocks, b.numActive < 255)
    (ht : l.code.size < l'.code.size → ∀ t : Int, l.code.size ≤ t → t ≤ l'.code.size → safe t)
    (hm : ∀ t ∈ l.targets, l.active.size ≤ t.level → safe t.pc) :
    Moves safe l l' ∨ l.Rescopes l' := by
  cases h with
  | tune h => exact .inl (works_tune h)
  | label =>
    exact .inl (.of_same rfl rfl (fun _ => .rfl) (fun _ => .inl) (.inl rfl)
      (fun _ => .inl) (.inl rfl))
  | aim _ =>
    refine .inl (.of_same rfl rfl (fun _ => .rfl) (fun _ => .inl) (.inl rfl)
      (fun t ht => ?_) (.inl rfl))
    exact (List.mem_cons.mp ht).symm
  | rearrange hh hta => exact .inl (works_rearrange hh hta)
  | emit hi h =>
    have hs := emit_size h
    exact .inl (works_emission (ht (by dsimp only; omega)) (.refl _) rfl h
      (op_ne_closure_of_isPlain hi) (.refl fun _ => .rfl) (.inr hi) fun _ => .inl)
  | @pair i j d d' target jumps level held hi hop hj hh h h' =>
    have hs := emit_size h
    have hs' := emit_size h'
    dsimp only at hs hs'
    refine .inl (works_emission₂ (ht (by dsimp only; omega)) hi hop h (by rfl) (by rfl) (by rfl) h'
      (op_ne_closure_of_isPlain hj) (fun pc _ => ?_) (.inr hj) fun m hm => .inl ?_)
    · simp only [IsOpenWith, IsBound, hh, exists_held_append, or_assoc]
    · rw [hh]
      exact List.mem_append_right _ hm
  | @branch i j d d' hi hop hj h h' =>
    have hpe : d.pending = [] := by
      obtain ⟨code, -, rfl⟩ := emit_ok h
      rfl
    have hs := emit_size h
    have hs' := emit_size h'
    refine .inl (works_emission₂ (ht (by dsimp only; omega)) hi hop h (.refl d) rfl rfl h'
      (op_ne_closure_of_jmp hj) (fun pc hpc => ?_) (.inl (exists_held_append.mpr (.inl (by simp))))
      fun m hm => held_of_marks (fun pc => pc = l.code.size + 1 ∧ j.isJump = true)
        (by simp [isJump_of_jmp hj]) hm)
    have hne : pc ≠ l.code.size + 1 := by omega
    rw [IsOpenWith, exists_held_append]
    simp [IsBound, hpe, hne]
  | jump hj h =>
    have hs := emit_size h
    dsimp only at hs
    refine .inl (works_emission (ht (by dsimp only; omega)) (by rfl) (by rfl) h
      (op_ne_closure_of_jmp hj) (.of_iff fun pc hpc => ?_)
      (.inl (exists_held_append.mpr (.inl (by simp))))
      fun m hm => held_of_marks (fun pc => (pc = l.code.size ∧ _) ∨ l.IsOpen pc) ?_ hm)
    · have hne : pc ≠ l.code.size := by omega
      rw [IsOpenWith, exists_held_append]
      simp [IsOpen, IsBound, hne, or_assoc]
    · intro pc hpc
      exact (List.mem_cons.mp hpc).imp (⟨·, isJump_of_jmp hj⟩) .inl
  | loopJump hj _ h =>
    have hs := emit_size h
    refine .inl (works_emission (ht (by dsimp only; omega)) (.refl _) rfl h
      (op_ne_closure_of_isJump hj) (.of_iff fun pc hpc => ?_)
      (.inl (exists_held_append.mpr (.inl (by simp))))
      fun m hm => held_of_marks (fun pc => (pc = l.code.size ∧ _) ∨ l.IsOpen pc) (by simp [hj]) hm)
    have hne : pc ≠ l.code.size := by omega
    rw [IsOpenWith, exists_held_append]
    simp [IsOpen, IsBound, hne]
  | patchHere hh => exact .inl (works_patchHere hh)
  | patchBack hh hta hl h => exact .inl (works_patchBack hh (hm _ hta hl) h)
  | close _ hb h => exact .inl (works_close (hn _ (by simp [hb])) h)
  | replace h hi hj hop => exact .inl (works_replace h hi hj hop)
  | addBreak hh hlo => exact .inl (works_addBreak hh hlo)
  | declare hb hna h => exact .inr (.declare hb hna h)
  | start hf hsl hv hs hpc hi hop ha hta h =>
    exact .inr (.start hf hsl hv hs hpc hi hop ha hta h)
  | enter hb isLoop => exact .inr (.enter hb isLoop)
  | find _ =>
    exact .inl (.of_same rfl rfl (fun _ => .rfl) (fun _ => .inl) (.inl rfl)
      (fun _ => .inl) (.inr rfl))

lemma Step.works (h : l.Step l') (ht : l.Timed) (hp : l.Placed)
    (hn : ∀ b ∈ l.blocks, b.numActive < 255) : l.Works l' ∨ l.Rescopes l' := by
  have hsi := h.keepsOps.size_le
  refine h.moves hn (fun _ t => safe_of_le ht) fun m hm hl => ?_
  obtain ⟨hpc, -, hst⟩ := hp.targets m hm
  refine ⟨by omega, fun r s hs => hst r s ?_ hs⟩
  have := lt_of_startAt hs
  omega

end Layer

end Trace

end LuaBytecode
