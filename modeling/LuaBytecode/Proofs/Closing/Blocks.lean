import LuaBytecode.Proofs.Scoping.Lexical
import Mathlib.Data.List.Nodup

namespace LuaBytecode

open Trace

variable {v : LocalVariable} {r j n k : Nat} {bs : List Block} {d2 : Draft}

namespace LocalVariable

def start (v : LocalVariable) : Int := v.startPC.toInt

def stop (v : LocalVariable) : Int := v.endPC.toInt

end LocalVariable

def Prototype.registerOf (f : Prototype) (j : Nat) (v : LocalVariable) : Nat :=
  (f.localVariables.take j).countP fun w => v.start < w.stop

lemma countP_range_mem {l : List Nat} (h : l.Pairwise (· < ·)) (hr : l[r]? = some j) :
    (List.range j).countP (fun i => decide (i ∈ l)) = r := by
  obtain ⟨hlt, rfl⟩ := List.getElem?_eq_some_iff.mp hr
  have hs : l = l.take r ++ l[r] :: l.drop (r + 1) := by simp
  rw [hs, List.pairwise_append, List.pairwise_cons] at h
  obtain ⟨hb, ⟨ha, -⟩, hc⟩ := h
  have hn : (l.take r).Nodup := hb.imp Nat.ne_of_lt
  have hp : ((List.range l[r]).filter fun i => decide (i ∈ l)).Perm (l.take r) := by
    refine (List.perm_ext_iff_of_nodup (List.nodup_range.filter _) hn).mpr fun i => ?_
    rw [List.mem_filter, List.mem_range, decide_eq_true_eq]
    refine ⟨fun ⟨hi, hm⟩ => ?_, fun hi =>
      ⟨hc i hi _ List.mem_cons_self, List.mem_of_mem_take hi⟩⟩
    rw [hs, List.mem_append, List.mem_cons] at hm
    rcases hm with hm | rfl | hm
    · exact hm
    · omega
    · have := ha i hm
      omega
  rw [List.countP_eq_length_filter, hp.length_eq, List.length_take]
  omega

namespace Draft

variable {d d' : Draft} {slot : Nat} {s : Int} {name : Bytes}

def startAt (d : Draft) (r : Nat) : Option Int := (d.variableAt r).map (·.start)

def place (d : Draft) (j : Nat) (s : Int) : Nat := (List.range j).countP fun i =>
    decide (i ∈ d.active) || (d.localVariables[i]?).any fun w => s < w.stop

structure Timed (d : Draft) : Prop where
  increasing : d.active.toList.Pairwise (· < ·)
  started : ∀ (j : Nat) (v : LocalVariable), d.localVariables[j]? = some v → v.start ≤ d.code.size
  ended : ∀ (j : Nat) (v : LocalVariable), d.localVariables[j]? = some v → j ∉ d.active →
    v.stop ≤ d.code.size
  apart : ∀ (i j : Nat) (v w : LocalVariable), d.localVariables[i]? = some v →
    d.localVariables[j]? = some w → i < j → i ∉ d.active → j ∈ d.active → v.stop ≤ w.start

lemma startAt_eq_some : d.startAt r = some s ↔ ∃ j v, d.active[r]? = some j ∧
    d.localVariables[j]? = some v ∧ v.start = s := by
  simp [startAt, variableAt, Option.bind_eq_some_iff]

lemma lt_of_startAt (h : d.startAt r = some s) : r < d.active.size := by
  obtain ⟨j, -, hj, -⟩ := startAt_eq_some.mp h
  exact lt_size hj

lemma startAt_congr (ha : d'.active = d.active) (hl : d'.localVariables = d.localVariables)
    (r : Nat) : d'.startAt r = d.startAt r := by
  rw [startAt, startAt, variableAt, variableAt, ha, hl]

lemma place_congr (ha : d'.active = d.active) (hl : d'.localVariables = d.localVariables)
    (j : Nat) (s : Int) : d'.place j s = d.place j s := by
  rw [place, place, ha, hl]

lemma Timed.congr (h : d.Timed) (ha : d'.active = d.active)
    (hl : d'.localVariables = d.localVariables) (hs : d.code.size ≤ d'.code.size) :
    d'.Timed := by
  refine ⟨by rw [ha]; exact h.increasing, fun j v hv => ?_, fun j v hv hj => ?_, ?_⟩
  · rw [hl] at hv
    have := h.started j v hv
    omega
  · rw [hl] at hv
    rw [ha] at hj
    have := h.ended j v hv hj
    omega
  · rw [ha, hl]
    exact h.apart

lemma Timed.startAt_le (h : d.Timed) (hr : d.startAt r = some s) : s ≤ d.code.size := by
  obtain ⟨j, v, -, hv, rfl⟩ := startAt_eq_some.mp hr
  exact h.started j v hv

lemma Timed.place_eq (h : d.Timed) (hr : d.active[r]? = some j)
    (hv : d.localVariables[j]? = some v) : d.place j v.start = r := by
  have hr' : d.active.toList[r]? = some j := by simpa using hr
  rw [← countP_range_mem h.increasing hr']
  refine List.countP_congr fun i hi => ?_
  have hlt : i < j := List.mem_range.mp hi
  simp only [Bool.or_eq_true, decide_eq_true_eq, Array.mem_toList_iff]
  refine ⟨fun hor => ?_, .inl⟩
  rcases hor with hm | hs
  · exact hm
  · refine Decidable.byContradiction fun ho => ?_
    cases hw : d.localVariables[i]? with
    | none => simp [hw] at hs
    | some w =>
      have := h.apart i j w v hw hv hlt ho (Array.mem_of_getElem? hr)
      simp [hw] at hs
      omega

def Ended (d : Draft) (j : Nat) (v : LocalVariable) : Prop :=
  d.localVariables[j]? = some v ∧ j ∉ d.active

structure Prolongs (d d' : Draft) : Prop where
  startAt : ∀ r (s : Int), d'.startAt r = some s → d.startAt r = some s ∨ s = d.code.size
  ended : ∀ j v, d'.Ended j v →
    d.Ended j v ∧ ∀ s, d'.place j s = d.place j s

lemma Prolongs.of_eq (ha : d'.active = d.active) (hl : d'.localVariables = d.localVariables) :
    d.Prolongs d' where
  startAt r s h := by
    rw [startAt_congr ha hl] at h
    exact .inl h
  ended j v h := by
    rw [Ended, ha, hl] at h
    exact ⟨h, place_congr ha hl j⟩

lemma place_declare (hd : d.declare name = .ok d') (hj : j ≤ d.localVariables.size) (s : Int) :
    d'.place j s = d.place j s := by
  obtain ⟨-, rfl⟩ := declare_ok hd
  refine List.countP_congr fun i hi => ?_
  have hlt : i ≠ d.localVariables.size := by
    have := List.mem_range.mp hi
    omega
  simp [Array.getElem?_push, hlt]

lemma place_startVariable (hd : d.startVariable r = .ok d') (j : Nat) (s : Int) :
    d'.place j s = d.place j s := by
  obtain ⟨slot, -, -, rfl⟩ := startVariable_ok hd
  refine List.countP_congr fun i _ => ?_
  rw [Array.getElem?_modify]
  split
  · cases d.localVariables[i]? <;> exact .rfl
  · exact .rfl

section

variable (hcode : d.code.size < 2 ^ 63)

include hcode

lemma Timed.declare (h : d.Timed) (hd : d.declare name = .ok d') (hr : d.Recorded) :
    d'.Timed := by
  obtain ⟨-, rfl⟩ := declare_ok hd
  have hs : (⟨name, .ofNat d.code.size, 0⟩ : LocalVariable).start = d.code.size :=
    Int64.toInt_ofNat_of_lt hcode
  refine ⟨?_, fun j v hv => ?_, fun j v hv hj => ?_, fun i j v w hv hw hij hi hj => ?_⟩
  · rw [Array.toList_push, List.pairwise_append]
    refine ⟨h.increasing, by simp, fun a ha b hb => ?_⟩
    rw [List.mem_singleton.mp hb]
    exact hr a (Array.mem_toList_iff.mp ha)
  · rw [Array.getElem?_push] at hv
    split at hv
    · cases hv
      exact Int.le_of_eq hs
    · exact h.started j v hv
  · rw [Array.mem_push, not_or] at hj
    rw [Array.getElem?_push, if_neg hj.2] at hv
    exact h.ended j v hv hj.1
  · rw [Array.mem_push, not_or] at hi
    rw [Array.getElem?_push, if_neg hi.2] at hv
    rw [Array.getElem?_push] at hw
    split at hw
    · cases hw
      rw [hs]
      exact h.ended i v hv hi.1
    · next hne =>
      have hj' : j ∈ d.active := (Array.mem_push.mp hj).resolve_right hne
      exact h.apart i j v w hv hw hij hi.1 hj'

lemma Prolongs.declare (hd : d.declare name = .ok d') : d.Prolongs d' := by
  obtain ⟨-, rfl⟩ := declare_ok hd
  refine ⟨fun r s hs => ?_, fun j v ⟨hv, hj⟩ => ?_⟩
  · obtain ⟨j, v, hj, hv, rfl⟩ := startAt_eq_some.mp hs
    rw [Array.getElem?_push] at hj hv
    split at hv
    · cases hv
      exact .inr (Int64.toInt_ofNat_of_lt hcode)
    · next hne =>
      split at hj
      · exact absurd (Option.some.inj hj).symm hne
      · exact .inl (startAt_eq_some.mpr ⟨j, v, hj, hv, rfl⟩)
  · rw [Array.mem_push, not_or] at hj
    rw [Array.getElem?_push, if_neg hj.2] at hv
    exact ⟨⟨hv, hj.1⟩, place_declare hd (Nat.le_of_lt (lt_size hv))⟩

lemma Timed.startVariable (h : d.Timed) (hd : d.startVariable r = .ok d') : d'.Timed := by
  obtain ⟨slot, hs, -, rfl⟩ := startVariable_ok hd
  have hne : ∀ k, k ∉ d.active → slot ≠ k := by
    rintro k hk rfl
    exact hk (Array.mem_of_getElem? hs)
  refine ⟨h.increasing, fun j v hv => ?_, fun j v hv hj => ?_, fun i j v w hv hw hij hi hj => ?_⟩
  · rw [Array.getElem?_modify] at hv
    split at hv
    · obtain ⟨w, -, rfl⟩ := Option.map_eq_some_iff.mp hv
      exact Int.le_of_eq (Int64.toInt_ofNat_of_lt hcode)
    · exact h.started j v hv
  · rw [Array.getElem?_modify, if_neg (hne j hj)] at hv
    exact h.ended j v hv hj
  · rw [Array.getElem?_modify, if_neg (hne i hi)] at hv
    rw [Array.getElem?_modify] at hw
    split at hw
    · obtain ⟨u, -, rfl⟩ := Option.map_eq_some_iff.mp hw
      exact Int.le_trans (h.ended i v hv hi) (Int.le_of_eq (Int64.toInt_ofNat_of_lt hcode).symm)
    · exact h.apart i j v w hv hw hij hi hj

lemma Prolongs.startVariable (hd : d.startVariable r = .ok d') : d.Prolongs d' := by
  obtain ⟨slot, hsl, -, rfl⟩ := startVariable_ok hd
  refine ⟨fun k s hs => ?_, fun j v ⟨hv, hj⟩ => ?_⟩
  · obtain ⟨j, v, hj, hv, rfl⟩ := startAt_eq_some.mp hs
    rw [Array.getElem?_modify] at hv
    split at hv
    · obtain ⟨w, -, rfl⟩ := Option.map_eq_some_iff.mp hv
      exact .inr (Int64.toInt_ofNat_of_lt hcode)
    · exact .inl (startAt_eq_some.mpr ⟨j, v, hj, hv, rfl⟩)
  · have hne : slot ≠ j := by
      rintro rfl
      exact hj (Array.mem_of_getElem? hsl)
    rw [Array.getElem?_modify, if_neg hne] at hv
    exact ⟨⟨hv, hj⟩, place_startVariable hd j⟩

end

def stopped (d : Draft) (v : LocalVariable) : LocalVariable :=
  { v with endPC := .ofNat d.code.size }

lemma getElem?_foldl_modify {α : Type} {f : α → α} (hf : ∀ a, f (f a) = f a) (slots : List Nat)
    (vars : Array α) (j : Nat) : (slots.foldl (fun vars slot => vars.modify slot f) vars)[j]? =
      if j ∈ slots then (vars[j]?).map f else vars[j]? := by
  induction slots generalizing vars with
  | nil => simp
  | cons slot rest ih =>
    rw [List.foldl_cons, ih, Array.getElem?_modify]
    by_cases hs : slot = j
    · cases vars[j]? <;> simp [hs, hf]
    · simp [hs, Ne.symm hs]

structure Undeclares (n : Nat) (d d' : Draft) : Prop where
  size : d'.code.size = d.code.size
  active : d'.active.toList = d.active.toList.take n
  record : ∀ j : Nat, d'.localVariables[j]? =
    if j ∈ d.active.toList.drop n then (d.localVariables[j]?).map d.stopped
    else d.localVariables[j]?
  recorded : ∀ j ∈ d.active.toList.drop n, j < d.localVariables.size

lemma undeclares (h : d.undeclare n = .ok d') : d.Undeclares n d' := by
  obtain ⟨hle, hs, rfl⟩ := undeclare_ok h
  refine ⟨rfl, by simp, fun j => ?_, fun j hj => ?_⟩
  · rw [Array.foldl_eq_foldl_extract, ← Array.foldl_toList]
    refine (getElem?_foldl_modify (f := d.stopped) (fun _ => rfl) _ _ _).trans ?_
    simp [List.take_of_length_le]
  · obtain ⟨k, hk⟩ := List.mem_iff_getElem?.mp hj
    rw [List.getElem?_drop, Array.getElem?_toList] at hk
    exact hs (n + k) (by omega) j hk

lemma Undeclares.congr {e e' : Draft} (h : d.Undeclares n d') (hcode : e.code = d.code)
    (ha : e.active = d.active) (hl : e.localVariables = d.localVariables)
    (hsi : e'.code.size = d'.code.size) (ha' : e'.active = d'.active)
    (hl' : e'.localVariables = d'.localVariables) : e.Undeclares n e' := by
  have hs : e.stopped = d.stopped := by
    funext v
    rw [stopped, stopped, hcode]
  refine ⟨?_, ?_, ?_, ?_⟩
  · rw [hsi, hcode, h.size]
  · rw [ha', ha, h.active]
  · rw [hl', ha, hl, hs]
    exact h.record
  · rw [ha, hl]
    exact h.recorded

lemma Undeclares.mem_active (hd : d.Undeclares n d') :
    j ∈ d.active ↔ j ∈ d'.active ∨ j ∈ d.active.toList.drop n := by
  rw [← Array.mem_toList_iff, ← Array.mem_toList_iff, hd.active, ← List.mem_append,
    List.take_append_drop]

lemma Timed.lt_of_mem (h : d.Timed) {i : Nat} (hd : d.Undeclares n d') (hi : i ∈ d'.active)
    (hj : j ∈ d.active.toList.drop n) : i < j := by
  have hs := h.increasing
  rw [← List.take_append_drop n d.active.toList, List.pairwise_append] at hs
  rw [← Array.mem_toList_iff, hd.active] at hi
  exact hs.2.2 i hi j hj

section

variable (hd : d.Undeclares n d')
include hd

lemma Undeclares.startAt (h : d.Timed)
    (hr : d'.startAt r = some s) : d.startAt r = some s ∧ r < n := by
  obtain ⟨j, v, hj, hv, rfl⟩ := startAt_eq_some.mp hr
  have hj' : d.active[r]? = some j ∧ r < n := by
    rw [← Array.getElem?_toList, hd.active, List.getElem?_take] at hj
    split at hj
    · next hlt => exact ⟨by simpa using hj, hlt⟩
    · cases hj
  refine ⟨startAt_eq_some.mpr ⟨j, v, hj'.1, ?_, rfl⟩, hj'.2⟩
  rw [hd.record, if_neg] at hv
  · exact hv
  · intro hin
    have := h.lt_of_mem hd (Array.mem_of_getElem? hj) hin
    omega

lemma Undeclares.timed (h : d.Timed) (hcode : d.code.size < 2 ^ 63) :
    d'.Timed := by
  have hs := hd.size
  have hst : ∀ v, (d.stopped v).stop = d.code.size := fun _ => Int64.toInt_ofNat_of_lt hcode
  refine ⟨?_, fun j v hv => ?_, fun j v hv hj => ?_, fun i j v w hv hw hij hi hj => ?_⟩
  · rw [hd.active]
    exact h.increasing.sublist (List.take_sublist _ _)
  · rw [hs]
    rw [hd.record] at hv
    split at hv
    · obtain ⟨w, hw, rfl⟩ := Option.map_eq_some_iff.mp hv
      exact h.started j w hw
    · exact h.started j v hv
  · rw [hs]
    rw [hd.record] at hv
    split at hv
    · obtain ⟨w, -, rfl⟩ := Option.map_eq_some_iff.mp hv
      exact Int.le_of_eq (hst w)
    · next hin => exact h.ended j v hv fun hm => (hd.mem_active.mp hm).elim hj hin
  · have hj' : j ∉ d.active.toList.drop n := fun hin => by
      have := h.lt_of_mem hd hj hin
      omega
    have hi' : i ∉ d.active.toList.drop n := fun hin => by
      have := h.lt_of_mem hd hj hin
      omega
    rw [hd.record, if_neg hi'] at hv
    rw [hd.record, if_neg hj'] at hw
    have ho : i ∉ d.active := fun hm => (hd.mem_active.mp hm).elim hi hi'
    exact h.apart i j v w hv hw hij ho (hd.mem_active.mpr (.inl hj))

lemma Undeclares.place (hcode : d.code.size < 2 ^ 63)
    (hs : s < d.code.size) (j : Nat) : d'.place j s = d.place j s := by
  refine List.countP_congr fun i _ => ?_
  rw [hd.record]
  split
  · next hin =>
    have hsl : i < d.localVariables.size := hd.recorded i hin
    have ha : i ∈ d.active := hd.mem_active.mpr (.inr hin)
    have hst : s < (d.stopped d.localVariables[i]).stop := by
      rw [stopped, LocalVariable.stop, Int64.toInt_ofNat_of_lt hcode]
      exact hs
    simp [hsl, ha, hst]
  · next hin =>
    have hi : i ∈ d.active ↔ i ∈ d'.active := ⟨fun hm => (hd.mem_active.mp hm).resolve_right hin,
        fun hm => hd.mem_active.mpr (.inl hm)⟩
    simp [hi]

lemma Undeclares.ended (he : d'.Ended j v) : d.Ended j v ∨ ∃ r w, n ≤ r ∧ d.active[r]? = some j ∧
      d.localVariables[j]? = some w ∧ v = d.stopped w := by
  obtain ⟨hv, hj⟩ := he
  rw [hd.record] at hv
  split at hv
  · next hin =>
    obtain ⟨w, hw, rfl⟩ := Option.map_eq_some_iff.mp hv
    obtain ⟨k, hk⟩ := List.mem_iff_getElem?.mp hin
    rw [List.getElem?_drop, Array.getElem?_toList] at hk
    exact .inr ⟨n + k, w, Nat.le_add_right n k, hk, hw, rfl⟩
  · next hin => exact .inl ⟨hv, fun hm => (hd.mem_active.mp hm).elim hj hin⟩

end

lemma place_finished (hd : d.active = #[]) (hj : j ≤ d.localVariables.size) (s : Int) :
    d.place j s = (d.localVariables.toList.take j).countP fun w => s < w.stop := by
  induction j with
  | zero => rfl
  | succ j ih =>
    have hlt : j < d.localVariables.size := by omega
    rw [place] at ih ⊢
    rw [List.range_succ, List.countP_append, ih (by omega), List.take_add_one]
    simp [hd, hlt]

end Draft

def LoopsHidden (hidden : Nat → Prop) : List Block → (active : Nat) → Prop
  | [], _ => True
  | b :: outer, n =>
    (b.isLoop = true → b.isCaptured = false ∧ ∀ r, b.numActive ≤ r → r < n → hidden r) ∧
      LoopsHidden hidden outer b.numActive

namespace LoopsHidden

variable {hidden hidden' : Nat → Prop} {bs' : List Block}

lemma mono (h : LoopsHidden hidden bs n) (hbs : Ranked bs n)
    (hh : ∀ r, r < n → hidden r → hidden' r) : LoopsHidden hidden' bs n := by
  induction bs generalizing n with
  | nil => trivial
  | cons b outer ih =>
    refine ⟨fun hl => ⟨(h.1 hl).1, fun r hr hlt => hh r hlt ((h.1 hl).2 r hr hlt)⟩, ?_⟩
    have hle := hbs.1
    exact ih h.2 hbs.2 fun r hr => hh r (by omega)

lemma markBlock (h : LoopsHidden hidden bs n) (hr : r < n) (hv : ¬ hidden r)
    (hm : Draft.markBlock r bs = some bs') : LoopsHidden hidden bs' n := by
  induction bs generalizing bs' n with
  | nil => cases hm
  | cons b outer ih =>
    rw [Draft.markBlock] at hm
    split at hm
    · next hlt =>
      obtain ⟨outer', ho, rfl⟩ := Option.map_eq_some_iff.mp hm
      exact ⟨h.1, ih h.2 hlt ho⟩
    · cases hm
      exact ⟨fun hl => absurd ((h.1 hl).2 r (by omega) hr) hv, h.2⟩

end LoopsHidden

lemma Nested.firstBreak_le (h : Nested bs n k) : ∀ b ∈ bs, b.firstBreak ≤ k := by
  induction bs generalizing n k with
  | nil => simp
  | cons b outer ih =>
    intro c hc
    rcases List.mem_cons.mp hc with rfl | hc
    · exact h.2.1
    · exact Nat.le_trans (ih h.2.2.2.2 c hc) h.2.1

namespace Draft

variable {d d' : Draft} {b : Block} {outer : List Block} {l : List Nat} {name : Bytes}

def HiddenAt (d : Draft) (r : Nat) : Prop := ∀ v, d.variableAt r = some v → isHidden v.name = true

structure Nests (d : Draft) : Prop where
  nested : Nested d.blocks d.active.size d.breaks.size
  within : ∀ b ∈ d.blocks, ∀ k p, k < b.firstBreak →
    d.breaks[k]? = some p → p.numActive ≤ b.numActive
  below : ∀ p ∈ d.breaks, p.numActive ≤ d.active.size
  loops : LoopsHidden d.HiddenAt d.blocks d.active.size

lemma hiddenAt_of_names (ha : d'.active[r]? = d.active[r]?)
    (hl : d'.localVariables.map (·.name) = d.localVariables.map (·.name)) (h : d.HiddenAt r) :
    d'.HiddenAt r := by
  intro v hv
  obtain ⟨slot, hs, hv⟩ := Option.bind_eq_some_iff.mp hv
  have hn : (d.localVariables[slot]?).map (·.name) = some v.name := by
    have := congrArg (·[slot]?) hl
    simpa [hv] using this.symm
  obtain ⟨w, hw, hwn⟩ := Option.map_eq_some_iff.mp hn
  rw [← hwn]
  exact h w (by rw [variableAt, ← ha, hs]; exact hw)

lemma Nests.scope (h : d.Nests) (ha : d'.active = d.active)
    (hl : d'.localVariables = d.localVariables) (hb : d'.blocks = d.blocks) :
    LoopsHidden d'.HiddenAt d'.blocks d'.active.size := by
  rw [ha, hb]
  exact h.loops.mono h.nested.ranked fun r _ => hiddenAt_of_names (by rw [ha]) (by rw [hl])

lemma Nests.congr (h : d.Nests) (ha : d'.active = d.active)
    (hl : d'.localVariables = d.localVariables) (hb : d'.blocks = d.blocks)
    (hbr : d'.breaks = d.breaks) : d'.Nests := by
  refine ⟨?_, ?_, ?_, h.scope ha hl hb⟩
  · rw [ha, hb, hbr]
    exact h.nested
  · rw [hb, hbr]
    exact h.within
  · rw [ha, hbr]
    exact h.below

lemma Nests.addBreak (h : d.Nests) (ha : d'.active = d.active)
    (hl : d'.localVariables = d.localVariables) (hb : d'.blocks = d.blocks)
    (hlo : d.isInLoop = true) {jumps : List Nat}
    (hbr : d'.breaks = d.breaks.push ⟨jumps, d.active.size⟩) : d'.Nests := by
  refine ⟨?_, fun b hm k p hk hp => ?_, fun p hp => ?_, h.scope ha hl hb⟩
  · rw [ha, hb, hbr, Array.size_push]
    exact h.nested.addBreak hlo
  · rw [hb] at hm
    have hle := Nested.firstBreak_le h.nested b hm
    rw [hbr, Array.getElem?_push, if_neg (by omega)] at hp
    exact h.within b hm k p hk hp
  · rw [ha]
    rw [hbr] at hp
    rcases Array.mem_push.mp hp with hp | rfl
    · exact h.below p hp
    · exact .refl

lemma Nests.declare (h : d.Nests) (hb : d.blocks = b :: outer)
    (hn : b.isLoop = true → isHidden name = true) (hre : d.Recorded)
    (hd : d.declare name = .ok d') : d'.Nests := by
  obtain ⟨-, rfl⟩ := declare_ok hd
  have hne : d.blocks ≠ [] := by simp [hb]
  have hsi : d.active.size ≤ (d.active.push d.localVariables.size).size := by simp
  -- The registers below the new one hold the same variables.
  have hk : ∀ r, r < d.active.size → d.HiddenAt r → HiddenAt { d with
      localVariables := d.localVariables.push ⟨name, .ofNat d.code.size, 0⟩
      active := d.active.push d.localVariables.size } r := by
    intro r hlt hh v hv
    obtain ⟨slot, hs, hv⟩ := Option.bind_eq_some_iff.mp hv
    rw [Array.getElem?_push, if_neg (by omega)] at hs
    have hs' := hre slot (Array.mem_of_getElem? hs)
    rw [Array.getElem?_push, if_neg (by omega)] at hv
    exact hh v (by rw [variableAt, hs]; exact hv)
  refine ⟨h.nested.declare hne hsi, h.within, fun p hp => Nat.le_trans (h.below p hp) hsi, ?_⟩
  have hl := h.loops
  have hr := h.nested.ranked
  rw [hb] at hr hl ⊢
  refine ⟨fun hlo => ⟨(hl.1 hlo).1, fun r hle hlt => ?_⟩, ?_⟩
  · rw [Array.size_push] at hlt
    by_cases heq : r = d.active.size
    · intro v hv
      subst heq
      simp [variableAt] at hv
      rw [← hv]
      exact hn hlo
    · have hlt' : r < d.active.size := by omega
      exact hk r hlt' ((hl.1 hlo).2 r hle hlt')
  · refine hl.2.mono hr.2 fun r hlt => hk r ?_
    have := hr.1
    omega

lemma Nests.startVariable (h : d.Nests) (hd : d.startVariable r = .ok d') : d'.Nests := by
  obtain ⟨slot, -, -, rfl⟩ := startVariable_ok hd
  refine ⟨h.nested, h.within, h.below,
    h.loops.mono h.nested.ranked fun k _ => hiddenAt_of_names rfl ?_⟩
  dsimp only
  exact map_name_modify _ _ _ fun _ => rfl

lemma Nests.enter (h : d.Nests) (hne : d.blocks ≠ []) (isLoop : Bool) :
    (d.enterBlock isLoop).Nests := by
  refine ⟨h.nested.enter hne isLoop, fun b hm k p hk hp => ?_, h.below, ?_⟩
  · rcases List.mem_cons.mp hm with rfl | hm
    · exact h.below p (Array.mem_of_getElem? hp)
    · exact h.within b hm k p hk hp
  · refine ⟨fun _ => ⟨rfl, fun r hle hlt => ?_⟩, h.loops⟩
    change d.active.size ≤ r at hle
    change r < d.active.size at hlt
    omega

def Marks (name : Bytes) (d d' : Draft) : Prop := d'.blocks = d.blocks ∨
    ∃ r, d.register name = .ok (some r) ∧ markBlock r d.blocks = some d'.blocks

lemma lastNamed_eq_some (h : d.lastNamed name n = .ok (some r)) :
    ∃ v, d.variableAt r = some v ∧ v.name = name := by
  induction n with
  | zero => cases h
  | succ n ih =>
    rw [lastNamed] at h
    split at h
    · next v hv =>
      split at h
      · next hn =>
        cases h
        exact ⟨v, hv, by simpa using hn⟩
      · exact ih h
    · cases h

lemma Nests.touched (h : d.Nests) (hna : isHidden name = false) (ht : d.Touched d')
    (hm : Marks name d d') : d'.Nests := by
  have ha : d'.active = d.active := by rw [ht.eq]
  have hl : d'.localVariables = d.localVariables := by rw [ht.eq]
  have hbr : d'.breaks = d.breaks := by rw [ht.eq]
  have hs : ∀ b' ∈ d'.blocks, ∃ b ∈ d.blocks, b.shape = b'.shape := by
    intro b' hb'
    have : b'.shape ∈ d.blocks.map Block.shape := ht.shapes ▸ List.mem_map_of_mem hb'
    exact List.mem_map.mp this
  have hhi : ∀ r, d.HiddenAt r → d'.HiddenAt r := fun r =>
    hiddenAt_of_names (by rw [ha]) (by rw [hl])
  have hn : Nested d'.blocks d'.active.size d'.breaks.size := by
    rw [ha, hbr]
    exact h.nested.congr ht.shapes
  refine ⟨hn, fun b' hb' k p hk hp => ?_, ?_, ?_⟩
  · obtain ⟨b, hb, heq⟩ := hs b' hb'
    have hf : b.firstBreak = b'.firstBreak := congrArg (·.1) heq
    have hnu : b.numActive = b'.numActive := congrArg (·.2.1) heq
    rw [hbr] at hp
    rw [← hnu]
    exact h.within b hb k p (by omega) hp
  · rw [ha, hbr]
    exact h.below
  · rw [ha]
    have hra : Ranked d.blocks d.active.size := h.nested.ranked
    rcases hm with hb | ⟨r, hr, hb⟩
    · rw [hb]
      exact h.loops.mono hra fun r _ => hhi r
    · obtain ⟨v, hv, hvn⟩ := lastNamed_eq_some hr
      have hlt : r < d.active.size := by
        obtain ⟨slot, hsl, -⟩ := Option.bind_eq_some_iff.mp hv
        exact lt_size hsl
      have hv' : ¬ d.HiddenAt r := fun hh => by
        have := hh v hv
        rw [hvn, hna] at this
        cases this
      have hma := h.loops.markBlock hlt hv' hb
      exact hma.mono (hra.congr ht.shapes) fun r _ => hhi r

structure Ends (b : Block) (outer : List Block) (l : List Nat) (d d' : Draft) : Prop where
  code : Remade (fun _ => Shut b.numActive) l d.code d'.code
  closed : b.isCaptured = true → b.isLoop = false → ∀ i p,
    b.firstBreak ≤ i → d.breaks[i]? = some p → b.numActive < p.numActive → p.jumps ⊆ l
  pending : ∀ pc, pc ∈ d'.pending ↔ pc ∈ d.pending ∨ (b.isLoop = true ∧
    ∃ i p, b.firstBreak ≤ i ∧ d.breaks[i]? = some p ∧ pc ∈ p.jumps)
  breaks : ∀ i : Nat, d'.breaks[i]? = if i < b.firstBreak then d.breaks[i]?
    else if b.isLoop then none else (d.breaks[i]?).map (·.lower b.numActive)
  undeclared : ∃ d1 d2, d.SameScope d1 ∧ d1.code = d.code ∧
    undeclare { d1 with blocks := outer } b.numActive = .ok d2 ∧ d2.SameScope d'
  lastTarget : d'.lastTarget = d.lastTarget ∨ d'.lastTarget = d.code.size

lemma mem_extract_iff {α : Type} {xs : Array α} {a : α} :
    a ∈ (xs.extract n).toList ↔ ∃ i : Nat, n ≤ i ∧ xs[i]? = some a := by
  simp only [Array.mem_toList_iff, Array.mem_iff_getElem?, Array.getElem?_extract]
  constructor
  · rintro ⟨k, hk⟩
    split at hk
    · exact ⟨n + k, Nat.le_add_right n k, hk⟩
    · cases hk
  · rintro ⟨i, hle, hi⟩
    have hlt := lt_size hi
    refine ⟨i - n, ?_⟩
    rw [if_pos (by omega), Nat.add_sub_cancel' hle]
    exact hi

lemma ends_loop {d1 : Draft} (hl : b.isLoop = true) (hpa : d.patchBreaks b.firstBreak = .ok d1)
    (hu : undeclare { d1 with blocks := outer } b.numActive = .ok d2)
    (hb : closeBreaks b b.firstBreak (d2.breaks.size - b.firstBreak)
      (d2.setFirstFree b.numActive) = .ok d') : Ends b outer [] d d' := by
  obtain ⟨hle, hd1⟩ := patchBreaks_ok hpa
  have hb2 : d2.breaks = d.breaks.take b.firstBreak := by
    rw [(undeclare_ok hu).2.2, hd1]
  have hc2 : d2.code = d.code := by rw [(undeclare_ok hu).2.2, hd1]
  have hn : d2.breaks.size - b.firstBreak = 0 := by simp [hb2, hle]
  rw [hn] at hb
  cases hb
  have hs : d.SameScope d1 := by
    rw [hd1]
    rfl
  refine ⟨by rw [setFirstFree, hc2]; exact .nil, by simp [hl], fun pc => ?_, fun i => ?_,
    ⟨d1, d2, hs, by rw [hd1], hu, rfl⟩, ?_⟩
  · have hpe : d2.pending = d.pending ++
        (d.breaks.extract b.firstBreak).toList.flatMap (·.jumps) := by
      rw [(undeclare_ok hu).2.2, hd1]
    rw [setFirstFree, hpe]
    simp only [List.mem_append, List.mem_flatMap, mem_extract_iff, hl, true_and]
    refine or_congr_right ⟨?_, ?_⟩
    · rintro ⟨p, ⟨i, hi, hp⟩, hpc⟩
      exact ⟨i, p, hi, hp, hpc⟩
    · rintro ⟨i, p, hi, hp, hpc⟩
      exact ⟨p, ⟨i, hi, hp⟩, hpc⟩
  · have ht : (d.breaks.take b.firstBreak).toList = d.breaks.toList.take b.firstBreak := by simp
    rw [setFirstFree, hb2, hl, if_pos rfl, ← Array.getElem?_toList, ht,
      List.getElem?_take, Array.getElem?_toList]
  · rw [setFirstFree, (undeclare_ok hu).2.2, hd1]
    dsimp only
    split <;> simp

lemma ends_plain (hl : b.isLoop = false) (hle : b.firstBreak ≤ d.breaks.size)
    (hu : undeclare { d with blocks := outer } b.numActive = .ok d2)
    (hb : closeBreaks b b.firstBreak (d2.breaks.size - b.firstBreak)
      (d2.setFirstFree b.numActive) = .ok d') : ∃ l, Ends b outer l d d' := by
  have hb2 : d2.breaks = d.breaks := by rw [(undeclare_ok hu).2.2]
  have hc2 : d2.code = d.code := by rw [(undeclare_ok hu).2.2]
  have hp2 : d2.pending = d.pending := by rw [(undeclare_ok hu).2.2]
  obtain ⟨l, code, breaks, hcl, rfl⟩ := closeBreaks_ok hb
  have hr := hcl.code
  rw [setFirstFree, hc2] at hr
  refine ⟨l, hr, fun hc _ i p hi hp => ?_, fun pc => ?_, fun i => ?_,
    ⟨d, d2, .refl d, rfl, hu, rfl⟩, .inl (by rw [setFirstFree, (undeclare_ok hu).2.2])⟩
  · refine hcl.closed hc i p hi ?_ (by rw [setFirstFree, hb2]; exact hp)
    have := lt_size hp
    rw [hb2]
    omega
  · rw [setFirstFree, hp2]
    simp [hl]
  · rw [hcl.breaks i, setFirstFree, hb2]
    by_cases hi : i < d.breaks.size
    · split <;> split <;> first | omega | simp [hl]
    · simp [hi, hl]

lemma Left.ends (h : d.Left b outer d') (hn : Nested (b :: outer) d.active.size d.breaks.size) :
    ∃ d1 l, d.ScopeClosed b outer.isEmpty d1 ∧ Ends b outer l d1 d' := by
  obtain ⟨d1, d2, d3, hs, he, hu, hb⟩ := h
  have hsa := hs.keeps.2.1
  cases hl : b.isLoop with
  | true =>
    have ho : outer ≠ [] := fun ho => by simp [hn.2.2.2.1 ho] at hl
    rw [hl] at he
    rw [if_neg (by simpa using ho)] at hb
    exact ⟨d1, [], hs, ends_loop hl he hu hb⟩
  | false =>
    rw [hl] at he
    cases he
    have hb' : closeBreaks b b.firstBreak (d3.breaks.size - b.firstBreak)
        (d3.setFirstFree b.numActive) = .ok d' := by
      split at hb
      · next ho =>
        -- No break is left where the function ends.
        have hz : d.breaks.size = 0 := by simpa [hl, List.isEmpty_iff.mp ho] using hn.2.2.1
        have hz' : d3.breaks.size = 0 := by rw [(undeclare_ok hu).2.2, hsa, hz]
        rw [hz', Nat.zero_sub, hb]
        rfl
      · exact hb
    obtain ⟨l, hen⟩ := ends_plain hl (hsa ▸ hn.2.1) hu hb'
    exact ⟨d1, l, hs, hen⟩

section

variable (h : Ends b outer l d d')
include h

lemma Ends.breaks_size (hle : b.firstBreak ≤ d.breaks.size) :
    d'.breaks.size = if b.isLoop then b.firstBreak else d.breaks.size := by
  have hs : ∀ k, d'.breaks.size ≤ k ↔ (if b.isLoop then b.firstBreak else d.breaks.size) ≤ k := by
    intro k
    rw [← Array.getElem?_eq_none_iff, h.breaks k]
    split
    · rw [Array.getElem?_eq_none_iff]
      split <;> omega
    · split
      · simp
        omega
      · simp
  exact Nat.le_antisymm ((hs _).mpr .refl) ((hs _).mp .refl)

lemma Ends.break_of {p : PendingBreak} (hp : d'.breaks[k]? = some p) :
    ∃ q, d.breaks[k]? = some q ∧ p.jumps = q.jumps ∧
      p.numActive ≤ q.numActive ∧ (b.firstBreak ≤ k → p = q.lower b.numActive) ∧
      (k < b.firstBreak → p = q) := by
  rw [h.breaks k] at hp
  split at hp
  · exact ⟨p, hp, rfl, .refl, fun _ => by omega, fun _ => rfl⟩
  · split at hp
    · cases hp
    · obtain ⟨q, hq, rfl⟩ := Option.map_eq_some_iff.mp hp
      exact ⟨q, hq, rfl, Nat.min_le_left _ _, fun _ => rfl, fun _ => by omega⟩

lemma Ends.undeclares : d.Undeclares b.numActive d' := by
  obtain ⟨d1, d2, hs1, hc, hun, hs2⟩ := h.undeclared
  have hu := Draft.undeclares hun
  refine hu.congr hc.symm (by rw [hs1]) (by rw [hs1]) ?_ (by rw [hs2]) (by rw [hs2])
  rw [h.code.size, hu.size, ← hc]

lemma Ends.blocks : d'.blocks = outer := by
  obtain ⟨d1, d2, -, -, hu, hs2⟩ := h.undeclared
  rw [hs2, (undeclare_ok hu).2.2]

lemma Ends.functions : d'.functions = d.functions ∧ d'.upvalues = d.upvalues := by
  obtain ⟨d1, d2, hs1, -, hu, hs2⟩ := h.undeclared
  rw [hs2, (undeclare_ok hu).2.2, hs1]
  exact ⟨rfl, rfl⟩

end

lemma Nests.ends (h : d.Nests) (hb : d.blocks = b :: outer) (he : Ends b outer l d d') :
    d'.Nests := by
  have hn := h.nested
  have hl := h.loops
  rw [hb] at hn hl
  obtain ⟨d1, d2, hs1, -, hu, hs2⟩ := he.undeclared
  obtain ⟨hle, -, hd2⟩ := undeclare_ok hu
  have hle' : b.numActive ≤ d.active.size := hn.1
  have hbl : d'.blocks = outer := by rw [hs2, hd2]
  have ha : d'.active = d.active.take b.numActive := by rw [hs2, hd2, hs1]
  have hs : d'.active.size = b.numActive := by rw [ha]; simp [hle']
  have hna : d'.localVariables.map (·.name) = d.localVariables.map (·.name) := by
    have h1 := undeclare_names hu
    have h2 : d1.localVariables = d.localVariables := by rw [hs1]
    rw [hs2, h1, h2]
  refine ⟨?_, fun c hc k p hk hp => ?_, fun p hp => ?_, ?_⟩
  · rw [hbl, hs, he.breaks_size hn.2.1]
    split
    · exact hn.2.2.2.2
    · next hloop => exact Nested.leave hn fun hb => absurd hb hloop
  · obtain ⟨q, hq, -, hle, -⟩ := he.break_of hp
    rw [hbl] at hc
    exact Nat.le_trans hle (h.within c (by rw [hb]; exact List.mem_cons_of_mem _ hc) k q hk hq)
  · obtain ⟨k, hp⟩ := Array.mem_iff_getElem?.mp hp
    obtain ⟨q, hq, -, -, hlo, hsa⟩ := he.break_of hp
    rw [hs]
    by_cases hk : k < b.firstBreak
    · rw [hsa hk]
      exact h.within b (by simp [hb]) k q hk hq
    · rw [hlo (by omega)]
      exact Nat.min_le_right _ _
  · rw [hbl, hs]
    refine hl.2.mono hn.ranked.2 fun r hr => hiddenAt_of_names ?_ hna
    rw [ha, ← Array.getElem?_toList]
    simp [hr]

end Draft

end LuaBytecode
