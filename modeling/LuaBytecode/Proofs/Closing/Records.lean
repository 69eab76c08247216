import LuaBytecode.Proofs.Closing.Compiled

namespace LuaBytecode

open Trace Draft State

namespace Prototype

variable {f : Prototype} {j : Nat} {v : LocalVariable} {pc : Int}

structure StacksVariables (f : Prototype) : Prop where
  sorted : f.localVariables.Pairwise fun v w => v.start ≤ w.start
  within : ∀ v ∈ f.localVariables, 0 ≤ v.start ∧ v.start ≤ v.stop ∧ v.stop ≤ f.code.length
  nested : f.localVariables.Pairwise fun v w => v.stop ≤ w.start ∨ w.stop ≤ v.stop
  limited : ∀ pc : Int, f.localVariables.countP (fun v => v.start ≤ pc && pc < v.stop) ≤ 200

lemma localNameIn_append (hs : v.start ≤ pc) (hst : pc < v.stop)
    (rest : List LocalVariable) {before : List LocalVariable} (h : ∀ w ∈ before, w.start ≤ pc) :
    localNameIn pc (before ++ v :: rest) (before.countP fun w => pc < w.stop) = some v.name := by
  induction before with
  | nil =>
    rw [LocalVariable.start] at hs
    rw [LocalVariable.stop] at hst
    simp [localNameIn, Int.not_lt.mpr hs, Int.not_le.mpr hst]
  | cons w before ih =>
    obtain ⟨hw, h⟩ := List.forall_mem_cons.mp h
    rw [LocalVariable.start] at hw
    rw [List.cons_append, localNameIn, if_neg (Int.not_lt.mpr hw), List.countP_cons]
    by_cases he : w.endPC.toInt ≤ pc
    · rw [if_pos he]
      simpa [LocalVariable.stop, Int.not_lt.mpr he] using ih h
    · have hlt : pc < w.stop := Int.not_le.mp he
      have hne : ((before.countP fun w => pc < w.stop : Nat) : Int) + 1 ≠ 0 := by omega
      simpa [he, hlt, hne] using ih h

lemma localName?_registerOf (hs : f.localVariables.Pairwise fun v w => v.start ≤ w.start)
    (hn : f.localVariables.Pairwise fun v w => v.stop ≤ w.start ∨ w.stop ≤ v.stop)
    (hv : f.localVariables[j]? = some v) (hst : v.start ≤ pc) (hstop : pc < v.stop) :
    f.localName? (f.registerOf j v) pc = some v.name := by
  obtain ⟨hlt, rfl⟩ := List.getElem?_eq_some_iff.mp hv
  have hsp : f.localVariables = f.localVariables.take j ++
      f.localVariables[j] :: f.localVariables.drop (j + 1) := by simp
  rw [hsp, List.pairwise_append] at hs hn
  have hc : f.registerOf j f.localVariables[j] =
      (f.localVariables.take j).countP fun w => pc < w.stop := by
    refine List.countP_congr fun w hw => ?_
    have := hn.2.2 w hw _ List.mem_cons_self
    simp only [decide_eq_true_eq]
    omega
  have hna := localNameIn_append hst hstop (f.localVariables.drop (j + 1)) fun w hw =>
    Int.le_trans (hs.2.2 w hw _ List.mem_cons_self) hst
  rw [← hsp] at hna
  rw [localName?, hc, hna]

lemma countP_le_of_registerOf {n : Nat}
    (h : ∀ j v, f.localVariables[j]? = some v → f.registerOf j v < n)
    (pc : Int) : f.localVariables.countP (fun v => v.start ≤ pc && pc < v.stop) ≤ n := by
  have ht : ∀ k, (f.localVariables.take k).countP (fun v => v.start ≤ pc && pc < v.stop) ≤ n := by
    intro k
    induction k with
    | zero => simp
    | succ k ih =>
      rw [List.take_add_one, List.countP_append]
      cases hv : f.localVariables[k]? with
      | none => simpa using ih
      | some v =>
        by_cases hc : (v.start ≤ pc && pc < v.stop) = true
        · have hle : (f.localVariables.take k).countP (fun v => v.start ≤ pc && pc < v.stop) ≤
              f.registerOf k v := by
            refine List.countP_mono_left fun w _ hw => ?_
            simp only [Bool.and_eq_true, decide_eq_true_eq] at hw hc ⊢
            omega
          have := h k v hv
          simp [hc]
          omega
        · simpa [hc] using ih
  simpa using ht f.localVariables.length

end Prototype

namespace Draft

variable {d d' : Draft} {n : Nat}

lemma Undeclares.place_le (h : d.Undeclares n d') (j : Nat) (s : Int) :
    d'.place j s ≤ d.place j s := by
  refine List.countP_mono_left fun i _ hi => ?_
  simp only [Bool.or_eq_true, decide_eq_true_eq] at hi ⊢
  rcases hi with hi | hi
  · exact .inl (h.mem_active.mpr (.inl hi))
  · rw [h.record] at hi
    split at hi
    · next hin => exact .inl (h.mem_active.mpr (.inr hin))
    · exact .inr hi

def Sorted (d : Draft) : Prop :=
  ∀ (j : Nat) (v : LocalVariable), d.localVariables[j]? = some v → 0 ≤ v.start ∧
    ∀ (i : Nat) (w : LocalVariable), d.localVariables[i]? = some w → i < j → w.start ≤ v.start

lemma Sorted.of_starts (h : d.Sorted) (ht : d.Timed) (hs : ∀ (j : Nat) (v : LocalVariable),
    d'.localVariables[j]? = some v → (∃ w, d.localVariables[j]? = some w ∧ v.start = w.start) ∨
      (v.start = d.code.size ∧ d'.localVariables.size = j + 1)) : d'.Sorted := by
  intro j v hv
  have hj := lt_size hv
  rcases hs j v hv with ⟨v', hv', heq⟩ | ⟨heq, -⟩
  · refine ⟨heq ▸ (h j v' hv').1, fun i w hw hij => ?_⟩
    rcases hs i w hw with ⟨w', hw', heq'⟩ | ⟨-, hl⟩
    · rw [heq, heq']
      exact (h j v' hv').2 i w' hw' hij
    · omega
  · refine ⟨by omega, fun i w hw hij => ?_⟩
    rcases hs i w hw with ⟨w', hw', heq'⟩ | ⟨-, hl⟩
    · rw [heq, heq']
      exact ht.started i w' hw'
    · omega

def Past (d : Draft) : Prop :=
  ∀ j v, d.Ended j v → (v.start ≤ v.stop ∧ d.place j v.start < maxVariables) ∧
    ∀ i w, d.Ended i w → i < j → w.stop ≤ v.start ∨ v.stop ≤ w.stop

lemma Past.prolongs (h : d.Past) (hp : d.Prolongs d') : d'.Past := by
  intro j v hj
  obtain ⟨hj, hpl⟩ := hp.ended j v hj
  rw [hpl]
  exact ⟨(h j v hj).1, fun i w hi => (h j v hj).2 i w (hp.ended i w hi).1⟩

lemma Past.undeclares (h : d.Past) (ht : d.Timed) (hd : d.Undeclares n d')
    (hf : d.active.size ≤ maxVariables) (hc : d.code.size < 2 ^ 63) : d'.Past := by
  have hs : ∀ v, (d.stopped v).stop = d.code.size := fun _ => Int64.toInt_ofNat_of_lt hc
  intro j v hj
  have hle := hd.place_le j v.start
  rcases hd.ended hj with hj | ⟨r, v, -, hr, hv, rfl⟩
  · obtain ⟨⟨ho, hl⟩, hn⟩ := h j v hj
    refine ⟨⟨ho, by omega⟩, fun i w hi hij => ?_⟩
    rcases hd.ended hi with hi | ⟨_, w, -, -, -, rfl⟩
    · exact hn i w hi hij
    · rw [hs]
      exact .inr (ht.ended j v hj.1 hj.2)
  · have hp := ht.place_eq hr hv
    replace hle : d'.place j (d.stopped v).start ≤ d.place j v.start := hle
    have := lt_size hr
    refine ⟨⟨?_, by omega⟩, fun i w hi hij => ?_⟩
    · rw [hs]
      exact ht.started j v hv
    · rcases hd.ended hi with hi | ⟨_, w, -, -, -, rfl⟩
      · exact .inl (ht.apart i j w v hi.1 hv hij hi.2 (Array.mem_of_getElem? hr))
      · rw [hs, hs]
        exact .inr (Int.le_refl _)

end Draft

namespace Trace

namespace Layer

variable {l l' : Layer} {j : Nat} {v : LocalVariable}

inductive Change (l l' : Layer) : Prop
  | keep (hactive : l'.active = l.active)
      (hvariables : l'.localVariables = l.localVariables)
      (hsize : l.code.size ≤ l'.code.size)
      (hfresh : l'.fresh = l.fresh ∨ l'.fresh = none)
  | declare {name : Bytes} (hrecorded : l.Recorded)
      (h : l.declare name = .ok l'.toDraft) (hfresh : l'.fresh = some l.localVariables.size)
  | start {r slot : Nat} (hslot : l.active[r]? = some slot) (hold : l.fresh = some slot)
      (h : l.startVariable r = .ok l'.toDraft) (hfresh : l'.fresh = none)
  | undeclare {n : Nat} (hfew : l.active.size ≤ maxVariables)
      (h : l.Undeclares n l'.toDraft) (hfresh : l'.fresh = none)

abbrev Changes : Layer → Layer → Prop := Relation.ReflTransGen Change

lemma Change.size_le (h : l.Change l') : l.code.size ≤ l'.code.size := by
  cases h with
  | keep _ _ hs _ => exact hs
  | declare _ h _ => exact Nat.le_of_eq (by rw [(declare_ok h).2])
  | start _ _ h _ =>
    obtain ⟨slot, -, -, heq⟩ := startVariable_ok h
    exact Nat.le_of_eq (by rw [heq])
  | undeclare _ h _ => exact Nat.le_of_eq h.size.symm

lemma Changes.size_le (h : l.Changes l') : l.code.size ≤ l'.code.size := by
  induction h with
  | refl => exact .refl
  | tail _ hs ih => exact Nat.le_trans ih hs.size_le

lemma Step.change (h : l.Step l') (hg : l.Guarded) (hs : l.Scoped) : l.Change l' := by
  rcases h.works hg.timed hg.placed fun b hb => hs.numActive_lt hb with hw | hw
  · exact .keep (by rw [hw.scope]) (by rw [hw.scope]) hw.code.size hw.fresh
  · cases hw with
    | declare _ _ hd => exact .declare hs.recorded hd rfl
    | start hf hsl _ _ _ _ _ _ _ hd => exact .start hsl hf hd rfl
    | enter hbl isLoop => exact .keep rfl rfl .refl (.inl rfl)

lemma Waits.change (h : l.Waits l') : l.Change l' :=
  .keep (by rw [h.draft.eq]) (by rw [h.draft.eq]) (Nat.le_of_eq (by rw [h.draft.eq])) (.inl h.fresh)

lemma changes_of_left {b : Block} {outer : List Block} (hs : l.active.size ≤ maxVariables)
    (h : l.Left b outer l'.toDraft) (hfr : l'.fresh = none) : l.Changes l' := by
  obtain ⟨d1, d2, ⟨hs1, ho1⟩, hu, hs2, ho2⟩ := h.undeclared
  have hf : l.Change { l with toDraft := { d1 with blocks := outer } } :=
    .keep (by rw [hs1]) (by rw [hs1]) ho1.size_le (.inl rfl)
  have hse : Change { l with toDraft := { d1 with blocks := outer } }
      { l with toDraft := d2, fresh := none } :=
    .undeclare (by rw [hs1]; exact hs) (undeclares hu) rfl
  have hl : Change { l with toDraft := d2, fresh := none } l' :=
    .keep (by rw [hs2]) (by rw [hs2]) ho2.size_le (.inl hfr)
  exact ((Relation.ReflTransGen.single hf).tail hse).tail hl

structure Stacked (l : Layer) : Prop where
  timed : l.Timed
  sorted : l.Sorted
  past : l.Past
  last : ∀ slot, l.fresh = some slot → l.localVariables.size = slot + 1

lemma stacked_new (source : ChunkName) (n : UInt8) (isVararg : Bool) (first last : Int)
    (upvalues : Array UpvalueDescriptor) : Stacked
      ⟨(new source n isVararg first last upvalues).enterBlock false, [], [], none⟩ :=
  ⟨(guarded_new source n isVararg first last upvalues).timed,
    by simp [Sorted, new, enterBlock],
    by simp [Past, Ended, new, enterBlock], by simp⟩

lemma Change.stacked (h : l.Change l') (hs : l.Stacked) (hc : l'.code.size < 2 ^ 63) :
    l'.Stacked := by
  have hc' := Nat.lt_of_le_of_lt h.size_le hc
  have hh : (Int64.ofNat l.code.size).toInt = l.code.size := Int64.toInt_ofNat_of_lt hc'
  cases h with
  | keep ha hva hsi hf =>
    refine ⟨hs.timed.congr ha hva hsi, hs.sorted.of_starts hs.timed fun j v hv => ?_,
      hs.past.prolongs (.of_eq ha hva), fun slot hsl => ?_⟩
    · exact .inl ⟨v, hva ▸ hv, rfl⟩
    · rw [hva]
      rcases hf with heq | heq
      · exact hs.last slot (heq ▸ hsl)
      · cases heq.symm.trans hsl
  | declare hr hd hf =>
    have hva := congrArg (·.localVariables) (declare_ok hd).2
    dsimp only at hva
    refine ⟨hs.timed.declare hc' hd hr, hs.sorted.of_starts hs.timed fun j v hv => ?_,
      hs.past.prolongs (.declare hc' hd), fun slot hsl => ?_⟩
    · rw [hva, Array.getElem?_push] at hv
      split at hv
      · next heq =>
        cases hv
        exact .inr ⟨hh, by rw [hva, Array.size_push, heq]⟩
      · exact .inl ⟨v, hv, rfl⟩
    · cases hf.symm.trans hsl
      rw [hva, Array.size_push]
  | start hsl hold hd hf =>
    obtain ⟨slot', hs', -, heq⟩ := startVariable_ok hd
    cases hsl.symm.trans hs'
    have hva := congrArg (·.localVariables) heq
    dsimp only at hva
    refine ⟨hs.timed.startVariable hc' hd, hs.sorted.of_starts hs.timed fun j v hv => ?_,
      hs.past.prolongs (.startVariable hc' hd), by simp [hf]⟩
    rw [hva, Array.getElem?_modify] at hv
    split at hv
    · next heq =>
      obtain ⟨w, -, rfl⟩ := Option.map_eq_some_iff.mp hv
      exact .inr ⟨hh, by rw [hva, Array.size_modify, hs.last _ hold, heq]⟩
    · exact .inl ⟨v, hv, rfl⟩
  | undeclare hfe hd hf =>
    refine ⟨hd.timed hs.timed hc', hs.sorted.of_starts hs.timed fun j v hv => .inl ?_,
      hs.past.undeclares hs.timed hd hfe hc', by simp [hf]⟩
    rw [hd.record] at hv
    split at hv
    · obtain ⟨w, hw, rfl⟩ := Option.map_eq_some_iff.mp hv
      exact ⟨w, hw, rfl⟩
    · exact ⟨v, hv, rfl⟩

lemma Changes.stacked (h : l.Changes l') (hs : l.Stacked) (hc : l'.code.size < 2 ^ 63) :
    l'.Stacked := by
  induction h with
  | refl => exact hs
  | tail _ hst ih => exact hst.stacked (ih (Nat.lt_of_le_of_lt hst.size_le hc)) hc

lemma Change.record (h : l.Change l') (hc : l'.code.size < 2 ^ 63)
    (hv : l.localVariables[j]? = some v) (hf : l.fresh ≠ some j) :
    ∃ w, l'.localVariables[j]? = some w ∧ w.name = v.name ∧ w.start = v.start ∧ l'.fresh ≠ some j ∧
      (v.start < l.code.size → l'.place j v.start = l.place j v.start) ∧
      (j ∉ l'.active → (j ∉ l.active ∧ w = v) ∨ w.stop = l.code.size) := by
  have hc' := Nat.lt_of_le_of_lt h.size_le hc
  have hlt := lt_size hv
  cases h with
  | keep ha hva hsi hn =>
    refine ⟨v, by rw [hva, hv], rfl, rfl, ?_, fun _ => place_congr ha hva j _,
      fun hj => .inl ⟨ha ▸ hj, rfl⟩⟩
    rcases hn with hn | hn <;> simp [hn, hf]
  | declare _ hd hn =>
    refine ⟨v, ?_, rfl, rfl, ?_, fun _ => place_declare hd (Nat.le_of_lt hlt) _,
      fun hj => .inl ⟨fun hm => hj ?_, rfl⟩⟩
    · rw [(declare_ok hd).2, Array.getElem?_push, if_neg (Nat.ne_of_lt hlt), hv]
    · rw [hn]
      simp
      omega
    · rw [(declare_ok hd).2]
      exact Array.mem_push_of_mem _ hm
  | @start r slot hsl hold hd hn =>
    obtain ⟨slot', hs', -, heq⟩ := startVariable_ok hd
    cases hsl.symm.trans hs'
    have hne : slot ≠ j := fun hj => hf (hj ▸ hold)
    refine ⟨v, ?_, rfl, rfl, by simp [hn], fun _ => place_startVariable hd j _,
      fun hj => .inl ⟨?_, rfl⟩⟩
    · rw [heq, Array.getElem?_modify, if_neg hne, hv]
    · rw [heq] at hj
      exact hj
  | undeclare _ hd hn =>
    have hp := fun hs => hd.place hc' (s := v.start) hs j
    have hr := hd.record j
    rw [hv] at hr
    split at hr
    · exact ⟨l.stopped v, hr, rfl, rfl, by simp [hn], hp, fun _ =>
        .inr (Int64.toInt_ofNat_of_lt hc')⟩
    · next hin =>
      exact ⟨v, hr, rfl, rfl, by simp [hn], hp, fun hj =>
        .inl ⟨fun hm => (hd.mem_active.mp hm).elim hj hin, rfl⟩⟩

structure Settles (l : Layer) (j : Nat) (name : Bytes) (pc : Nat) (v : LocalVariable) : Prop where
  record : l.localVariables[j]? = some v
  name : v.name = name
  start : v.start ≤ pc
  fresh : l.fresh ≠ some j

structure Holds (l : Layer) (j r : Nat) (name : Bytes) (pc : Nat) (v : LocalVariable) : Prop
    extends l.Settles j name pc v where
  written : pc < l.code.size
  place : l.place j v.start = r
  stop : j ∉ l.active → pc < v.stop

variable {r pc : Nat} {name : Bytes}

lemma Changes.settles (h : l.Changes l') (hc : l'.code.size < 2 ^ 63)
    (hs : l.Settles j name pc v) : ∃ w, l'.Settles j name pc w := by
  induction h with
  | refl => exact ⟨v, hs⟩
  | tail _ hst ih =>
    obtain ⟨w, hw⟩ := ih (Nat.lt_of_le_of_lt hst.size_le hc)
    obtain ⟨w', hr, hn, hstart, hf, -⟩ := hst.record hc hw.record hw.fresh
    exact ⟨w', hr, hn.trans hw.name, hstart ▸ hw.start, hf⟩

lemma Changes.holds (h : l.Changes l') (hc : l'.code.size < 2 ^ 63)
    (hs : l.Holds j r name pc v) : ∃ w, l'.Holds j r name pc w := by
  induction h with
  | refl => exact ⟨v, hs⟩
  | tail _ hstep ih =>
    obtain ⟨w, hw⟩ := ih (Nat.lt_of_le_of_lt hstep.size_le hc)
    obtain ⟨w', hr, hn, hst, hf, hp, hstop⟩ := hstep.record hc hw.record hw.fresh
    have hle := hw.start
    have hlt := hw.written
    refine ⟨w', ⟨hr, hn.trans hw.name, hst ▸ hle, hf⟩,
      Nat.lt_of_lt_of_le hlt hstep.size_le, ?_, fun hj => ?_⟩
    · rw [hst, hp (by omega), hw.place]
    · rcases hstop hj with ⟨hj, rfl⟩ | heq
      · exact hw.stop hj
      · omega

lemma Stacked.prototype (h : l.Stacked) (ha : l.active = #[]) :
    l.prototype.StacksVariables := by
  have hen : ∀ (j : Nat) (v : LocalVariable), l.prototype.localVariables[j]? = some v →
      l.Ended j v := fun j v hv => ⟨by simpa [Draft.prototype] using hv, by simp [ha]⟩
  have hp : ∀ {R : LocalVariable → LocalVariable → Prop},
      (∀ i j v w, l.Ended i v → l.Ended j w → i < j → R v w) →
      l.prototype.localVariables.Pairwise R := fun hR => by
    refine List.pairwise_iff_getElem.mpr fun i j hi hj hij => ?_
    exact hR i j _ _ (hen i _ (List.getElem?_eq_getElem hi))
      (hen j _ (List.getElem?_eq_getElem hj)) hij
  refine ⟨hp fun i j v w hi hj => (h.sorted j w hj.1).2 i v hi.1, fun v hv => ?_,
    hp fun i j v w hi hj => (h.past j w hj).2 i v hi,
    Prototype.countP_le_of_registerOf fun j v hv => ?_⟩
  · obtain ⟨j, hj⟩ := List.mem_iff_getElem?.mp hv
    have he := hen j v hj
    refine ⟨(h.sorted j v he.1).1, (h.past j v he).1.1, ?_⟩
    simpa [Draft.prototype] using h.timed.ended j v he.1 he.2
  · have he := hen j v hv
    rw [Draft.registerOf_prototype ha he.1]
    exact (h.past j v he).1.2

lemma Holds.localName? (h : l.Holds j r name pc v) (hs : l.Stacked)
    (ha : l.active = #[]) : l.prototype.localName? r pc = some name := by
  have hst := hs.prototype ha
  have hr : l.prototype.registerOf j v = r := (registerOf_prototype ha h.record).trans h.place
  have hv : l.prototype.localVariables[j]? = some v := by
    simpa [prototype] using h.record
  rw [← hr, ← h.name]
  exact Prototype.localName?_registerOf hst.sorted hst.nested hv h.start (h.stop (by simp [ha]))

end Layer

namespace State

variable {s s' t : State} {source : ChunkName} {k : Nat} {l l' : Layer}

def layer? (s : State) (k : Nat) : Option Layer := s.layers.reverse[k]?

lemma getElem?_reverse_cons {ls : List Layer} :
    (l :: ls).reverse[k]? = some l' ↔ ls.reverse[k]? = some l' ∨ (k = ls.length ∧ l = l') := by
  rw [List.reverse_cons, List.getElem?_append, List.length_reverse]
  by_cases hk : k < ls.length
  · simp [hk]
    omega
  · have hn : ls.reverse[k]? = none := by simp; omega
    rw [if_neg hk, hn]
    rcases Nat.lt_or_eq_of_le (Nat.le_of_not_lt hk) with hlt | rfl
    · have : k - ls.length ≠ 0 := by omega
      simp [this]
      omega
    · simp

lemma Step.changes (h : s.Step s') (hs : s.Sound) (hl : s'.layer? k = some l')
    (hco : l'.code.size < 2 ^ 63) : (∃ l, s.layer? k = some l ∧ l.Changes l') ∨
      (s.layers.length ≤ k ∧ l'.Stacked) := by
  obtain ⟨hg, -⟩ := List.forall_mem_cons.mp hs.guarded
  have hc : ∀ l'', s'.layers = l'' :: s.enclosing → (l''.code.size < 2 ^ 63 → s.Changes l'') →
      ∃ l, s.layer? k = some l ∧ l.Changes l' := fun l'' heq hch => by
    rw [layer?, heq, getElem?_reverse_cons] at hl
    rcases hl with hl | ⟨hk, rfl⟩
    · exact ⟨l', getElem?_reverse_cons.mpr (.inl hl), .refl⟩
    · exact ⟨s.toLayer, getElem?_reverse_cons.mpr (.inr ⟨hk, rfl⟩), hch hco⟩
  cases h with
  | inside h =>
    refine .inl (hc _ rfl fun hsi => .single (h.change (hg ?_) hs.linked.head))
    exact Nat.lt_of_le_of_lt h.keepsOps.size_le hsi
  | leave hb ho h hh =>
    obtain ⟨-, hle⟩ := Gen.leaveBlock_ok hb h
    exact .inl (hc _ rfl fun _ => Layer.changes_of_left hs.linked.head.active hle rfl)
  | @finish g b i d hb hh hop hem h =>
    have hsa := emit_sameScope hem
    obtain ⟨-, hle⟩ := Gen.leaveBlock_ok (show d.blocks = [b] by rw [hsa]; exact hb) h
    have hf : s.Change { s.toLayer with toDraft := d } :=
      .keep (by rw [hsa]) (by rw [hsa]) (emit_keepsOps hem).size_le (.inl rfl)
    have hfe : d.active.size ≤ maxVariables := by rw [hsa]; exact hs.linked.head.active
    exact .inl (hc _ rfl fun _ => .head hf (Layer.changes_of_left hfe hle rfl))
  | resolve hn h =>
    have hw := List.forall₂_reverse_iff.mpr (waits_withDrafts h)
    obtain ⟨hk, rfl⟩ := List.getElem?_eq_some_iff.mp hl
    have hk' : k < s.layers.reverse.length := hw.length_eq ▸ hk
    exact .inl ⟨_, List.getElem?_eq_getElem hk', .single (hw.get hk' hk).change⟩
  | openFunction source numParams isVararg first last =>
    rcases getElem?_reverse_cons.mp hl with hl | ⟨hk, rfl⟩
    · exact .inl ⟨l', hl, .refl⟩
    · exact .inr ⟨Nat.le_of_eq hk.symm, Layer.stacked_new source numParams isVararg first last #[]⟩
  | @closeFunction l rest line i d hen hb hp hh hop hbx h =>
    have hold : ∀ {e}, (l :: rest).reverse[k]? = some e → s.layer? k = some e := fun he => by
      rw [layer?, layers, hen]
      exact getElem?_reverse_cons.mpr (.inl he)
    rcases getElem?_reverse_cons.mp hl with hl | ⟨hk, rfl⟩
    · exact .inl ⟨l', hold (getElem?_reverse_cons.mpr (.inl hl)), .refl⟩
    · have hsa := emit_sameScope h
      have hch : l.Change { l with toDraft := d } :=
        .keep (by rw [hsa]) (by rw [hsa]) (emit_keepsOps h).size_le (.inl rfl)
      exact .inl ⟨l, hold (getElem?_reverse_cons.mpr (.inr ⟨hk, rfl⟩)), .single hch⟩

lemma Reachable.stacked (h : Reachable source s) (hl : s.layer? k = some l)
    (hco : l.code.size < 2 ^ 63) : l.Stacked := by
  induction h generalizing l with
  | refl =>
    rcases getElem?_reverse_cons.mp hl with hl | ⟨-, rfl⟩
    · cases hl
    · exact Layer.stacked_new source 0 true 0 0 _
  | tail hr hst ih =>
    rcases hst.changes (Reachable.sound hr) hl hco with ⟨l0, hl0, hc⟩ | ⟨-, hs⟩
    · exact hc.stacked (ih hl0 (Nat.lt_of_le_of_lt hc.size_le hco)) hco
    · exact hs

lemma StepsAbove.changes (h : s.StepsAbove k s') (hs : s.Sound) (hk : k < s.drafts.length)
    (hl : s'.layer? k = some l') (hco : l'.code.size < 2 ^ 63) :
    ∃ l, s.layer? k = some l ∧ l.Changes l' := by
  have hsteps : s'.Sound ∧ k < s'.drafts.length ∧ ∀ l', s'.layer? k = some l' →
      l'.code.size < 2 ^ 63 → ∃ l, s.layer? k = some l ∧ l.Changes l' := by
    clear hl hco
    induction h with
    | refl => exact ⟨hs, hk, fun l' hl _ => ⟨l', hl, .refl⟩⟩
    | tail _ hst ih =>
      obtain ⟨hso, hlt, ih⟩ := ih
      refine ⟨hst.1.sound hso, hst.2, fun l' hl hco => ?_⟩
      rcases hst.1.changes hso hl hco with ⟨l0, hl0, hc⟩ | ⟨hle, -⟩
      · obtain ⟨l, hl, hf⟩ := ih l0 hl0 (Nat.lt_of_le_of_lt hc.size_le hco)
        exact ⟨l, hl, hf.trans hc⟩
      · simp only [drafts, layers, List.length_cons, List.length_map] at hlt hle
        omega
  exact hsteps.2.2 l' hl hco

def found (s : State) : State := ⟨{ s.toLayer with fresh := none }, s.enclosing⟩

/-- On the way to this state a name was found to be the variable in a register of the function, and
the instruction at `pc` was written behind that, with the variable in scope. -/
def Uses (source : ChunkName) (t : State) (name : Bytes) (r pc : Nat) : Prop :=
  ∃ s s' : State, Reachable source s ∧ s.register name = .ok (some r) ∧
    s.found.StepsAbove t.enclosing.length s' ∧ s'.StepsAbove t.enclosing.length t ∧
    s.enclosing.length = t.enclosing.length ∧ s'.enclosing.length = t.enclosing.length ∧
    s.code.size ≤ pc ∧ pc < s'.code.size ∧ s'.active[r]? = s.active[r]?

lemma layer?_length (s : State) : s.layer? s.enclosing.length = some s.toLayer :=
  getElem?_reverse_cons.mpr (.inr ⟨rfl, rfl⟩)

lemma StepsAbove.changes_current (h : s.StepsAbove k s') (hs : s.Sound)
    (hk : s.enclosing.length = k) (hk' : s'.enclosing.length = k)
    (hco : s'.code.size < 2 ^ 63) : s.Changes s'.toLayer := by
  have hlt : k < s.drafts.length := by simp [drafts, hk]
  obtain ⟨l, hl, hc⟩ := h.changes hs hlt (hk' ▸ s'.layer?_length) hco
  cases (hk ▸ s.layer?_length).symm.trans hl
  exact hc

lemma Uses.localName? {name : Bytes} {r pc : Nat} (h : t.Uses source name r pc)
    (hbl : t.blocks = []) (hc : t.code.size < 2 ^ 63) :
    t.prototype.localName? r pc = some name := by
  obtain ⟨s, s', hre, hr, hst, hst', hs, hs', hsi, hpc, ha⟩ := h
  have hf : Reachable source s.found := hre.tail (.inside (.find hr))
  have hr' := hst.reachable hf
  have he := hst'.reachable hr'
  have hl := hst'.changes_current hr'.sound hs' rfl hc
  have hc' := Nat.lt_of_le_of_lt hl.size_le hc
  have hb := hst.changes_current hf.sound hs hs' hc'
  have hc0 : s.code.size < 2 ^ 63 := Nat.lt_of_le_of_lt hb.size_le hc'
  -- the variable when it is found, when the instruction has been written, and at the end
  obtain ⟨v, hv, hn⟩ := lastNamed_eq_some hr
  obtain ⟨j, hj, hv⟩ := Option.bind_eq_some_iff.mp hv
  have hstart := (hre.stacked s.layer?_length hc0).timed.started j v hv
  have hse : s.found.Settles j name pc v := ⟨hv, hn, by omega, by simp [found]⟩
  obtain ⟨w, hw⟩ := hb.settles hc' hse
  have ht := (hr'.stacked s'.layer?_length hc').timed
  have hj' := ha.trans hj
  have hh : s'.Holds j r name pc w := ⟨hw, hpc, ht.place_eq hj' hw.record,
    fun ho => absurd (Array.mem_of_getElem? hj') ho⟩
  obtain ⟨u, hu⟩ := hl.holds hc hh
  have hra := he.sound.linked.head.ranked
  rw [hbl] at hra
  exact hu.localName? (he.stacked t.layer?_length hc) (Array.size_eq_zero_iff.mp hra)

lemma resolve_local {g g' : Generator} {name : Bytes} {r : Nat}
    (h : Gen.resolve name g = .ok (.local r, g')) : g.register name = .ok (some r) ∧ g' = g := by
  obtain ⟨d', outer'⟩ := g'
  rcases Draft.resolve_ok (Gen.resolve_ok h) with ⟨r', d, hr, hd, hv, hds⟩ | ⟨-, i, -, hv, -⟩ |
    ⟨-, -, _, ⟨-, hv, -⟩ | ⟨_, _, _, -, -, hv, -⟩⟩ <;> cases hv
  cases hds
  cases hd
  exact ⟨hr, rfl⟩

/-- A variable that is found is used by what is written next, as long as it is in scope. -/
def UsesFound (source : ChunkName) (s : State) : Prop :=
  ∀ name r g, Gen.resolve name s.generator = .ok (.local r, g) → ∀ {α : Type} (m : Gen α) a g',
    s.Part m → m g = .ok (a, g') → g'.active[r]? = s.active[r]? →
      ∃ s', Reachable source s' ∧ s'.generator = g' ∧ ∀ t : State,
        t.enclosing.length = s.enclosing.length → s'.StepsAbove s.enclosing.length t →
          ∀ pc, s.code.size ≤ pc → pc < g'.code.size → t.Uses source name r pc

lemma Reachable.usesFound (h : Reachable source s) : s.UsesFound source := by
  intro name r g hlookup α m a g' hm hrun ha
  obtain ⟨hr, rfl⟩ := resolve_local hlookup
  obtain ⟨Q, ht⟩ := hm.traces
  obtain ⟨s', rfl, hmoves, -⟩ := (ht s.found rfl).of_ok hrun
  have hf : Reachable source s.found := h.tail (.inside (.find hr))
  refine ⟨s', hmoves.steps.reachable hf, rfl, fun t hdepth hsteps pc hpc hpc' => ?_⟩
  have hl : s'.enclosing.length = s.enclosing.length := hmoves.enclosing.length_eq.symm
  exact ⟨s, s', h, hr, hdepth ▸ hmoves.steps, hdepth ▸ hsteps, hdepth.symm,
    hl.trans hdepth.symm, hpc, hpc', ha⟩

end State

end Trace

/-- Texts and code have lengths that are 64-bit integers. -/
theorem compile_stacksVariables {source : ChunkName} {src : Bytes} {c : Chunk}
    (hsrc : src.length < 2 ^ 63) (h : compile source src = .ok c) :
    ∃ main, c.main = some main ∧ ∀ path f, main.nested? path = some f → f.code.length < 2 ^ 63 →
      f.StacksVariables ∧ State.Finishes source f ∧
      (∀ t : State, t.blocks = [] → t.prototype = f →
        ∀ name r pc, t.Uses source name r pc → f.localName? r pc = some name) ∧
      ∀ s, State.Reachable source s → s.UsesFound source := by
  obtain ⟨main, hmain, -, hall⟩ := compile_finishes hsrc h
  refine ⟨main, hmain, fun path f hf hcode => ?_⟩
  have hfinishes := hall path f hf
  refine ⟨?_, hfinishes, ?_, fun s hs => hs.usesFound⟩
  · obtain ⟨t, hreach, hblocks, rfl⟩ := hfinishes
    have hranked := hreach.sound.linked.head.ranked
    rw [hblocks] at hranked
    exact (hreach.stacked t.layer?_length (by simpa [Draft.prototype] using hcode)).prototype
      (Array.size_eq_zero_iff.mp hranked)
  · rintro t hblocks rfl name r pc huses
    exact huses.localName? hblocks (by simpa [Draft.prototype] using hcode)

def scopeText : Bytes := "local x return x"

def scopeMain : Option Prototype := (compile "=scope" scopeText).toOption.bind (·.main)

def scopeLayer (code : Array Instruction) (lineInfo : Array Int64) (fresh : Option Nat) : Layer :=
  ⟨{ (Generator.start "=scope").toDraft with
      code, lineInfo, line := 1
      localVariables := #[⟨[byte 'x'], 1, 0⟩], active := #[0] }, [], [], fresh⟩

def scopeEnd : Layer := ⟨{ (scopeLayer #[⟨4⟩, ⟨16777254⟩, ⟨8388646⟩] #[1, 1, 1] none).toDraft with
    localVariables := #[⟨[byte 'x'], 1, 3⟩], active := #[], blocks := [] }, [], [], none⟩

lemma scopeLayer_reachable : Reachable "=scope" ⟨scopeLayer #[⟨4⟩] #[1] (some 0), []⟩ := by
  let d : Draft := { (Generator.start "=scope").toDraft with line := 1 }
  have hl : (start "=scope").Step ⟨⟨d, [], [], none⟩, []⟩ := .inside (.tune rfl)
  have hn : d.emit ⟨4⟩ = .ok { d with code := #[⟨4⟩], lineInfo := #[1] } := rfl
  have hd : declare { d with code := #[⟨4⟩], lineInfo := #[1] } [byte 'x'] =
      .ok (scopeLayer #[⟨4⟩] #[1] none).toDraft := rfl
  exact ((Relation.ReflTransGen.single hl).tail (.inside (.emit rfl hn))).tail
    (.inside (.declare rfl (by simp) hd))

lemma scopeEnd_uses : Uses "=scope" ⟨scopeEnd, []⟩ [byte 'x'] 0 1 := by
  have he : (scopeLayer #[⟨4⟩] #[1] none).emit ⟨16777254⟩ =
      .ok (scopeLayer #[⟨4⟩, ⟨16777254⟩] #[1, 1] none).toDraft := rfl
  have he' : (scopeLayer #[⟨4⟩, ⟨16777254⟩] #[1, 1] none).emit ⟨8388646⟩ =
      .ok (scopeLayer #[⟨4⟩, ⟨16777254⟩, ⟨8388646⟩] #[1, 1, 1] none).toDraft := rfl
  have hl : Gen.leaveBlock
      ⟨(scopeLayer #[⟨4⟩, ⟨16777254⟩, ⟨8388646⟩] #[1, 1, 1] none).toDraft, []⟩ =
        .ok ((), ⟨scopeEnd.toDraft, []⟩) := by
    simp [Gen.leaveBlock, Gen.read, Gen.closeScope, Gen.endLoop, Gen.updateOrFail, Gen.update,
      undeclare, setFirstFree, scopeEnd, scopeLayer, Generator.start, new,
      enterBlock, bind, pure, StateT.bind, Except.bind]
    rfl
  have hen : Step ⟨scopeLayer #[⟨4⟩, ⟨16777254⟩] #[1, 1] none, []⟩
      ⟨⟨scopeEnd.toDraft, [], [], none⟩, []⟩ :=
    .finish (s := ⟨scopeLayer #[⟨4⟩, ⟨16777254⟩] #[1, 1] none, []⟩) rfl rfl rfl he' hl
  exact ⟨_, _, scopeLayer_reachable, rfl, .single ⟨.inside (.emit rfl he), by decide⟩,
    .single ⟨hen, by decide⟩, rfl, rfl, by decide, by decide, rfl⟩

lemma scopeMain_eq : scopeMain = some scopeEnd.prototype := by
  have hc : scopeMain.map (fun f => (f.numParams, f.isVararg, f.maxStackSize, f.code, f.upvalues)) =
      some (0, true, 2, [⟨4⟩, ⟨16777254⟩, ⟨8388646⟩], [⟨environmentName, true, 0⟩]) := by
    decide +kernel
  have hl : scopeMain.map (fun f => (f.source, f.lineDefined, f.lastLineDefined, f.lineInfo)) =
      some (.ofString "=scope", 0, 0, [1, 1, 1]) := by decide +kernel
  have hr : scopeMain.map (fun f =>
      (f.localVariables, f.form, f.functions.length, f.constants.length)) =
      some ([⟨[byte 'x'], 1, 3⟩], none, 0, 0) := by decide +kernel
  obtain ⟨⟨_⟩, hf, heq⟩ := Option.map_eq_some_iff.mp hc
  rw [hf] at hl hr ⊢
  simp at heq hl hr
  simp [heq, hl, hr, prototype, scopeEnd, scopeLayer, Generator.start, new, enterBlock]
  rfl

theorem compile_stacksVariables_scope : scopeText.length < 2 ^ 63 ∧
    ∃ c main, compile (.ofString "=scope") scopeText = .ok c ∧ c.main = some main ∧
      main.localVariables = [⟨[byte 'x'], 1, 3⟩] ∧ main.StacksVariables ∧
      main.localName? 0 1 = some [byte 'x'] := by
  have hlen : scopeText.length < 2 ^ 63 := by decide +kernel
  have hscope := scopeMain_eq
  refine ⟨hlen, ?_⟩
  cases h : compile (.ofString "=scope") scopeText with
  | error e =>
    have hnone : scopeMain = none := by rw [scopeMain, h]; rfl
    cases hnone.symm.trans hscope
  | ok c =>
    obtain ⟨main, hmain, hall⟩ := compile_stacksVariables hlen h
    have heq : main = scopeEnd.prototype := by
      rw [scopeMain, h] at hscope
      exact Option.some.inj (hmain.symm.trans hscope)
    obtain ⟨hstacks, -, hnames, -⟩ := hall [] main rfl (by rw [heq]; decide)
    exact ⟨c, main, rfl, hmain, by rw [heq]; rfl, hstacks,
      hnames ⟨scopeEnd, []⟩ rfl heq.symm _ _ _ scopeEnd_uses⟩

end LuaBytecode
