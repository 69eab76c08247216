import LuaBytecode.Proofs.Closing.Work

namespace LuaBytecode

open Draft

variable {slot r : Nat}

def Covers (s : Int) (r pc : Nat) (i : Instruction) : Prop := s ≤ pc ∨ (s = pc + 1 ∧ i.argA = r)

def Prototype.MakesAt (f : Prototype) (pc : Nat) (i : Instruction) (u : UpvalueDescriptor) : Prop :=
  f.code[pc]? = some i ∧ i.op? = some .closure ∧
    ∃ g, f.functions[i.argBx]? = some g ∧ u ∈ g.upvalues

lemma Marked.outer {b : Block} {outer : List Block} {r : Nat} (h : Marked r (b :: outer))
    (hr : r < b.numActive) : Marked r outer := by
  rwa [Marked, if_pos hr] at h

lemma Marked.captured {b : Block} {outer : List Block} (h : Marked r (b :: outer))
    (hr : b.numActive ≤ r) : b.isCaptured = true := by
  rwa [Marked, if_neg (by omega)] at h

namespace Draft

variable {d d' : Draft} {pc : Nat} {i : Instruction} {u : UpvalueDescriptor} {name : Bytes}

def MakesAt (d : Draft) (pc : Nat) (i : Instruction) (u : UpvalueDescriptor) : Prop :=
  d.code[pc]? = some i ∧ i.op? = some .closure ∧
    ∃ g, d.functions[i.argBx]? = some g ∧ u ∈ g.upvalues

lemma MakesAt.lt (h : d.MakesAt pc i u) : pc < d.code.size := lt_size h.1

def Owns (d : Draft) (pc : Nat) (i : Instruction) (u : UpvalueDescriptor) : Prop :=
  if u.inStack then
    ∃ (j : Nat) (v : LocalVariable), d.localVariables[j]? = some v ∧ v.name = u.name ∧
      d.place j v.start = u.index.toNat ∧
      Covers v.start u.index.toNat pc i ∧ (j ∉ d.active → pc < v.stop ∧ v.start < v.stop)
  else ∃ w : UpvalueDescriptor, d.upvalues[u.index.toNat]? = some w ∧ w.name = u.name

structure Lends (d : Draft) : Prop where
  marked : ∀ pc i u, d.MakesAt pc i u → u.inStack = true → ∀ s,
    d.startAt u.index.toNat = some s → Covers s u.index.toNat pc i → Marked u.index.toNat d.blocks
  last : ∀ pc i u, d.MakesAt pc i u → u.inStack = true → pc + 1 = d.code.size →
    i.argA = u.index.toNat → d.blocks ≠ [] →
      u.index.toNat < d.active.size ∧ Marked u.index.toNat d.blocks
  made : ∀ (pc : Nat) (i : Instruction), d.code[pc]? = some i → i.op? = some .closure →
    i.argBx < d.functions.size
  owned : ∀ (k : Nat) (g : Prototype), d.functions[k]? = some g → ∃ pc i, d.code[pc]? = some i ∧
    i.op? = some .closure ∧ i.argBx = k ∧ ∀ u ∈ g.upvalues, d.Owns pc i u

def Fresh (d : Draft) (slot : Nat) : Prop :=
  ∀ r v, d.active[r]? = some slot → d.localVariables[slot]? = some v →
    ∀ pc i u, d.MakesAt pc i u → u.inStack = true → u.index.toNat = r → v.start = pc + 1 →
      i.argA ≠ r

structure SameClosures (d d' : Draft) : Prop where
  size : d.code.size ≤ d'.code.size
  functions : d'.functions = d.functions
  code : ∀ (pc : Nat) (i : Instruction), i.op? = some .closure →
    (d'.code[pc]? = some i ↔ d.code[pc]? = some i)

lemma SameClosures.of_eq (hcode : d'.code = d.code) (hf : d'.functions = d.functions) :
    d.SameClosures d' :=
  ⟨Nat.le_of_eq (by rw [hcode]), hf, fun pc i _ => by rw [hcode]⟩

lemma SameClosures.of_advances {isOpen isOpen' : Nat → Prop} {safe : Int → Prop}
    (h : Advances isOpen isOpen' safe d.code d'.code) (hf : d'.functions = d.functions) :
    d.SameClosures d' :=
  ⟨h.size, hf, fun _ _ hop => ⟨fun hi => h.closure hi hop, fun hi => h.closure_kept hi hop⟩⟩

lemma SameClosures.makesAt (h : d.SameClosures d') : d'.MakesAt pc i u ↔ d.MakesAt pc i u := by
  unfold MakesAt
  rw [h.functions]
  exact and_congr_left fun hop => h.code pc i hop.1

lemma Owns.congr (h : d.Owns pc i u) (ha : d'.active = d.active)
    (hl : d'.localVariables = d.localVariables)
    (hu : ∀ (k : Nat) w, d.upvalues[k]? = some w → d'.upvalues[k]? = some w) : d'.Owns pc i u := by
  unfold Owns at h ⊢
  split at h
  · next hin =>
    rw [if_pos hin, ha, hl]
    simp only [place_congr ha hl]
    exact h
  · next hin =>
    rw [if_neg hin]
    obtain ⟨w, hw, hn⟩ := h
    exact ⟨w, hu _ w hw, hn⟩

lemma Lends.of_sameClosures (h : d.Lends) (hc : d.SameClosures d')
    (hma : ∀ pc i u, d.MakesAt pc i u → u.inStack = true → ∀ s,
      d'.startAt u.index.toNat = some s → Covers s u.index.toNat pc i →
        Marked u.index.toNat d'.blocks)
    (hl : ∀ pc i u, d.MakesAt pc i u → u.inStack = true → pc + 1 = d'.code.size →
      i.argA = u.index.toNat → d'.blocks ≠ [] →
        u.index.toNat < d'.active.size ∧ Marked u.index.toNat d'.blocks)
    (ho : ∀ pc i u, d.MakesAt pc i u → d.Owns pc i u → d'.Owns pc i u) : d'.Lends where
  marked pc i u hm := hma pc i u (hc.makesAt.mp hm)
  last pc i u hm := hl pc i u (hc.makesAt.mp hm)
  made pc i hi hop := by
    rw [hc.functions]
    exact h.made pc i ((hc.code pc i hop).mp hi) hop
  owned k g hg := by
    rw [hc.functions] at hg
    obtain ⟨pc, i, hi, hop, rfl, ha⟩ := h.owned k g hg
    exact ⟨pc, i, (hc.code pc i hop).mpr hi, hop, rfl,
      fun u hme => ho pc i u ⟨hi, hop, g, hg, hme⟩ (ha u hme)⟩

lemma Lends.congr (h : d.Lends) (hc : d.SameClosures d') (ha : d'.active = d.active)
    (hl : d'.localVariables = d.localVariables)
    (hu : ∀ (k : Nat) w, d.upvalues[k]? = some w → d'.upvalues[k]? = some w)
    (hne : d'.blocks ≠ [] → d.blocks ≠ [])
    (hm : ∀ r, r < d.active.size → Marked r d.blocks → Marked r d'.blocks) : d'.Lends := by
  refine h.of_sameClosures hc (fun pc i u hma hin s hs hco => ?_)
    (fun pc i u hma hin hpc har hb => ?_) fun pc i u _ ho => ho.congr ha hl hu
  · rw [startAt_congr ha hl] at hs
    exact hm _ (lt_of_startAt hs) (h.marked pc i u hma hin s hs hco)
  · have hlt := hma.lt
    have hsi := hc.size
    obtain ⟨hr, hmarked⟩ := h.last pc i u hma hin (by omega) har (hne hb)
    rw [ha]
    exact ⟨hr, hm _ hr hmarked⟩

lemma Fresh.congr (h : d.Fresh slot) (hc : d.SameClosures d') (ha : d'.active = d.active)
    (hl : d'.localVariables = d.localVariables) : d'.Fresh slot := by
  intro r v hr hv pc i u hm
  rw [ha] at hr
  rw [hl] at hv
  exact h r v hr hv pc i u (hc.makesAt.mp hm)

lemma Lends.prolong (h : d.Lends) (hp : d.Prolongs d') (hcode : d'.code = d.code)
    (hf : d'.functions = d.functions) (hb : d'.blocks = d.blocks) (hbl : d.blocks ≠ [])
    (ha : d.active.size ≤ d'.active.size)
    (ho : ∀ pc i u, d.MakesAt pc i u → d.Owns pc i u → d'.Owns pc i u) : d'.Lends := by
  refine h.of_sameClosures (.of_eq hcode hf) (fun pc i u hm hin s hs hc => ?_)
    (fun pc i u hm hin hpc har hne => ?_) ho
  · rw [hb]
    rcases hp.startAt _ s hs with hs | rfl
    · exact h.marked pc i u hm hin s hs hc
    · -- The variable is new, so that a closure just made is the only one that could capture it.
      have hlt := hm.lt
      rcases hc with hle | ⟨heq, har⟩
      · omega
      · exact (h.last pc i u hm hin (by omega) har hbl).2
  · rw [hcode] at hpc
    obtain ⟨hr, hma⟩ := h.last pc i u hm hin hpc har hbl
    exact ⟨Nat.lt_of_lt_of_le hr ha, hb ▸ hma⟩

section

variable (hcode : d.code.size < 2 ^ 63)

include hcode

lemma Lends.declare (h : d.Lends) (hd : d.declare name = .ok d')
    (hb : d.blocks ≠ []) : d'.Lends := by
  have hp := Prolongs.declare hcode hd
  have hpl := fun j => place_declare hd (j := j)
  obtain ⟨-, rfl⟩ := declare_ok hd
  refine h.prolong hp rfl rfl rfl hb (by simp) fun pc i u hm hu => ?_
  unfold Owns at hu ⊢
  split at hu
  · next hin =>
    rw [if_pos hin]
    obtain ⟨j, v, hv, hn, hi, hc, he⟩ := hu
    have hlt := lt_size hv
    refine ⟨j, v, ?_, hn, ?_, hc, fun hj => he fun hme => hj ?_⟩
    · rw [Array.getElem?_push, if_neg (by omega)]
      exact hv
    · rw [hpl j (Nat.le_of_lt hlt)]
      exact hi
    · exact Array.mem_push_of_mem _ hme
  · next hin =>
    rw [if_neg hin]
    exact hu

lemma Fresh.declare (h : d.Lends) (hr : d.Recorded)
    (hd : d.declare name = .ok d') (hb : d.blocks ≠ []) :
    d'.Fresh d.localVariables.size := by
  have hde := declare_ok hd
  have hc : d.SameClosures d' := .of_eq (by rw [hde.2]) (by rw [hde.2])
  intro r v hs hv pc i u hm hin hi hst ha
  rw [hc.makesAt] at hm
  rw [hde.2] at hs hv
  rw [Array.getElem?_push_size] at hv
  cases hv
  have hsi : (⟨name, .ofNat d.code.size, 0⟩ : LocalVariable).start = d.code.size :=
    Int64.toInt_ofNat_of_lt hcode
  -- The register of the new variable is above those of the others.
  have hr' : r = d.active.size := by
    rw [Array.getElem?_push] at hs
    split at hs
    · assumption
    · exact absurd (hr _ (Array.mem_of_getElem? hs)) (by omega)
  have hl := h.last pc i u hm hin (by omega) (by omega) hb
  omega

lemma Lends.startVariable {slot p : Nat} {v : LocalVariable} {j : Instruction} (h : d.Lends)
    (ht : d.Timed) (ht' : d'.Timed) (hf : d.Fresh slot) (hs : d.active[r]? = some slot)
    (hv : d.localVariables[slot]? = some v) (hst : v.startPC = .ofNat p)
    (hp : p + 1 = d.code.size) (hj : d.code[p]? = some j) (ha : j.argA = r)
    (hb : d.blocks ≠ []) (hd : d.startVariable r = .ok d') : d'.Lends := by
  obtain ⟨slot', hs', -, heq⟩ := startVariable_ok hd
  cases hs.symm.trans hs'
  have hpr := Prolongs.startVariable hcode hd
  have hac : d'.active = d.active := by rw [heq]
  have hvs : v.start = p := by
    rw [LocalVariable.start, hst]
    exact Int64.toInt_ofNat_of_lt (by omega)
  refine h.prolong hpr (by rw [heq]) (by rw [heq]) (by rw [heq]) hb
    (Nat.le_of_eq (by rw [hac])) fun pc i u hm hu => ?_
  unfold Owns at hu ⊢
  split at hu
  · next hin =>
    rw [if_pos hin]
    obtain ⟨k', w, hw, hn, hpl, hc, he⟩ := hu
    by_cases hk : slot = k'
    · subst hk
      cases hv.symm.trans hw
      have hi : u.index.toNat = r := by rw [← hpl, ht.place_eq hs hv]
      have hne : d'.localVariables[slot]? = some { v with startPC := .ofNat d.code.size } := by
        rw [heq, Array.getElem?_modify, if_pos rfl, hv]
        rfl
      have hs'' : d'.active[r]? = some slot := by rw [hac, hs]
      refine ⟨slot, _, hne, hn, by rw [ht'.place_eq hs'' hne, hi], .inr ?_,
        fun ho => absurd (Array.mem_of_getElem? hs'') ho⟩
      have hlt := hm.lt
      have hpc : pc = p := by
        rcases hc with hle | ⟨heq, har⟩
        · omega
        · exact absurd (har.trans hi) (hf r v hs hv pc i u hm hin hi heq)
      subst hpc
      cases hj.symm.trans hm.1
      have hsi : ({ v with startPC := .ofNat d.code.size } : LocalVariable).start =
        d.code.size := Int64.toInt_ofNat_of_lt hcode
      exact ⟨by rw [hsi]; omega, ha.trans hi.symm⟩
    · refine ⟨k', w, ?_, hn, by rw [place_startVariable hd]; exact hpl, hc, ?_⟩
      · rw [heq, Array.getElem?_modify, if_neg hk]
        exact hw
      · rw [hac]
        exact he
  · next hin =>
    rw [if_neg hin, heq]
    exact hu

end

lemma Lends.ends {b : Block} {outer : List Block} {jumps : List Nat} (h : d.Lends) (ht : d.Timed)
    (hcode : d.code.size < 2 ^ 63) (hb : d.blocks = b :: outer) (hn : b.numActive < 255)
    (he : Ends b outer jumps d d')
    (hl : b.isCaptured = true → ∀ pc i, pc + 1 = d.code.size → d.code[pc]? = some i →
      i.op? ≠ some .closure) : d'.Lends := by
  have hu := he.undeclares
  have ht' := hu.timed ht hcode
  have hbl := he.blocks
  have hne : d.blocks ≠ [] := by simp [hb]
  have had : Advances (fun _ => False) (fun _ => False) (fun _ => False) d.code d'.code :=
    .shut he.code (fun _ => .rfl) hn
  have hc : d.SameClosures d' := .of_advances had he.functions.1
  -- The register that a closure just made captures is one from outside of the block.
  have hbe : ∀ pc i u, d.MakesAt pc i u → u.inStack = true → pc + 1 = d.code.size →
      i.argA = u.index.toNat → u.index.toNat < b.numActive ∧ Marked u.index.toNat outer := by
    intro pc i u hm hin hpc ha
    have hma := (h.last pc i u hm hin hpc ha hne).2
    rw [hb] at hma
    have hlt : u.index.toNat < b.numActive := Decidable.byContradiction fun hle => by
      exact hl (hma.captured (by omega)) pc i hpc hm.1 hm.2.1
    exact ⟨hlt, hma.outer hlt⟩
  refine h.of_sameClosures hc (fun pc i u hm hin s hs hco => ?_)
    (fun pc i u hm hin hpc ha _ => ?_) fun pc i u hm ho => ?_
  · obtain ⟨hs', hlt⟩ := hu.startAt ht hs
    have hma := h.marked pc i u hm hin s hs' hco
    rw [hb] at hma
    rw [hbl]
    exact hma.outer hlt
  · rw [hu.size] at hpc
    obtain ⟨hlt, hma⟩ := hbe pc i u hm hin hpc ha
    have hsi := (h.last pc i u hm hin hpc ha hne).1
    have hac := congrArg List.length hu.active
    simp only [Array.length_toList, List.length_take] at hac
    rw [hbl]
    exact ⟨by omega, hma⟩
  · have hpc := hm.lt
    unfold Owns at ho ⊢
    split at ho
    · next hin =>
      rw [if_pos hin]
      obtain ⟨j, v, hv, hna, hp, hco, hen⟩ := ho
      by_cases hj : j ∈ d.active.toList.drop b.numActive
      · -- The scope ends here, so that it is behind its start.
        have hst : v.start < d.code.size := by
          rcases hco with hle | ⟨heq, ha⟩
          · omega
          · refine Decidable.byContradiction fun hge => ?_
            have hlt := (hbe pc i u hm hin (by omega) ha).1
            obtain ⟨r, hr⟩ := List.mem_iff_getElem?.mp hj
            rw [List.getElem?_drop, Array.getElem?_toList] at hr
            have := ht.place_eq hr hv
            omega
        have hstop : (d.stopped v).stop = d.code.size := Int64.toInt_ofNat_of_lt hcode
        refine ⟨j, d.stopped v, by rw [hu.record, if_pos hj, hv]; rfl, hna, ?_, hco,
          fun _ => ?_⟩
        · exact (hu.place hcode hst j).trans hp
        · rw [hstop]
          exact ⟨by omega, hst⟩
      · have hv' : d'.localVariables[j]? = some v := by rw [hu.record, if_neg hj, hv]
        refine ⟨j, v, hv', hna, ?_, hco, fun hou => hen fun hme => ?_⟩
        · by_cases hme : j ∈ d'.active
          · obtain ⟨r, hr⟩ := Array.mem_iff_getElem?.mp hme
            have hr' : d.active[r]? = some j := by
              rw [← Array.getElem?_toList, hu.active, List.getElem?_take] at hr
              split at hr
              · simpa using hr
              · cases hr
            rw [ht'.place_eq hr hv', ← hp, ht.place_eq hr' hv]
          · have hou : j ∉ d.active := fun h => (hu.mem_active.mp h).elim hme hj
            have hstop := ht.ended j v hv hou
            have hst := (hen hou).2
            rw [hu.place hcode (by omega)]
            exact hp
        · exact (hu.mem_active.mp hme).elim hou hj
    · next hin =>
      rw [if_neg hin, he.functions.2]
      exact ho

lemma Lends.grown (h : d.Lends) (hg : d.Grown d') : d'.Lends := by
  have heq := hg.touched.eq
  obtain ⟨more, hm⟩ := hg.touched.upvalues
  refine h.congr (.of_eq (by rw [heq]) (by rw [heq])) (by rw [heq]) (by rw [heq]) ?_ ?_
    fun r _ => hg.marked r
  · intro k w hw
    rw [hm, Array.getElem?_append_left (lt_size hw), hw]
  · intro hne hn
    have hs := hg.touched.shapes
    rw [hn, List.map_nil, List.map_eq_nil_iff] at hs
    exact hne hs

structure Makes (f : Prototype) (i : Instruction) (d d' : Draft) : Prop where
  op : i.op? = some .closure
  argBx : i.argBx = d.functions.size
  code : d'.code = d.code.push i
  functions : d'.functions = d.functions.push f
  active : d'.active = d.active
  localVariables : d'.localVariables = d.localVariables
  upvalues : d'.upvalues = d.upvalues
  blocks : d'.blocks = d.blocks

section

variable {f : Prototype} {j : Instruction}

lemma Makes.makesAt (h : Makes f j d d') (hl : d.Lends) (hm : d'.MakesAt pc i u) :
    d.MakesAt pc i u ∨ (pc = d.code.size ∧ i = j ∧ u ∈ f.upvalues) := by
  obtain ⟨hi, hop, g, hg, hme⟩ := hm
  rw [h.code, Array.getElem?_push] at hi
  rw [h.functions, Array.getElem?_push] at hg
  split at hi
  · next hpc =>
    cases hi
    rw [if_pos h.argBx] at hg
    cases hg
    exact .inr ⟨hpc, rfl, hme⟩
  · have hlt := hl.made pc i hi hop
    rw [if_neg (by omega)] at hg
    exact .inl ⟨hi, hop, g, hg, hme⟩

lemma Supplies.congr (h : d.Supplies u) (ha : d'.active = d.active)
    (hl : d'.localVariables = d.localVariables) (hu : d'.upvalues = d.upvalues)
    (hb : d'.blocks = d.blocks) : d'.Supplies u := by
  unfold Supplies at h ⊢
  rw [register_congr ha hl, hb, Draft.upvalue?, hu]
  exact h

lemma Supplies.owns (h : d.Supplies u) (ht : d.Timed) (i : Instruction) :
    d.Owns d.code.size i u := by
  unfold Supplies at h
  unfold Owns
  split at h
  · next hin =>
    rw [if_pos hin]
    obtain ⟨v, hv, hn⟩ := lastNamed_eq_some h.1
    obtain ⟨slot, hs, hv⟩ := Option.bind_eq_some_iff.mp hv
    exact ⟨slot, v, hv, hn, ht.place_eq hs hv, .inl (ht.started slot v hv),
      fun ho => absurd (Array.mem_of_getElem? hs) ho⟩
  · next hin =>
    rw [if_neg hin]
    exact upvalue?_eq_some h.2

lemma Supplies.lt (h : d.Supplies u) (hin : u.inStack = true) :
    u.index.toNat < d.active.size ∧ Marked u.index.toNat d.blocks := by
  rw [Supplies, if_pos hin] at h
  obtain ⟨v, hv, -⟩ := lastNamed_eq_some h.1
  obtain ⟨slot, hs, -⟩ := Option.bind_eq_some_iff.mp hv
  exact ⟨(lt_size hs), h.2⟩

lemma Lends.makes (h : d.Lends) (ht : d.Timed) (hs : ∀ u ∈ f.upvalues, d.Supplies u)
    (hm : Makes f j d d') : d'.Lends := by
  have hke : ∀ pc i u, d.Owns pc i u → d'.Owns pc i u := fun pc i u ho =>
    ho.congr hm.active hm.localVariables fun k w hw => by rw [hm.upvalues, hw]
  have hold : ∀ (pc : Nat) (i : Instruction), d.code[pc]? = some i → d'.code[pc]? = some i := by
    intro pc i hi
    have := lt_size hi
    rw [hm.code, Array.getElem?_push, if_neg (by omega), hi]
  refine ⟨fun pc i u hma hin s hst hc => ?_, fun pc i u hma hin hpc ha _ => ?_,
    fun pc i hi hop => ?_, fun k g hg => ?_⟩
  · rw [hm.blocks]
    rw [startAt_congr hm.active hm.localVariables] at hst
    rcases hm.makesAt h hma with hma | ⟨-, -, hme⟩
    · exact h.marked pc i u hma hin s hst hc
    · exact ((hs u hme).lt hin).2
  · rw [hm.code, Array.size_push] at hpc
    rw [hm.active, hm.blocks]
    rcases hm.makesAt h hma with hma | ⟨-, -, hme⟩
    · have := hma.lt
      omega
    · exact (hs u hme).lt hin
  · rw [hm.functions, Array.size_push]
    rw [hm.code, Array.getElem?_push] at hi
    split at hi
    · cases hi
      have := hm.argBx
      omega
    · have := h.made pc i hi hop
      omega
  · rw [hm.functions, Array.getElem?_push] at hg
    split at hg
    · next hk =>
      cases hg
      exact ⟨d.code.size, j, by rw [hm.code, Array.getElem?_push_size], hm.op,
        hm.argBx.trans hk.symm, fun u hme => hke _ _ u ((hs u hme).owns ht j)⟩
    · obtain ⟨pc, i, hi, hop, hbx, ho⟩ := h.owned k g hg
      exact ⟨pc, i, hold pc i hi, hop, hbx, fun u hme => hke pc i u (ho u hme)⟩

lemma Fresh.makes (h : d.Fresh slot) (hl : d.Lends) (ht : d.Timed) (hm : Makes f j d d') :
    d'.Fresh slot := by
  intro r v hr hv pc i u hma hin hi hs
  rw [hm.active] at hr
  rw [hm.localVariables] at hv
  rcases hm.makesAt hl hma with hma | ⟨hpc, -, -⟩
  · exact h r v hr hv pc i u hma hin hi hs
  · have := ht.started slot v hv
    omega

end

lemma lends_of_empty (hcode : d.code = #[]) (hf : d.functions = #[]) : d.Lends := by
  have hn : ∀ pc : Nat, d.code[pc]? = none := by simp [hcode]
  refine ⟨fun pc i u hm => ?_, fun pc i u hm => ?_, fun pc i hi => ?_, fun k g hg => ?_⟩
  · rw [MakesAt, hn] at hm
    cases hm.1
  · rw [MakesAt, hn] at hm
    cases hm.1
  · rw [hn] at hi
    cases hi
  · simp [hf] at hg

end Draft

def Draft.Captures (d : Draft) (j : Nat) (v : LocalVariable) : Prop :=
  ∃ pc i u, d.MakesAt pc i u ∧ u.inStack = true ∧ u.index.toNat = d.place j v.start ∧
    Covers v.start u.index.toNat pc i ∧ pc < v.stop

namespace Trace

namespace Layer

variable {l l' : Layer} {s e : Int}

def ClosedFrom (l : Layer) (r : Nat) (s e : Int) : Prop :=
  ∀ (pc : Nat) (i : Instruction), l.code[pc]? = some i → s ≤ pc → pc < e →
    i.Closes r ∨ (¬ l.IsOpen pc ∧ ∀ t ∈ i.successors pc, s ≤ t ∧ t < e)

structure Guards (l : Layer) : Prop where
  inside : ∀ (r : Nat) (s : Int), l.startAt r = some s → ∀ (pc : Nat) (i : Instruction),
    l.code[pc]? = some i → s ≤ pc → l.IsOpen pc ∨ ∀ t ∈ i.successors pc, s ≤ t ∧ t ≤ l.code.size
  left : ∀ (j : Nat) (v : LocalVariable), l.Ended j v → l.Captures j v →
    l.ClosedFrom (l.place j v.start) v.start v.stop

structure Grows (l l' : Layer) : Prop where
  startAt : ∀ r (s : Int), l'.startAt r = some s → l.startAt r = some s ∨ l'.code.size ≤ s
  ended : ∀ j v, l'.Ended j v →
    l.Ended j v ∧ ∀ s, l'.place j s = l.place j s
  size : l.code.size ≤ l'.code.size
  altered : ∀ pc i, l.code[pc]? = some i → ∃ j, l'.code[pc]? = some j ∧
      Altered (l.IsOpen pc) (l'.IsOpen pc) (l.Safe l'.code.size) pc i j
  added : ∀ pc j, l'.code[pc]? = some j → l.code.size ≤ pc →
    l'.IsOpen pc ∨ ∀ t ∈ j.successors pc, l.Safe l'.code.size t
  makesAt : ∀ pc i u, l'.MakesAt pc i u → pc < l.code.size → l.MakesAt pc i u

lemma ClosedFrom.altered {safe : Int → Prop} (h : l.ClosedFrom r s e) (he : e ≤ l.code.size)
    (ha : ∀ (pc : Nat) (i : Instruction), l.code[pc]? = some i →
      ∃ j, l'.code[pc]? = some j ∧ Altered (l.IsOpen pc) (l'.IsOpen pc) safe pc i j) :
    l'.ClosedFrom r s e := by
  intro pc j hj hs hpc
  have hi : l.code[pc]? = some l.code[pc] := Array.getElem?_eq_getElem (by omega)
  obtain ⟨j', hj', hij⟩ := ha pc _ hi
  cases hj.symm.trans hj'
  rcases h pc _ hi hs hpc with hc | ⟨hop, hst⟩
  · exact .inl (hij.closes r hc)
  · rcases hij.flow with ⟨hif, hsu⟩ | ⟨ho', -⟩
    · exact .inr ⟨fun ho => hop (hif.mp ho), fun t ht => hst t (hsu ht)⟩
    · exact absurd ho' hop

lemma Guards.grows (h : l.Guards) (ht : l.Timed) (hg : l.Grows l') : l'.Guards := by
  constructor
  · intro r s hs pc j hj hle
    have hlt := lt_size hj
    rcases hg.startAt r s hs with hs | hge
    · by_cases hpc : pc < l.code.size
      · have hi : l.code[pc]? = some l.code[pc] := Array.getElem?_eq_getElem hpc
        obtain ⟨j', hj', hij⟩ := hg.altered pc _ hi
        cases hj.symm.trans hj'
        rcases hij.flow with ⟨hif, hsu⟩ | ⟨-, hsa⟩
        · refine (h.inside r s hs pc _ hi hle).imp hif.mpr fun hst t ht => ?_
          have := hst t (hsu ht)
          have := hg.size
          omega
        · refine .inr fun t ht => ?_
          rcases hsa t ht with rfl | hsa
          · omega
          · exact ⟨hsa.2 r s hs, hsa.1⟩
      · refine (hg.added pc j hj (by omega)).imp_right fun hsa t ht => ?_
        exact ⟨(hsa t ht).2 r s hs, (hsa t ht).1⟩
    · omega
  · intro j v he hc
    obtain ⟨hold, hp⟩ := hg.ended j v he
    have hstop := ht.ended j v hold.1 hold.2
    obtain ⟨pc, i, u, hm, hin, hindex, hco, hpc⟩ := hc
    rw [hp] at hindex ⊢
    have hc : l.Captures j v := ⟨pc, i, u, hg.makesAt pc i u hm (by omega), hin, hindex, hco, hpc⟩
    exact (h.left j v hold hc).altered hstop hg.altered

lemma Works.grows (h : l.Works l') : l.Grows l' := by
  have ha : l'.active = l.active := by rw [h.scope]
  have hl : l'.localVariables = l.localVariables := by rw [h.scope]
  have hf : l'.functions = l.functions := by rw [h.scope]
  have hc : l.SameClosures l'.toDraft := .of_advances h.code hf
  refine ⟨fun r s hs => ?_, (Prolongs.of_eq ha hl).ended, h.code.size, h.code.altered,
    fun pc j hj hpc => (h.code.added pc j hj hpc).2, fun pc i u hm _ => hc.makesAt.mp hm⟩
  rw [startAt_congr ha hl] at hs
  exact .inl hs

lemma Grows.of_prolongs (h : l.Prolongs l'.toDraft) (hc : l'.code = l.code)
    (hf : l'.functions = l.functions) (ho : ∀ pc, l'.IsOpen pc ↔ l.IsOpen pc) :
    l.Grows l' := by
  refine ⟨fun r s hs => ?_, h.ended, Nat.le_of_eq (by rw [hc]), fun pc i hi => ?_,
    fun pc j hj hpc => ?_, fun pc i u hm _ => (SameClosures.of_eq hc hf).makesAt.mp hm⟩
  · refine (h.startAt r s hs).imp_right fun heq => ?_
    exact Int.le_of_eq (by rw [hc, heq])
  · exact ⟨i, by rw [hc, hi], .refl (ho pc)⟩
  · rw [hc] at hj
    have := lt_size hj
    omega

lemma isOpen_congr (hh : l'.held = l.held) (hp : l'.pending = l.pending)
    (hb : l'.breaks = l.breaks) (pc : Nat) : l'.IsOpen pc ↔ l.IsOpen pc := by
  rw [IsOpen, IsOpen, IsBound, IsBound, hh, hp, hb]

lemma Rescopes.grows (h : l.Rescopes l') (hc : l.code.size < 2 ^ 63) : l.Grows l' := by
  cases h with
  | declare _ _ hd =>
    have heq := (declare_ok hd).2
    exact .of_prolongs (.declare hc hd) (by rw [heq]) (by rw [heq])
      (isOpen_congr rfl (by rw [heq]) (by rw [heq]))
  | start _ _ _ _ _ _ _ _ _ hd =>
    obtain ⟨slot, -, -, heq⟩ := startVariable_ok hd
    exact .of_prolongs (.startVariable hc hd) (by rw [heq]) (by rw [heq])
      (isOpen_congr rfl (by rw [heq]) (by rw [heq]))
  | enter hb isLoop => exact .of_prolongs (.of_eq rfl rfl) rfl rfl fun _ => .rfl

lemma Grows.of_makes {f : Prototype} {i : Instruction} (h : Makes f i l.toDraft l'.toDraft)
    (hl : l.Lends) (ht : l.Timed) (ho : ∀ pc, l'.IsOpen pc ↔ l.IsOpen pc) :
    l.Grows l' := by
  have hsi : l'.code.size = l.code.size + 1 := by rw [h.code, Array.size_push]
  refine ⟨fun r s hs => ?_, (Prolongs.of_eq h.active h.localVariables).ended, by omega,
    fun pc j hj => ?_, fun pc j hj hpc => .inr fun t hsu => ?_, fun pc j u hm hpc => ?_⟩
  · rw [startAt_congr h.active h.localVariables] at hs
    exact .inl hs
  · have := lt_size hj
    exact ⟨j, by rw [h.code, Array.getElem?_push, if_neg (by omega), hj], .refl (ho pc)⟩
  · have hlt := lt_size hj
    rw [h.code, Array.getElem?_push, if_pos (by omega)] at hj
    cases hj
    simp only [Instruction.successors, h.op, List.mem_singleton] at hsu
    exact safe_of_le ht (by omega) (by omega)
  · rcases h.makesAt hl hm with hm | ⟨heq, -, -⟩
    · exact hm
    · omega

lemma Placed.works (h : l.Placed) (ht : l.Timed) (hw : l.Works l') : l'.Placed := by
  have ha : l'.active = l.active := by rw [hw.scope]
  have hl : l'.localVariables = l.localVariables := by rw [hw.scope]
  have hsi := hw.code.size
  have hst : ∀ r s, l'.startAt r = some s → l.startAt r = some s := fun r s hs => by
    rwa [startAt_congr ha hl] at hs
  refine ⟨fun pc hpc => ?_, fun m hm r s hr hs => ?_, fun p hp pc hpc r s hr hs => ?_,
    fun t hme => ?_⟩
  · rcases hw.opened pc hpc with ho | ⟨i, hi, -⟩
    · have := h.opened pc ho
      omega
    · exact lt_size hi
  · rcases hw.held m hm with hm | hm
    · exact h.held m hm r s hr (hst r s hs)
    · have := lt_of_startAt (hst r s hs)
      omega
  · rcases hw.breaks with heq | ⟨-, jumps, heq⟩
    · rw [heq] at hp
      exact h.breaks p hp pc hpc r s hr (hst r s hs)
    · rw [heq] at hp
      rcases Array.mem_push.mp hp with hp | rfl
      · exact h.breaks p hp pc hpc r s hr (hst r s hs)
      · have := lt_of_startAt (hst r s hs)
        dsimp only at hr
        omega
  · rw [ha]
    rcases hw.targets t hme with hme | rfl
    · obtain ⟨hpc, hle, hb⟩ := h.targets t hme
      exact ⟨by omega, hle, fun r s hr hs => hb r s hr (hst r s hs)⟩
    · exact ⟨hsi, .refl, fun r s _ hs => ht.startAt_le (hst r s hs)⟩

lemma Placed.of_startAt (h : l.Placed) (ho : ∀ pc, l'.IsOpen pc ↔ l.IsOpen pc)
    (hh : l'.held = l.held) (hbr : l'.breaks = l.breaks)
    (ht : l'.targets = l.targets) (hsi : l.code.size ≤ l'.code.size)
    (ha : l.active.size ≤ l'.active.size)
    (hs : ∀ r s, l'.startAt r = some s →
      l.startAt r = some s ∨ (s = l.code.size ∧ ∀ t ∈ l.targets, t.level ≤ r)) :
    l'.Placed := by
  refine ⟨fun pc hpc => ?_, fun m hm r s hr hst => ?_, fun p hp pc hpc r s hr hst => ?_,
    fun t hme => ?_⟩
  · have := h.opened pc ((ho pc).mp hpc)
    omega
  · rw [hh] at hm
    rcases hs r s hst with hst | ⟨rfl, -⟩
    · exact h.held m hm r s hr hst
    · have := h.opened m.pc (.inr (.inl ⟨m, hm, rfl⟩))
      omega
  · rw [hbr] at hp
    rcases hs r s hst with hst | ⟨rfl, -⟩
    · exact h.breaks p hp pc hpc r s hr hst
    · have := h.opened pc (.inr (.inr ⟨p, hp, hpc⟩))
      omega
  · rw [ht] at hme
    obtain ⟨hpc, hl, hb⟩ := h.targets t hme
    refine ⟨by omega, by omega, fun r s hr hst => ?_⟩
    rcases hs r s hst with hst | ⟨-, hal⟩
    · exact hb r s hr hst
    · have := hal t hme
      omega

lemma Placed.rescopes (h : l.Placed) (hc : l.code.size < 2 ^ 63) (ht : l.Timed)
    (hr : l.Recorded) (hs : l.Rescopes l') : l'.Placed := by
  cases hs with
  | @declare name b outer d _ _ hd =>
    have heq := (declare_ok hd).2
    refine h.of_startAt (isOpen_congr rfl (by rw [heq]) (by rw [heq])) rfl (by rw [heq]) rfl
      (Nat.le_of_eq (by rw [heq])) (by rw [heq]; simp) fun r s hs => ?_
    refine (Prolongs.declare hc hd).startAt r s hs |>.elim .inl fun hsi => ?_
    -- Only the new variable is behind all places to jump back to.
    by_cases hlt : r < l.active.size
    · left
      obtain ⟨j, v, hj, hv, hvs⟩ := startAt_eq_some.mp hs
      rw [heq] at hj hv
      rw [Array.getElem?_push, if_neg (by omega)] at hj
      have hsl := hr j (Array.mem_of_getElem? hj)
      rw [Array.getElem?_push, if_neg (by omega)] at hv
      exact startAt_eq_some.mpr ⟨j, v, hj, hv, hvs⟩
    · refine .inr ⟨hsi, fun t ht => ?_⟩
      have := (h.targets t ht).2.1
      omega
  | @start r slot pc v i d _ hsl _ _ _ _ _ _ hta hd =>
    obtain ⟨slot', hs', -, heq⟩ := startVariable_ok hd
    cases hsl.symm.trans hs'
    refine h.of_startAt (isOpen_congr rfl (by rw [heq]) (by rw [heq])) rfl (by rw [heq]) rfl
      (Nat.le_of_eq (by rw [heq])) (Nat.le_of_eq (by rw [heq])) fun k s hs => ?_
    refine (Prolongs.startVariable hc hd).startAt k s hs |>.elim .inl fun hsi => ?_
    by_cases hk : k = r
    · subst hk
      exact .inr ⟨hsi, hta⟩
    · left
      obtain ⟨j, w, hj, hw, hws⟩ := startAt_eq_some.mp hs
      rw [heq] at hj hw
      have hne : slot ≠ j := by
        rintro rfl
        have hn : l.active.toList.Nodup := ht.increasing.imp Nat.ne_of_lt
        rw [← Array.getElem?_toList] at hj hsl
        exact hk ((List.getElem?_inj (List.getElem?_eq_some_iff.mp hj).1 hn).mp (hj.trans hsl.symm))
      rw [Array.getElem?_modify, if_neg hne] at hw
      exact startAt_eq_some.mpr ⟨j, w, hj, hw, hws⟩
  | enter hb isLoop =>
    exact h.of_startAt (fun _ => .rfl) rfl rfl rfl .refl .refl fun r s hs => .inl hs

end Layer

namespace Layer

variable {l l' : Layer} {b : Block} {outer : List Block} {jumps : List Nat} {d d' : Draft} {n : Nat}

def after (l : Layer) (n : Nat) (d : Draft) : Layer :=
  ⟨d, l.held.map (·.lower n), l.targets.filter (·.level ≤ n), none⟩

def Sealed (l : Layer) (n : Nat) : Prop :=
  ∀ (r : Nat) (s : Int), n ≤ r → l.startAt r = some s → ∀ (pc : Nat) (i : Instruction),
    l.code[pc]? = some i → s ≤ pc → i.Closes n ∨ l.IsBound pc ∨
      (¬ l.IsOpen pc ∧ ∀ t ∈ i.successors pc, s ≤ t ∧ t < l.code.size)

lemma exists_held_lower {pc : Nat} :
    (∃ m ∈ l.held.map (·.lower n), m.pc = pc) ↔ ∃ m ∈ l.held, m.pc = pc := by
  simp only [List.mem_map]
  constructor
  · rintro ⟨-, ⟨m, hm, rfl⟩, rfl⟩
    exact ⟨m, hm, rfl⟩
  · rintro ⟨m, hm, rfl⟩
    exact ⟨m.lower n, ⟨m, hm, rfl⟩, rfl⟩

lemma isOpen_after (he : Ends b outer jumps l.toDraft d') (pc : Nat) :
    (l.after b.numActive d').IsOpen pc ↔ l.IsOpen pc := by
  have hbr : (pc ∈ d'.pending ∨ ∃ p ∈ d'.breaks, pc ∈ p.jumps) ↔
      (pc ∈ l.pending ∨ ∃ p ∈ l.breaks, pc ∈ p.jumps) := by
    constructor
    · rintro (hpc | ⟨p, hp, hpc⟩)
      · rcases (he.pending pc).mp hpc with hpc | ⟨-, i, p, -, hp, hpc⟩
        · exact .inl hpc
        · exact .inr ⟨p, Array.mem_of_getElem? hp, hpc⟩
      · obtain ⟨k, hk⟩ := Array.mem_iff_getElem?.mp hp
        obtain ⟨q, hq, heq, -⟩ := he.break_of hk
        exact .inr ⟨q, Array.mem_of_getElem? hq, heq ▸ hpc⟩
    · rintro (hpc | ⟨p, hp, hpc⟩)
      · exact .inl ((he.pending pc).mpr (.inl hpc))
      · obtain ⟨k, hk⟩ := Array.mem_iff_getElem?.mp hp
        have hb := he.breaks k
        split at hb
        · rw [hk] at hb
          exact .inr ⟨p, Array.mem_of_getElem? hb, hpc⟩
        · split at hb
          · next hf hl =>
            exact .inl ((he.pending pc).mpr (.inr ⟨hl, k, p, by omega, hk, hpc⟩))
          · rw [hk] at hb
            exact .inr ⟨p.lower b.numActive, Array.mem_of_getElem? hb, hpc⟩
  simp only [IsOpen, IsBound, after, exists_held_lower]
  rw [or_left_comm, hbr, or_left_comm]

lemma Placed.after (h : l.Placed) (ht : l.Timed) (he : Ends b outer jumps l.toDraft d') :
    (l.after b.numActive d').Placed := by
  have hu := he.undeclares
  refine ⟨fun pc hpc => ?_, fun m hm r s hr hs => ?_, fun p hp pc hpc r s hr hs => ?_,
    fun t hme => ?_⟩
  · have := h.opened pc ((isOpen_after he pc).mp hpc)
    exact Nat.lt_of_lt_of_eq this hu.size.symm
  · obtain ⟨hs, hlt⟩ := hu.startAt ht hs
    obtain ⟨m, hme, rfl⟩ := List.mem_map.mp hm
    refine h.held m hme r s ?_ hs
    simp only [Mark.lower] at hr
    omega
  · obtain ⟨hs, hlt⟩ := hu.startAt ht hs
    obtain ⟨k, hk⟩ := Array.mem_iff_getElem?.mp hp
    obtain ⟨q, hq, heq, -, hlo, hsa⟩ := he.break_of hk
    rw [heq] at hpc
    refine h.breaks q (Array.mem_of_getElem? hq) pc hpc r s ?_ hs
    by_cases hf : k < b.firstBreak
    · rw [hsa hf] at hr
      exact hr
    · rw [hlo (by omega), PendingBreak.lower] at hr
      dsimp only at hr
      omega
  · obtain ⟨hme, hl⟩ := List.mem_filter.mp hme
    rw [decide_eq_true_eq] at hl
    obtain ⟨hpc, ha, hb⟩ := h.targets t hme
    have hsi := congrArg List.length hu.active
    simp only [Array.length_toList, List.length_take] at hsi
    have hc := hu.size
    refine ⟨?_, ?_, fun r s hr hs => hb r s hr (hu.startAt ht hs).1⟩
    · dsimp only [Layer.after]
      omega
    · dsimp only [Layer.after]
      omega

lemma IsBound.closes {r pc : Nat} {s : Int} {i j : Instruction} (h : l.IsBound pc) (hp : l.Placed)
    (hn : l.Nests) (hb : l.blocks = b :: outer) (hc : b.isCaptured = true)
    (hlevel : b.numActive < 255) (he : Ends b outer jumps l.toDraft d')
    (hh : ∀ m ∈ l.held, m.level ≤ b.numActive ∨ ∀ i, l.code[m.pc]? = some i → i.Closes b.numActive)
    (hr : b.numActive ≤ r) (hs : l.startAt r = some s) (hpc : s ≤ pc)
    (hi : l.code[pc]? = some i) (hj : d'.code[pc]? = some j)
    (hij : ∀ r, i.Closes r → j.Closes r) : j.Closes b.numActive := by
  rcases h with ⟨m, hm, rfl⟩ | ⟨p, hme, hpj⟩
  · rcases hh m hm with hle | hcl
    · have := hp.held m hm r s (by omega) hs
      omega
    · exact hij _ (hcl i hi)
  · by_cases hle : p.numActive ≤ b.numActive
    · have := hp.breaks p hme pc hpj r s (by omega) hs
      omega
    · obtain ⟨k, hk⟩ := Array.mem_iff_getElem?.mp hme
      have hf : b.firstBreak ≤ k := Decidable.byContradiction fun hlt =>
        hle (hn.within b (by simp [hb]) k p (by omega) hk)
      have hloop : b.isLoop = false := by
        have hlo := hn.loops
        rw [hb] at hlo
        cases hl : b.isLoop with
        | false => rfl
        | true =>
          have := (hlo.1 hl).1
          rw [hc] at this
          cases this
      have hin := he.closed hc hloop k p hf hk (by omega) hpj
      obtain ⟨j', hj', hsh⟩ := he.code.made pc hin i hi
      cases hj.symm.trans hj'
      exact hsh.closes hlevel

lemma Guards.after (h : l.Guards) (ht : l.Timed) (hp : l.Placed) (hl : l.Lends)
    (hn : l.Nests) (hcode : l.code.size < 2 ^ 63) (hb : l.blocks = b :: outer)
    (hle : b.numActive < 255) (he : Ends b outer jumps l.toDraft d')
    (hse : b.isCaptured = true → l.Sealed b.numActive)
    (hh : b.isCaptured = true → ∀ m ∈ l.held, m.level ≤ b.numActive ∨
      ∀ i, l.code[m.pc]? = some i → i.Closes b.numActive) :
    (l.after b.numActive d').Guards := by
  have hu := he.undeclares
  have ha : Advances l.IsOpen (l.after b.numActive d').IsOpen (fun _ => False) l.code
      d'.code := .shut he.code (isOpen_after he) hle
  have hc : l.SameClosures d' := .of_advances ha he.functions.1
  constructor
  · intro r s hs pc j hj hpc
    have hlt : pc < l.code.size := Nat.lt_of_lt_of_eq (lt_size hj) hu.size
    have hi : l.code[pc]? = some l.code[pc] := Array.getElem?_eq_getElem hlt
    obtain ⟨j', hj', hij⟩ := ha.altered pc _ hi
    cases hj.symm.trans hj'
    obtain ⟨hs, -⟩ := hu.startAt ht hs
    rcases hij.flow with ⟨hif, hsub⟩ | ⟨-, hsa⟩
    · refine (h.inside r s hs pc _ hi hpc).imp hif.mpr fun hstay t hsu => ?_
      have := hstay t (hsub hsu)
      have := hu.size
      dsimp only [Layer.after]
      omega
    · refine .inr fun t hsu => (hsa t hsu).elim (fun heq => ?_) False.elim
      have := hu.size
      dsimp only [Layer.after]
      omega
  · intro j v hen hca pc i' hi' hst hstop
    -- The range is not empty, so that the scope has a register there.
    have hsi : v.stop ≤ l.code.size := by
      have := (hu.timed ht hcode).ended j v hen.1 hen.2
      have := hu.size
      omega
    have hpl : d'.place j v.start = l.place j v.start := hu.place hcode (by omega) j
    obtain ⟨pc0, i0, u, hma, hin, hindex, hco, hpc0⟩ := hca
    have hm0 : l.MakesAt pc0 i0 u := hc.makesAt.mp hma
    have hi0 : u.index.toNat = l.place j v.start := hindex.trans hpl
    show i'.Closes (d'.place j v.start) ∨ _
    rw [hpl]
    rcases hu.ended hen with hold | ⟨r, w, hr, hj, hw, rfl⟩
    · have hcl := h.left j v hold ⟨pc0, i0, u, hm0, hin, hi0, hco, hpc0⟩
      exact hcl.altered hsi ha.altered pc i' hi' hst hstop
    · have hr' : l.place j w.start = r := ht.place_eq hj hw
      have hs : l.startAt r = some w.start := startAt_eq_some.mpr ⟨j, w, hj, hw, rfl⟩
      have hs' : w.start ≤ pc := hst
      have hin' : u.index.toNat = r := hi0.trans hr'
      have hm : Marked u.index.toNat l.blocks := by
        refine hl.marked pc0 i0 u hm0 hin w.start ?_ hco
        rw [hin']
        exact hs
      rw [hb] at hm
      have hcap : b.isCaptured = true := hm.captured (by omega)
      have hlt : pc < l.code.size := Nat.lt_of_lt_of_eq (lt_size hi') hu.size
      have hi : l.code[pc]? = some l.code[pc] := Array.getElem?_eq_getElem hlt
      obtain ⟨j', hj', hij⟩ := ha.altered pc _ hi
      cases hi'.symm.trans hj'
      have hst' : (l.stopped w).stop = l.code.size := Int64.toInt_ofNat_of_lt hcode
      have hrr : l.place j (l.stopped w).start = r := hr'
      rw [hrr, hst']
      rcases hse hcap r w.start hr hs pc _ hi hs' with hcl | hbo | ⟨hop, hstay⟩
      · exact .inl ((hij.closes _ hcl).mono hr)
      · exact .inl ((hbo.closes hp hn hb hcap hle he (hh hcap) hr hs hs' hi hj' hij.closes).mono hr)
      · rcases hij.flow with ⟨hif, hsub⟩ | ⟨ho', -⟩
        · exact .inr ⟨fun ho => hop (hif.mp ho), fun t hsu => hstay t (hsub hsu)⟩
        · exact absurd ho' hop

end Layer

end Trace

end LuaBytecode
