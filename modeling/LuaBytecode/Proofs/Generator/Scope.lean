import LuaBytecode.Proofs.Generator.Operand

namespace LuaBytecode

open Draft

variable {js : List Nat} {n m' r' k : Nat} {b : Block} {g' : Generator} {l' : Link} {d : Draft}

namespace Nested

variable {bs outer : List Block} {n' : Nat}

lemma numActive_le (h : Nested bs n k) : ∀ b ∈ bs, b.numActive ≤ n := h.ranked.le

lemma declare (hne : bs ≠ []) (h : Nested bs n k) (hn : n ≤ n') : Nested bs n' k := by
  cases bs with
  | nil => exact absurd rfl hne
  | cons b outer => exact ⟨Nat.le_trans h.1 hn, h.2⟩

lemma enter (hne : bs ≠ []) (h : Nested bs n k) (isLoop : Bool) :
    Nested (⟨k, n, false, isLoop⟩ :: bs) n k := by
  refine ⟨.refl, .refl, ?_, fun hn => absurd hn hne, h⟩
  cases bs with
  | nil => exact absurd rfl hne
  | cons b outer => exact h.2.2.1.imp_right fun ha => by simp [ha]

lemma addBreak (h : Nested bs n k) (hl : bs.any (·.isLoop) = true) : Nested bs n (k + 1) := by
  cases bs with
  | nil => cases hl
  | cons b outer => exact ⟨h.1, Nat.le_succ_of_le h.2.1, .inr hl, h.2.2.2⟩

lemma leave (h : Nested (b :: outer) n k) (hk : b.isLoop = true → k = b.firstBreak) :
    Nested outer b.numActive k := by
  obtain ⟨-, hle, hl, hla, ho⟩ := h
  cases hb : b.isLoop with
  | true =>
    rw [hk hb]
    exact ho
  | false =>
    have hl' : k = 0 ∨ outer.any (·.isLoop) = true := by simpa [hb] using hl
    cases outer with
    | nil => exact ⟨ho.1, by simpa using hl'⟩
    | cons c rest => exact ⟨ho.1, Nat.le_trans ho.2.1 hle, hl', ho.2.2.2⟩

end Nested

namespace Draft

variable {d' d'' : Draft} {S : Nat → Prop} {m : Nat}

structure Carries (n : Nat) (d d' : Draft) : Prop where
  closable : ∀ pc, Closable d.code n pc → Closable d'.code n pc
  bounds : d.bounds.Le d'.bounds

lemma Carries.refl (d : Draft) : d.Carries n d := ⟨fun _ h => h, .refl _⟩

lemma Carries.trans (h : d.Carries n d') (h' : d'.Carries n d'') : d.Carries n d'' :=
  ⟨fun pc hc => h'.closable pc (h.closable pc hc), h.bounds.trans h'.bounds⟩

lemma Keeps.carries (h : d.Keeps S m d') (hn : n ≤ m) : d.Carries n d' :=
  ⟨fun pc => h.closable n pc hn, h.bounds⟩

end Draft

namespace Generator

variable {g g0 g'' : Generator} {m r : Nat} {l : Link}

structure Past (g g' : Generator) : Prop where
  inBlock : g.blocks ≠ []
  frame : g.Frame g.active.size g'.toDraft
  active : ∃ more, g'.active = g.active ++ more
  names : ∃ more, g'.localVariables.map (·.name) = g.localVariables.map (·.name) ++ more
  breaks : ∃ more, g'.breaks = g.breaks ++ more ∧ ∀ p ∈ more, ∀ pc ∈ p.jumps, g.Loose pc
  shapes : g'.blocks.map Block.shape = g.blocks.map Block.shape
  outer : List.Forall₂ Touched g.enclosing g'.enclosing

lemma Past.refl (h : g.blocks ≠ []) : g.Past g :=
  ⟨h, .refl _, ⟨#[], by simp⟩, ⟨#[], by simp⟩, ⟨#[], by simp⟩, rfl, forall₂_touched_refl _⟩

lemma Past.level_le (h : g.Past g') : g.active.size ≤ g'.active.size := by
  obtain ⟨more, hm⟩ := h.active
  simp [hm]

lemma Past.trans (h : g.Past g') (h' : g'.Past g'') : g.Past g'' where
  inBlock := h.inBlock
  frame := h.frame.trans h'.frame h.level_le
  active := by
    obtain ⟨more, hm⟩ := h.active
    obtain ⟨more', hm'⟩ := h'.active
    exact ⟨more ++ more', by rw [hm', hm, Array.append_assoc]⟩
  names := by
    obtain ⟨more, hm⟩ := h.names
    obtain ⟨more', hm'⟩ := h'.names
    exact ⟨more ++ more', by rw [hm', hm, Array.append_assoc]⟩
  breaks := by
    obtain ⟨more, hm, hl⟩ := h.breaks
    obtain ⟨more', hm', hl'⟩ := h'.breaks
    refine ⟨more ++ more', by rw [hm', hm, Array.append_assoc], fun p hp pc hpc => ?_⟩
    rcases Array.mem_append.mp hp with hp | hp
    · exact hl p hp pc hpc
    · exact h.frame.loose (hl' p hp pc hpc)
  shapes := h'.shapes.trans h.shapes
  outer := forall₂_touched_trans h.outer h'.outer

lemma Past.alter (h : g.Past g') (h' : g'.Alters g.Loose g'')
    (hn : g.active.size ≤ 255) : g.Past g'' where
  inBlock := h.inBlock
  frame := Keeps.trans h.frame h'.frame hn fun _ hpc => hpc
  active := by rw [h'.active]; exact h.active
  names := by rw [h'.localVariables]; exact h.names
  breaks := by rw [h'.breaks]; exact h.breaks
  shapes := h'.shapes.trans h.shapes
  outer := forall₂_touched_trans h.outer h'.outer

lemma Past.inBlock' (h : g.Past g') : g'.blocks ≠ [] := by
  intro hn
  have hs := h.shapes
  rw [hn, List.map_nil, eq_comm, List.map_eq_nil_iff] at hs
  exact h.inBlock hs

structure Passes (m : Nat) (l : Link) (r : Nat) (g g' : Generator) : Prop extends
    g.Past g' where
  ready : g'.Ready m l
  top : g'.firstFree = r

section

variable (h : g.Passes m l r g0)
include h

lemma Passes.reaches : g0.Reaches m l r g0 := ⟨.refl g0, h.ready, h.top⟩

lemma Passes.restart : g0.Passes m l r g0 := ⟨.refl h.inBlock', h.ready, h.top⟩

lemma Passes.trans (h' : g0.Passes m' l' r' g') :
    g.Passes m' l' r' g' :=
  ⟨h.toPast.trans h'.toPast, h'.ready, h'.top⟩

lemma Passes.active_le : g0.active.size ≤ 200 := h.ready.sound.active

lemma Passes.alter (h' : g0.Alters g.Loose g')
    (hr : g'.Ready m' l') (ht : g'.firstFree = r') : g.Passes m' l' r' g' := by
  have hn := h.active_le
  have hle := h.level_le
  exact ⟨h.toPast.alter h' (by omega), hr, ht⟩

lemma Passes.step (h' : g0.Reaches m' l' r' g') :
    g.Passes m' l' r' g' :=
  h.alter { h'.toAlters with frame := h'.frame.weaken h.frame.pending } h'.ready h'.top

end

lemma Passes.mono (h : g.Passes m l r g') (hm : m' ≤ m) : g.Passes m' l r g' :=
  { h with ready := h.ready.mono hm }

abbrev Rests (g g' : Generator) : Prop := g.Passes g'.active.size .plain g'.active.size g'

lemma Passes.closed (h : g.Passes m l r g0) {code : Array Instruction}
    (hc : Closed js n g0.code code) (hn : g.active.size ≤ n) (hm : m ≤ n)
    (hb : ∀ b ∈ g0.blocks, b.numActive ≤ n) (hl : ∀ pc ∈ js, g.Loose pc) :
    g.Passes m l r { g0 with toDraft := { g0.toDraft with code := code } } := by
  have hke : g0.Keeps g.Loose g.active.size
      { g0.toDraft with code := code } :=
    .recoded hc.size (fun pc i hi hlo => by rw [hc.kept pc fun hpc => hlo (hl pc hpc), hi])
      (fun k pc hk => hc.closable (Nat.le_trans hk hn)) fun pc hpc => .inl (h.frame.pending pc hpc)
  have hd := h.ready
  refine ⟨{ h.toPast with frame := ?_ }, ?_, h.top⟩
  · exact Keeps.trans h.frame hke .refl fun _ h => h
  · exact
      { sound := hd.sound.modify (hc.coded hd.sound.coded) (by rw [hc.size]; exact hd.sound.lines)
          (fun b hmem pc => hc.closable (hb b hmem)) hd.sound.top .refl hd.sound.stack
        chained := hd.chained
        link := by
          show linkAt code code.size = l
          rw [hc.size, hc.linkAt_eq hd.sound.coded]
          exact hd.link
        top := hd.top
        settled := fun pc hpc => hc.closable hm (hd.settled pc hpc)
        level := hd.level }

end Generator

namespace Draft

variable {d' : Draft} {names : List Bytes}

structure Declared (names : List Bytes) (d d' : Draft) : Prop where
  eq : d' = { d with localVariables := d'.localVariables, active := d'.active }
  active : d'.active = d.active ++ (List.range' d.localVariables.size names.length).toArray
  named : d'.localVariables.map (·.name) = d.localVariables.map (·.name) ++ names.toArray
  count : d.active.size ≤ maxVariables → d'.active.size ≤ maxVariables

lemma Declared.size (h : Declared names d d') : d'.active.size = d.active.size + names.length := by
  simp [h.active]

lemma Declared.variables_size (h : Declared names d d') :
    d'.localVariables.size = d.localVariables.size + names.length := by
  simpa using congrArg Array.size h.named

lemma declareAll_cases (names : List Bytes) (d : Draft) :
    (∃ d', declareAll names d = .ok d' ∧ d.Declared names d') ∨
    Rejected (declareAll names d) := by
  induction names generalizing d with
  | nil => exact .inl ⟨d, rfl, rfl, by simp, by simp, id⟩
  | cons name rest ih =>
    by_cases hm : maxVariables ≤ d.active.size
    · exact .inr ⟨_, by simp [declareAll, declare, hm]; rfl, rfl⟩
    · have hs : declareAll (name :: rest) d = declareAll rest { d with
          localVariables := d.localVariables.push ⟨name, .ofNat d.code.size, 0⟩
          active := d.active.push d.localVariables.size } := by
        simp [declareAll, declare, hm]
      rw [hs]
      refine (ih _).imp_left ?_
      rintro ⟨d', hok, heq, ha, hv, hc⟩
      refine ⟨d', hok, heq, ?_, ?_, fun _ => hc ?_⟩
      · rw [ha]
        apply Array.toList_inj.mp
        simp [List.range'_succ]
      · rw [hv]
        simp
      · simp only [Array.size_push]
        omega

lemma Sound.declared (h : d.Sound) (hne : d.blocks ≠ []) (hd : Declared names d d') :
    d'.Sound := by
  have hsl : ∀ slot ∈ d'.active, slot < d'.localVariables.size := by
    intro slot hs
    rw [hd.active] at hs
    rw [hd.variables_size]
    rcases Array.mem_append.mp hs with hs | hs
    · have := h.slots slot hs
      omega
    · have : d.localVariables.size ≤ slot ∧ slot < d.localVariables.size + names.length := by
        simpa using hs
      omega
  rw [hd.eq]
  exact
    { h with
      nested := h.nested.declare hne (by rw [hd.size]; omega)
      slots := hsl
      active := hd.count h.active }

lemma map_name_modify (vars : Array LocalVariable) (slot : Nat) (f : LocalVariable → LocalVariable)
    (hf : ∀ v, (f v).name = v.name) :
    (vars.modify slot f).map (·.name) = vars.map (·.name) := by
  refine Array.ext (by simp) fun k hk _ => ?_
  simp only [Array.getElem_map, Array.getElem_modify]
  split
  · exact hf _
  · rfl

lemma map_name_foldl_modify (slots : List Nat) (vars : Array LocalVariable)
    (f : LocalVariable → LocalVariable) (hf : ∀ v, (f v).name = v.name) :
    (slots.foldl (fun vars slot => vars.modify slot f) vars).map (·.name) = vars.map (·.name) := by
  induction slots generalizing vars with
  | nil => rfl
  | cons slot rest ih =>
    rw [List.foldl_cons, ih, map_name_modify _ _ _ hf]

lemma undeclare_eq_ok (h : ∀ slot ∈ d.active, slot < d.localVariables.size)
    (hn : n ≤ d.active.size) : ∃ vars, d.undeclare n =
      .ok { d with localVariables := vars, active := d.active.take n } ∧
      vars.map (·.name) = d.localVariables.map (·.name) := by
  have ha : d.active.any (d.localVariables.size ≤ ·) n = false := by
    rw [Bool.eq_false_iff, Ne, Array.any_iff_exists]
    rintro ⟨k, hk, -, -, hle⟩
    have := h _ (Array.getElem_mem hk)
    simp at hle
    omega
  refine ⟨d.active.foldl (fun vars slot => vars.modify slot fun record =>
    { record with endPC := Int64.ofNat d.code.size }) d.localVariables n, ?_, ?_⟩
  · simp only [undeclare, ha, Bool.or_false, decide_eq_true_eq, Nat.not_lt.mpr hn, if_false]
  · rw [Array.foldl_eq_foldl_extract, ← Array.foldl_toList]
    exact map_name_foldl_modify _ _ _ fun _ => rfl

lemma foldl_patchToHere (bs : List PendingBreak) (d : Draft) :
    bs.foldl (fun d b => d.patchToHere b.jumps) d = { d with
      lastTarget := if bs = [] then d.lastTarget else d.code.size
      pending := d.pending ++ bs.flatMap (·.jumps) } := by
  induction bs generalizing d with
  | nil => simp
  | cons b rest ih =>
    rw [List.foldl_cons, ih]
    simp [patchToHere, label]

lemma patchBreaks_eq_ok {bs : Array PendingBreak} (more : List PendingBreak)
    (h : d.breaks = bs ++ more.toArray) : d.patchBreaks bs.size = .ok { d with
      lastTarget := if more = [] then d.lastTarget else d.code.size
      pending := d.pending ++ more.flatMap (·.jumps)
      breaks := bs } := by
  have hs : ¬ d.breaks.size < bs.size := by simp [h]
  have hl : (d.breaks.extract bs.size).toList = more := by simp [h]
  have ht : d.breaks.take bs.size = bs := by simp [h]
  simp only [patchBreaks, hs, if_false]
  rw [Array.foldl_eq_foldl_extract, ← Array.foldl_toList, hl, foldl_patchToHere]
  simp only [ht]

end Draft

namespace Generator

variable {g g0 : Generator} {m r : Nat} {l : Link} {isLoop : Bool}

lemma Passes.declared (h : g.Passes m l r g0) {names : List Bytes} {d : Draft}
    (hd : g0.Declared names d) (hr : g0.active.size + names.length ≤ r) :
    g.Passes m l r { g0 with toDraft := d } := by
  have hs := h.ready
  have hso := hs.sound.declared h.inBlock' hd
  have hsi := hd.size
  have hp : g0.Past { g0 with toDraft := d } :=
    { inBlock := h.inBlock'
      frame := by
        rw [hd.eq]
        exact { Frame.refl g0.toDraft with }
      active := ⟨_, hd.active⟩
      names := ⟨_, hd.named⟩
      breaks := ⟨#[], by rw [hd.eq]; simp, by simp⟩
      shapes := by rw [hd.eq]
      outer := forall₂_touched_refl _ }
  refine ⟨h.toPast.trans hp, ⟨⟨hso, ?_, ?_, ?_⟩, ?_, hs.level⟩, ?_⟩
  · rw [hd.eq]
    exact hs.chained
  · rw [hd.eq]
    exact hs.link
  · show d.active.size ≤ d.firstFree
    have ht : d.firstFree = r := by rw [hd.eq]; exact h.top
    omega
  · rw [hd.eq]
    exact hs.settled
  · rw [hd.eq]
    exact h.top

lemma Passes.record (h : g.Passes m l r g0) {vars : Array LocalVariable}
    (hv : vars.map (·.name) = g0.localVariables.map (·.name)) :
    g.Passes m l r { g0 with toDraft := { g0.toDraft with localVariables := vars } } := by
  have hs : vars.size = g0.localVariables.size := by
    simpa using congrArg Array.size hv
  refine ⟨{ h.toPast with frame := { h.frame with }, names := ?_ },
    { h.ready with sound := { h.ready.sound with slots := fun slot hsl => ?_ } }, h.top⟩
  · obtain ⟨more, hm⟩ := h.names
    exact ⟨more, hv.trans hm⟩
  · rw [hs]
    exact h.ready.sound.slots slot hsl

lemma Passes.addBreak (h : g.Passes m l r g0) {js : List Nat}
    (hlo : g0.isInLoop = true) (hj : ∀ pc ∈ js, g.Loose pc ∧ Closable g0.code g0.active.size pc) :
    g.Passes m l r { g0 with toDraft := g0.addBreak js } := by
  have hs := h.ready
  obtain ⟨more, hm, hl⟩ := h.breaks
  refine ⟨{ h.toPast with
      frame := { h.frame with }
      breaks := ⟨more.push ⟨js, g0.active.size⟩, ?_, fun p hp => ?_⟩ },
    { hs with sound := ?_ }, h.top⟩
  · show g0.breaks.push _ = _
    rw [hm, Array.push_append]
  · rcases Array.mem_push.mp hp with hp | rfl
    · exact hl p hp
    · exact fun pc hpc => (hj pc hpc).1
  · exact
      { hs.sound with
        nested := by
          show Nested g0.blocks _ (g0.breaks.push _).size
          rw [Array.size_push]
          exact hs.sound.nested.addBreak hlo
        breaks := fun b hb k p hk hp pc hpc => by
          replace hp : (g0.breaks.push ⟨js, g0.active.size⟩)[k]? = some p := hp
          rw [Array.getElem?_push] at hp
          split at hp
          · cases hp
            exact (hj pc hpc).2.mono (hs.sound.nested.numActive_le b hb)
          · exact hs.sound.breaks b hb k p hk hp pc hpc }

def entered (g : Generator) (isLoop : Bool) : Generator :=
  { g with toDraft := g.enterBlock isLoop }

lemma Passes.enter (h : g.Passes m l r g0) (isLoop : Bool) :
    (g0.entered isLoop).Passes m l r (g0.entered isLoop) := by
  have hs := h.ready
  refine ⟨.refl (List.cons_ne_nil _ _), { hs with sound := ?_ }, h.top⟩
  exact
    { hs.sound with
      nested := hs.sound.nested.enter h.inBlock' isLoop
      breaks := fun b hb k p hk hp pc hpc => by
        rcases List.mem_cons.mp hb with rfl | hb
        · have hlt := lt_size hp
          exact absurd hk (Nat.not_le.mpr hlt)
        · exact hs.sound.breaks b hb k p hk hp pc hpc }

lemma Passes.enterBehind (h : g.Passes m l r g0) (h' : g0.Reaches m' l' r' g') (isLoop : Bool) :
    (g0.entered isLoop).Passes m' l' r' (g'.entered isLoop) := by
  have hn := h.active_le
  have hin := (h.step h').enter isLoop
  have hw := h'.toAlters
  have hs : (g0.entered isLoop).Past (g0.entered isLoop) := .refl (List.cons_ne_nil _ _)
  refine ⟨hs.alter ?_ (show g0.active.size ≤ 255 by omega), hin.ready, hin.top⟩
  refine ⟨?_, hw.active, hw.localVariables, hw.breaks, ?_, hw.outer⟩
  · exact { hw.frame.weaken (fun pc hpc => (Or.inl hpc : g0.Loose pc)) with }
  · show _ :: _ = _ :: _
    rw [hw.shapes]
    simp only [Block.shape, hw.breaks, hw.active]

lemma Past.innermost (h : (g.entered isLoop).Past g0) : ∃ b outer,
    g0.blocks = b :: outer ∧ b.firstBreak = g.breaks.size ∧
      b.numActive = g.active.size ∧ b.isLoop = isLoop ∧
      outer.map Block.shape = g.blocks.map Block.shape := by
  have hs := h.shapes
  cases hb : g0.blocks with
  | nil => simp [hb, entered, enterBlock] at hs
  | cons b outer =>
    simp only [hb, entered, enterBlock, List.map_cons, List.cons.injEq, Block.shape,
      Prod.mk.injEq] at hs
    exact ⟨b, outer, rfl, hs.1.1, hs.1.2.1, hs.1.2.2, hs.2⟩

lemma Passes.endLoop (h : (g.entered true).Passes g.active.size l r g0) : ∃ d,
    g0.patchBreaks g.breaks.size = .ok d ∧
      g0.Carries g.active.size d ∧ d.breaks.size = g.breaks.size ∧
      (g.entered true).Passes g.active.size l r { g0 with toDraft := d } := by
  obtain ⟨b, outer, hb, hf, hnu, hlo, -⟩ := h.innermost
  obtain ⟨more, hm, hl⟩ := h.breaks
  have hs := h.ready
  have hj : ∀ pc ∈ more.toList.flatMap (·.jumps), (g.entered true).Loose pc ∧
      Closable g0.code g.active.size pc := by
    intro pc hpc
    obtain ⟨p, hp, hpc⟩ := List.mem_flatMap.mp hpc
    obtain ⟨k, hk, rfl⟩ := List.getElem_of_mem hp
    have hg : g0.breaks[g.breaks.size + k]? = some more.toList[k] := by
      rw [hm]
      show (g.breaks ++ more)[g.breaks.size + k]? = _
      rw [Array.getElem?_append_right (Nat.le_add_right _ _), Nat.add_sub_cancel_left]
      exact Array.getElem?_eq_getElem hk
    refine ⟨hl _ (Array.mem_toList_iff.mp (List.getElem_mem hk)) pc hpc, ?_⟩
    rw [← hnu]
    exact hs.sound.breaks b (by simp [hb]) _ _ (by omega) hg pc hpc
  refine ⟨_, patchBreaks_eq_ok more.toList (by rw [hm]; rfl), ⟨fun _ hc => hc, .refl _⟩, rfl, ?_⟩
  have hpe : ∀ pc ∈ g0.pending ++ more.toList.flatMap (·.jumps),
      (g.entered true).Loose pc ∧ Closable g0.code g.active.size pc := by
    intro pc hpc
    rcases List.mem_append.mp hpc with hpc | hpc
    · exact ⟨h.frame.pending pc hpc, hs.settled pc hpc⟩
    · exact hj pc hpc
  refine ⟨{ h.toPast with frame := ?_, breaks := ⟨#[], by simp [entered, enterBlock], by simp⟩ },
    ⟨⟨?_, hs.chained, hs.link, hs.top⟩, fun pc hpc => (hpe pc hpc).2, hs.level⟩, h.top⟩
  · exact
      { h.frame with
        pending := fun pc hpc => (hpe pc hpc).1
        mergeable := fun hsi hme => by
          obtain ⟨hlt, hni⟩ := hme
          refine h.frame.mergeable hsi ⟨?_, (List.append_eq_nil_iff.mp hni).1⟩
          split at hlt
          · exact hlt
          · exact absurd hlt (Nat.lt_irrefl _) }
  · exact
      { hs.sound with
        nested := by
          have hn := hs.sound.nested
          rw [hb] at hn ⊢
          exact ⟨hn.1, Nat.le_of_eq hf, .inr (by simp [hlo]), hn.2.2.2⟩
        breaks := fun c hc k p hk hp pc hpc => by
          refine hs.sound.breaks c hc k p hk ?_ pc hpc
          have hlt := lt_size hp
          rw [hm]
          simpa [entered, enterBlock, Array.getElem?_append_left hlt] using hp }

lemma Passes.leave (h : (g.entered isLoop).Passes g.active.size l r g0)
    (hg : g.blocks ≠ []) {outer : List Block}
    (ho : outer.map Block.shape = g.blocks.map Block.shape)
    (hlo : isLoop = true → g0.breaks.size = g.breaks.size) : ∃ d,
    undeclare { g0.toDraft with blocks := outer } g.active.size = .ok d ∧
      d.code = g0.code ∧ d.bounds = g0.bounds ∧ d.breaks = g0.breaks ∧
      d.active = g.active ∧
      g.Passes g.active.size l g.active.size
        { g0 with toDraft := d.setFirstFree g.active.size } := by
  obtain ⟨b, outer', hbl, hf, hnu, hb, hsh⟩ := h.innermost
  obtain ⟨more, hm⟩ := h.active
  replace hm : g0.active = g.active ++ more := hm
  have hs := h.ready
  have hle : g.active.size ≤ g0.active.size := by simp [hm]
  have ht : g0.active.take g.active.size = g.active := by simp [hm]
  obtain ⟨vars, hok, hna⟩ := undeclare_eq_ok
    (d := { g0.toDraft with blocks := outer }) hs.sound.slots hle
  rw [ht] at hok
  have hv : vars.size = g0.localVariables.size := by
    simpa using congrArg Array.size hna
  have hso : outer.map Block.shape = outer'.map Block.shape := ho.trans hsh.symm
  refine ⟨_, hok, rfl, rfl, rfl, rfl,
    ⟨hg, ?_, ⟨#[], Array.append_empty.symm⟩, ?_, h.breaks, ho, h.outer⟩,
    ⟨⟨?_, hs.chained, hs.link, .refl⟩, hs.settled, hs.level⟩, rfl⟩
  · exact { h.frame with }
  · obtain ⟨more', hm'⟩ := h.names
    exact ⟨more', hna.trans hm'⟩
  · have hn := hs.sound.nested
    rw [hbl] at hn
    have hto := hs.top
    have hst := hs.sound.top
    exact
      { hs.sound with
        top := by
          show g.active.size ≤ g0.maxStackSize
          omega
        released := by
          rw [hs.sound.released]
          rfl
        nested := by
          have hl := hn.leave fun hb' => by rw [hlo (hb.symm.trans hb'), hf]
          rw [hnu] at hl
          exact hl.congr hso
        breaks := fun c hc k p hk hp pc hpc => by
          obtain ⟨c', hc', h1, h2⟩ := exists_block_of_shapes hso hc
          rw [← h2]
          exact hs.sound.breaks c' (by simp [hbl, hc']) k p (by omega) hp pc hpc
        slots := fun slot hsl => by
          show slot < vars.size
          rw [hv]
          exact hs.sound.slots slot (by rw [hm]; exact Array.mem_append_left _ hsl)
        active := Nat.le_trans hle hs.sound.active }

lemma Passes.recount (h : g.Passes m l r g0) {i : Nat} {p : PendingBreak} (hi : g.breaks.size ≤ i)
    (hp : g0.breaks[i]? = some p) : g.Passes m l r { g0 with toDraft := { g0.toDraft with
      breaks := g0.breaks.setIfInBounds i { p with numActive := n } } } := by
  have hs := h.ready
  obtain ⟨more, hm, hl⟩ := h.breaks
  have hg : more[i - g.breaks.size]? = some p := by
    rw [← hp, hm, Array.getElem?_append_right hi]
  have hme := Array.mem_of_getElem? hg
  refine ⟨{ h.toPast with breaks := ⟨more.setIfInBounds (i - g.breaks.size)
    { p with numActive := n }, ?_, fun q hq => ?_⟩, frame := { h.frame with } },
    { hs with sound := ?_ }, h.top⟩
  · rw [hm, Array.setIfInBounds_append, if_neg (Nat.not_lt.mpr hi)]
  · rcases Array.mem_or_eq_of_mem_setIfInBounds hq with hq | rfl
    · exact hl q hq
    · exact hl p hme
  · exact
      { hs.sound with
        nested := by simpa using hs.sound.nested
        breaks := fun b hb k q hk hq => by
          simp only [Array.getElem?_setIfInBounds] at hq
          split at hq
          · split at hq
            · cases hq
              exact hs.sound.breaks b hb i p (by omega) hp
            · cases hq
          · exact hs.sound.breaks b hb k q hk hq }

lemma Passes.closeBreaks (b : Block) (hn : b.numActive = g.active.size) (count : Nat) :
    ∀ {g0 : Generator} {i : Nat}, g.Passes b.numActive l r g0 → g.breaks.size ≤ i →
    (∀ c ∈ g0.blocks, c.numActive ≤ b.numActive) →
    (∀ (k : Nat) (p : PendingBreak), g.breaks.size ≤ k → g0.breaks[k]? = some p →
      ∀ pc ∈ p.jumps, Closable g0.code b.numActive pc) →
    ∃ d, Draft.closeBreaks b i count g0.toDraft = .ok d ∧ d.active = g0.active ∧
      g0.Carries b.numActive d ∧ g.Passes b.numActive l r { g0 with toDraft := d } := by
  induction count with
  | zero => exact fun h _ _ _ => ⟨_, rfl, rfl, .refl _, h⟩
  | succ count ih =>
    intro g0 i h hi hb hcl
    rw [Draft.closeBreaks]
    cases hp : g0.breaks[i]? with
    | none => exact ⟨_, rfl, rfl, .refl _, h⟩
    | some p =>
      by_cases hlt : b.numActive < p.numActive
      · -- The code with the jumps closed, or as it was.
        have hclose : ∃ code, (if b.isCaptured then Draft.closeAll b.numActive p.jumps g0.toDraft
              else .ok g0.toDraft) = .ok { g0.toDraft with code := code } ∧
            g.Passes b.numActive l r { g0 with toDraft := { g0.toDraft with code := code } } ∧
            ∀ pc, Closable g0.code b.numActive pc → Closable code b.numActive pc := by
          cases hca : b.isCaptured with
          | false => exact ⟨g0.code, rfl, h, fun _ hc => hc⟩
          | true =>
            have ha := h.level_le
            have hma := h.active_le
            obtain ⟨code, hco, hok⟩ := Draft.closeAll_eq_ok (n := b.numActive) (by omega)
              p.jumps g0.toDraft (hcl i p hi hp)
            obtain ⟨more, hm, hl⟩ := h.breaks
            have hme : p ∈ more := by
              rw [hm, Array.getElem?_append_right hi] at hp
              exact Array.mem_of_getElem? hp
            exact ⟨code, hok, h.closed hco (Nat.le_of_eq hn.symm) .refl hb
              (hl p hme), fun pc => hco.closable .refl⟩
        obtain ⟨code, hok, h1, hke⟩ := hclose
        simp only [if_pos hlt, hok]
        obtain ⟨d, hd, ha, hk', hpa⟩ := ih
          (h1.recount (n := b.numActive) hi hp) (Nat.le_succ_of_le hi) hb
          fun k q hk hq pc hpc => by
            simp only [Array.getElem?_setIfInBounds] at hq
            split at hq
            · split at hq
              · cases hq
                exact hke pc (hcl i p hi hp pc hpc)
              · cases hq
            · exact hke pc (hcl k q hk hq pc hpc)
        exact ⟨d, hd, ha, ⟨fun pc hc => hk'.closable pc (hke pc hc), hk'.bounds⟩, hpa⟩
      · simp only [if_neg hlt]
        exact ih h (Nat.le_succ_of_le hi) hb hcl

end Generator

namespace Gen

open Generator

variable {lax : Prop} {α : Type} {g g0 : Generator} {m r : Nat} {l : Link} {isLoop : Bool}

lemma meets_declareAll (g : Generator) (names : List Bytes) :
    Meets lax g (declareAll names) fun _ g' => ∃ d, g' = { g with toDraft := d } ∧
      g.Declared names d := by
  refine meets_updateOrFail ((declareAll_cases names g.toDraft).imp_left ?_)
  rintro ⟨d, hok, hd⟩
  exact ⟨d, hok, d, rfl, hd⟩

lemma meets_reserve_declared {names : List Bytes} (h : g.Passes m l r g0)
    (hd : g0.Declared names d) :
    Meets lax { g0 with toDraft := d } (reserve names.length) fun _ g' =>
      g.Passes m l (r + names.length) g' ∧ g'.active = d.active := by
  have hr := h.reaches
  obtain rfl := h.top
  have heq := hd.eq
  refine (meets_reserve_eq names.length).mono ?_
  rintro _ _ ⟨-, s, rfl, hs, hn, hs'⟩
  dsimp only at hs hn hs' ⊢
  rw [heq] at hs hn hs'
  have hle := hr.active_le
  have h1 : g0.Reaches m l (g0.firstFree + names.length) { g0 with toDraft :=
      { g0.toDraft with
        firstFree := g0.firstFree + names.length, maxStackSize := s } } :=
    hr.modify (.inl rfl) (by omega) hn hs
      (Nat.le_trans hs' (Nat.max_le.mpr ⟨hr.stack_le, .refl⟩)) hr.pending .inl
  have ht : g0.active.size + names.length ≤ g0.firstFree + names.length := by
    omega
  exact ⟨(h.step h1).declared ⟨by rw [heq], hd.active, hd.named, hd.count⟩ ht, rfl⟩

lemma meets_startVariable (h : g.Passes m l r g0) (hk : k < g0.active.size) :
    Meets lax g0 (updateOrFail (·.startVariable k)) fun _ g' => g.Passes m l r g' ∧
      g'.active = g0.active := by
  have hs := h.ready.sound.slots _ (Array.getElem_mem hk)
  refine meets_updateOrFail (.inl ⟨{ g0.toDraft with
    localVariables := g0.localVariables.modify g0.active[k]
      fun record => { record with startPC := Int64.ofNat g0.code.size } }, ?_,
    h.record (map_name_modify _ _ _ fun _ => rfl), rfl⟩)
  simp only [startVariable, Array.getElem?_eq_getElem hk, Nat.not_le.mpr hs, if_false]

lemma passes_patchToHere (h : g.Passes m l r g0)
    (hj : ∀ pc ∈ js, g.Loose pc ∧ Closable g0.code m pc) :
    Meets lax g0 (patchToHere js) fun _ g' => g.Passes m l r g' ∧ g'.active = g0.active :=
  (alters_patchToHere h.ready h.frame.pending hj).mono fun _ _ h' =>
    ⟨h.alter h'.1 h'.2.1 (h'.2.2.trans h.top), h'.1.active⟩

lemma meets_closeScope {outer : List Block} (isOutermost : Bool)
    (h : (g.entered isLoop).Passes m .plain r g0) (hm : g.active.size ≤ m)
    (hbl : g0.blocks = b :: outer) (hnu : b.numActive = g.active.size) :
    Meets lax g0 (closeScope b isOutermost) fun _ g' =>
      (g.entered isLoop).Passes g.active.size .plain r g' ∧
        g0.Carries g.active.size g'.toDraft := by
  unfold closeScope
  split
  · refine ((meets_jump h.reaches (.inl rfl))).bind ?_
    rintro js g1 ⟨h1, hj⟩
    have hp := h.step h1
    have hma := h.active_le
    have hle := h.level_le
    have hb : ∀ c ∈ g1.blocks, c.numActive ≤ g.active.size := by
      intro c hc
      obtain ⟨c', hc', -, heq⟩ := exists_block_of_shapes h1.shapes hc
      have hn := h.ready.sound.nested
      rw [hbl] at hc' hn
      rw [← heq, ← hnu]
      rcases List.mem_cons.mp hc' with rfl | hc'
      · exact .refl
      · exact hn.2.2.2.2.numActive_le c' hc'
    have hj' := hj.mono hm
    have hl : ∀ pc ∈ js, (g.entered isLoop).Loose pc :=
      fun pc hpc => h.frame.loose (hj.loose pc hpc)
    replace hle : g.active.size ≤ g0.active.size := hle
    obtain ⟨code, hco, hok⟩ := closeAll_eq_ok (n := g.active.size) (by omega) js
      g1.toDraft hj'.closable
    have h255 : g.active.size ≤ 255 := by omega
    have hcl := (hp.mono h255).closed hco .refl .refl hb hl
    refine meets_updateOrFail_bind (by rw [hnu]; exact hok) ?_
    exact (alters_patchToHere hcl.ready hcl.frame.pending fun pc hpc =>
      ⟨hl pc hpc, hco.closable .refl (hj'.closable pc hpc)⟩).mono fun _ _ h' =>
        ⟨hcl.alter h'.1 h'.2.1 (h'.2.2.trans hcl.top), (h1.frame.carries h255).trans
          ⟨fun pc hc => h'.1.frame.closable _ pc h255 (hco.closable .refl hc), h'.1.frame.bounds⟩⟩
  · exact meets_pure ⟨h.mono hm, .refl _⟩

lemma meets_endLoop (h : (g.entered isLoop).Passes g.active.size l r g0)
    (hf : b.firstBreak = g.breaks.size) (hb : b.isLoop = isLoop) :
    Meets lax g0 (endLoop b) fun _ g' =>
      (g.entered isLoop).Passes g.active.size l r g' ∧ g0.Carries g.active.size g'.toDraft ∧
        (isLoop = true → g'.breaks.size = g.breaks.size) := by
  unfold endLoop
  split
  · next hl =>
    obtain rfl : isLoop = true := hb.symm.trans hl
    obtain ⟨d, hok, hc, hs, hd⟩ := h.endLoop
    exact meets_updateOrFail (.inl ⟨d, by rw [hf]; exact hok, hd, hc, fun _ => hs⟩)
  · next hl =>
    refine meets_pure ⟨h, .refl _, fun ht => ?_⟩
    rw [hb, ht] at hl
    exact absurd rfl hl

lemma meets_leaveBlock (hg : g.blocks ≠ []) (h : (g.entered isLoop).Passes m .plain r g0)
    (hm : g.active.size ≤ m) :
    Meets lax g0 leaveBlock fun _ g' =>
      g.Passes g.active.size .plain g.active.size g' ∧ g'.active = g.active ∧
        g0.Carries g.active.size g'.toDraft := by
  obtain ⟨b, outer, hbl, hf, hn, hb, hs⟩ := h.innermost
  have hne : outer.isEmpty = false := by
    cases outer with
    | nil => exact absurd (List.map_eq_nil_iff.mp hs.symm) hg
    | cons => rfl
  refine meets_read ?_
  simp only [hbl, hne, hn]
  refine (meets_closeScope false h hm hbl hn).bind ?_
  rintro - g1 ⟨h1, hc1⟩
  refine (meets_endLoop h1 hf hb).bind ?_
  rintro - g2 ⟨h2, hc2, hl⟩
  obtain ⟨b', outer', hb', hf', hn', -⟩ := h2.innermost
  have hj := fun k p hk => h2.ready.sound.breaks b' (by simp [hb']) k p (by omega)
  obtain ⟨d, hok, hco, hbo, hbr, ha, h3⟩ := h2.leave hg hs hl
  refine meets_updateOrFail_bind hok (meets_update_bind ?_)
  rw [← hn] at h3
  obtain ⟨d', hcl, ha', hc4, h4⟩ := h3.closeBreaks b hn
    (d.breaks.size - b.firstBreak) (Nat.le_of_eq hf.symm)
    (by rw [hn, ← ha]; exact h3.ready.sound.nested.numActive_le) (fun k p hk hp pc hpc => by
      rw [hn, ← hn']
      show Closable d.code _ _
      rw [hco]
      exact hj k p (by omega) (by rw [← hbr]; exact hp) pc hpc)
  rw [hn] at hcl hc4 h4
  have hc3 : g2.Carries g.active.size (d.setFirstFree g.active.size) :=
    ⟨fun pc hc => by rw [← hco] at hc; exact hc, by rw [← hbo]; exact .refl _⟩
  exact meets_updateOrFail (.inl ⟨d', hcl, h4, ha'.trans ha, hc1.trans (hc2.trans (hc3.trans hc4))⟩)

end Gen

end LuaBytecode
