import LuaBytecode.Generator.Operand
import LuaBytecode.Proofs.Generator.Primitive

namespace LuaBytecode

variable {d d' : Draft} {r n k m top dst top' : Nat} {bs bs' : List Block} {g0 g : Generator}
  {l : Link}

section

variable (hs : bs'.map Block.shape = bs.map Block.shape)
include hs

lemma any_isLoop_of_shapes : bs'.any (·.isLoop) = bs.any (·.isLoop) := by
  have h : ∀ cs : List Block, cs.any (·.isLoop) = (cs.map Block.shape).any (·.2.2) := by
    simp [List.any_map, Block.shape, Function.comp_def]
  rw [h, h, hs]

lemma Nested.congr (h : Nested bs n k) : Nested bs' n k := by
  induction bs generalizing bs' n k with
  | nil =>
    rw [List.map_nil, List.map_eq_nil_iff] at hs
    subst hs
    exact h
  | cons b outer ih =>
    cases bs' with
    | nil => cases hs
    | cons b' outer' =>
      have hb : b'.shape = b.shape := (List.cons.inj hs).1
      have ho : outer'.map Block.shape = outer.map Block.shape := (List.cons.inj hs).2
      have hp : b'.firstBreak = b.firstBreak ∧ b'.numActive = b.numActive ∧
          b'.isLoop = b.isLoop := by simpa [Block.shape] using hb
      obtain ⟨h1, h2, h3⟩ := hp
      obtain ⟨ha, hf, hl, he, hn⟩ := h
      refine ⟨by rw [h2]; exact ha, by rw [h1]; exact hf, ?_, fun ho' => ?_, ?_⟩
      · rw [any_isLoop_of_shapes hs]
        exact hl
      · subst ho'
        rw [h3]
        exact he (by simpa using ho.symm)
      · rw [h1, h2]
        exact ih ho hn

lemma exists_block_of_shapes {b' : Block} (hb : b' ∈ bs') :
    ∃ b ∈ bs, b.firstBreak = b'.firstBreak ∧ b.numActive = b'.numActive := by
  have hm : b'.shape ∈ bs.map Block.shape := hs ▸ List.mem_map_of_mem hb
  obtain ⟨b, hb, heq⟩ := List.mem_map.mp hm
  simp only [Block.shape, Prod.mk.injEq] at heq
  exact ⟨b, hb, heq.1, heq.2.1⟩

end

def Ranked : List Block → (active : Nat) → Prop
  | [], n => n = 0
  | b :: outer, n => b.numActive ≤ n ∧ Ranked outer b.numActive

lemma Ranked.congr (hs : bs'.map Block.shape = bs.map Block.shape) (h : Ranked bs n) :
    Ranked bs' n := by
  induction bs generalizing bs' n with
  | nil =>
    rw [List.map_nil, List.map_eq_nil_iff] at hs
    subst hs
    exact h
  | cons b outer ih =>
    cases bs' with
    | nil => cases hs
    | cons b' outer' =>
      obtain ⟨hb, ho⟩ := List.cons.inj hs
      have hn : b'.numActive = b.numActive := congrArg (·.2.1) hb
      refine ⟨by rw [hn]; exact h.1, ?_⟩
      rw [hn]
      exact ih ho h.2

lemma Ranked.le (h : Ranked bs n) : ∀ b ∈ bs, b.numActive ≤ n := by
  induction bs generalizing n with
  | nil => simp
  | cons b outer ih =>
    intro c hc
    have hle := h.1
    rcases List.mem_cons.mp hc with rfl | hc
    · exact hle
    · exact Nat.le_trans (ih h.2 c hc) hle

lemma Ranked.markBlock (h : Ranked bs n) (hr : r < n) : ∃ bs', Draft.markBlock r bs = some bs' := by
  induction bs generalizing n with
  | nil =>
    cases h
    omega
  | cons b outer ih =>
    rw [Draft.markBlock]
    split
    · next hlt =>
      obtain ⟨outer', ho⟩ := ih h.2 hlt
      exact ⟨b :: outer', by rw [ho]; rfl⟩
    · exact ⟨_, rfl⟩

lemma Nested.ranked (h : Nested bs n k) : Ranked bs n := by
  induction bs generalizing n k with
  | nil => exact h.1
  | cons b outer ih => exact ⟨h.1, ih h.2.2.2.2⟩

namespace Draft

variable {name : Bytes} {isOwn inStack : Bool} {index : Nat} {v : Variable}
  {ds ds' outer : List Draft}

lemma Touched.bounds (h : d.Touched d') : d.bounds.Le d'.bounds := by
  obtain ⟨more, hm⟩ := h.upvalues
  rw [h.eq]
  exact ⟨.refl, .refl, by simp [Draft.bounds, hm], .refl⟩

lemma Touched.frame (h : d.Touched d') : d.Frame n d' := by
  have hb := h.bounds
  rw [h.eq] at hb ⊢
  exact { Frame.refl (n := n) d with bounds := hb }

lemma Sound.touched (hd : d.Sound) (h : d.Touched d') (hu : d'.upvalues.size ≤ maxUpvalues) :
    d'.Sound := by
  have hb := h.bounds
  have hs := h.shapes
  rw [h.eq] at hb ⊢
  exact
    { hd with
      coded := hd.coded.mono hb
      nested := hd.nested.congr hs
      breaks := fun b' hb' k p hk hp pc hpc => by
        obtain ⟨b, hm, h1, h2⟩ := exists_block_of_shapes hs hb'
        rw [← h2]
        exact hd.breaks b hm k p (by rw [h1]; exact hk) hp pc hpc
      upvalues := hu
      functions := fun f hf =>
        ⟨(hd.functions f hf).1, fun u hu => ((hd.functions f hf).2 u hu).mono hb⟩ }

lemma lastNamed_eq_ok (h : ∀ slot ∈ d.active, slot < d.localVariables.size)
    (hn : n ≤ d.active.size) : ∃ o, d.lastNamed name n = .ok o ∧ ∀ r, o = some r → r < n := by
  induction n with
  | zero => exact ⟨none, rfl, by simp⟩
  | succ n ih =>
    have hlt : d.active[n] < d.localVariables.size := h _ (Array.getElem_mem _)
    have hv : d.variableAt n = some d.localVariables[d.active[n]] := by
      rw [variableAt, Array.getElem?_eq_getElem (by omega), Option.bind_some,
        Array.getElem?_eq_getElem hlt]
    obtain ⟨o, ho, hr⟩ := ih (by omega)
    rw [lastNamed, hv]
    by_cases hna : (d.localVariables[d.active[n]].name == name) = true
    · exact ⟨some n, by simp [hna], by simp⟩
    · refine ⟨o, by simp [hna, ho], fun r hr' => ?_⟩
      have := hr r hr'
      omega

lemma Sound.register_eq_ok (h : d.Sound) (name : Bytes) :
    ∃ o, d.register name = .ok o ∧ ∀ r, o = some r → r < d.active.size :=
  lastNamed_eq_ok h.slots .refl

lemma markBlock_shapes (h : markBlock r bs = some bs') :
    bs'.map Block.shape = bs.map Block.shape := by
  induction bs generalizing bs' with
  | nil => cases h
  | cons b rest ih =>
    rw [markBlock] at h
    split at h
    · obtain ⟨rest', hr, rfl⟩ := Option.map_eq_some_iff.mp h
      simp [ih hr]
    · cases h
      simp [Block.shape]

lemma markCaptured_ok (h : d.markCaptured r = .ok d') :
    ∃ bs, markBlock r d.blocks = some bs ∧ d' = { d with blocks := bs } := by
  unfold markCaptured at h
  split at h
  · next bs hbs => exact ⟨bs, hbs, (Except.ok.inj h).symm⟩
  · cases h

lemma markCaptured_touched (h : d.markCaptured r = .ok d') : d.Touched d' := by
  obtain ⟨bs, hbs, rfl⟩ := markCaptured_ok h
  exact ⟨rfl, ⟨#[], by simp⟩, markBlock_shapes hbs⟩

lemma addUpvalue_ok (h : d.addUpvalue name inStack index = .ok d') : d.upvalues.size < maxUpvalues ∧
      d' = { d with upvalues := d.upvalues.push ⟨name, inStack, index.toUInt8⟩ } := by
  unfold addUpvalue at h
  split at h
  · cases h
  · exact ⟨by omega, (Except.ok.inj h).symm⟩

lemma addUpvalue_touched (h : d.addUpvalue name inStack index = .ok d') : d.Touched d' := by
  obtain ⟨-, rfl⟩ := addUpvalue_ok h
  exact ⟨rfl, ⟨#[⟨name, inStack, index.toUInt8⟩], by simp⟩, rfl⟩

lemma markCaptured_eq_ok (h : Ranked d.blocks d.active.size)
    (hr : r < d.active.size) : ∃ d', d.markCaptured r = .ok d' := by
  obtain ⟨bs, hbs⟩ := h.markBlock hr
  exact ⟨{ d with blocks := bs }, by rw [markCaptured, hbs]⟩

lemma resolve_ok (h : resolve name isOwn (d :: outer) = .ok (v, ds)) :
    (∃ r d', d.register name = .ok (some r) ∧ (if isOwn then .ok d else d.markCaptured r) = .ok d' ∧
      v = .local r ∧ ds = d' :: outer) ∨
    (d.register name = .ok none ∧ ∃ i, d.upvalue? name = some i ∧ v = .upvalue i ∧
      ds = d :: outer) ∨
    (d.register name = .ok none ∧ d.upvalue? name = none ∧ ∃ outer',
      (resolve name false outer = .ok (.global, outer') ∧ v = .global ∧ ds = d :: outer') ∨
      ∃ inStack index d', resolve name false outer =
          .ok (if inStack then .local index else .upvalue index, outer') ∧
        d.addUpvalue name inStack index = .ok d' ∧ v = .upvalue d.upvalues.size ∧
        ds = d' :: outer') := by
  rw [resolve] at h
  cases hr : d.register name with
  | error e => simp [hr] at h
  | ok o =>
    cases o with
    | some r =>
      simp only [hr] at h
      split at h
      · cases h
      · next d' hd' =>
        cases h
        exact .inl ⟨r, d', rfl, hd', rfl, rfl⟩
    | none =>
      simp only [hr] at h
      cases hu : d.upvalue? name with
      | some i =>
        simp only [hu] at h
        cases h
        exact .inr (.inl ⟨rfl, i, rfl, rfl, rfl⟩)
      | none =>
        simp only [hu] at h
        refine .inr (.inr ⟨rfl, rfl, ?_⟩)
        split at h
        · cases h
        · next outer' ho =>
          cases h
          exact ⟨outer', .inl ⟨ho, rfl, rfl⟩⟩
        · next index outer' ho =>
          split at h
          · cases h
          · next d' hd' =>
            cases h
            obtain ⟨-, rfl⟩ := addUpvalue_ok hd'
            exact ⟨outer', .inr ⟨true, index, _, ho, hd', by simp, rfl⟩⟩
        · next index outer' ho =>
          split at h
          · cases h
          · next d' hd' =>
            cases h
            obtain ⟨-, rfl⟩ := addUpvalue_ok hd'
            exact ⟨outer', .inr ⟨false, index, _, ho, hd', by simp, rfl⟩⟩

lemma resolve_forall₂ {R : Draft → Draft → Prop} (hre : ∀ d, R d d)
    (hm : ∀ {d d' r}, d.register name = .ok (some r) → d.markCaptured r = .ok d' → R d d')
    (ha : ∀ {d d' inStack index}, d.addUpvalue name inStack index = .ok d' → R d d')
    (h : resolve name isOwn ds = .ok (v, ds')) : List.Forall₂ R ds ds' := by
  have hs : ∀ ds, List.Forall₂ R ds ds := fun _ => List.forall₂_same.mpr fun d _ => hre d
  induction ds generalizing isOwn ds' v with
  | nil =>
    cases h
    exact .nil
  | cons d outer ih =>
    rcases resolve_ok h with ⟨r, d', hr, hd', -, rfl⟩ | ⟨-, i, -, -, rfl⟩ | ⟨-, -, outer', h⟩
    · refine .cons ?_ (hs outer)
      split at hd'
      · cases hd'
        exact hre d
      · exact hm hr hd'
    · exact hs _
    · rcases h with ⟨ho, -, rfl⟩ | ⟨inStack, index, d', ho, hd', -, rfl⟩
      · exact .cons (hre d) (ih ho)
      · exact .cons (ha hd') (ih ho)

lemma resolve_touched (h : resolve name isOwn ds = .ok (v, ds')) : List.Forall₂ Touched ds ds' :=
  resolve_forall₂ .refl (fun _ => markCaptured_touched) addUpvalue_touched h

/-- A name is looked for without a fault where every function knows the blocks of its variables. -/
lemma resolve_total (hds : ∀ d ∈ ds, ∃ o, d.register name = .ok o ∧
      ∀ r, o = some r → ∃ d', d.markCaptured r = .ok d') (isOwn : Bool) :
    (∃ v ds', resolve name isOwn ds = .ok (v, ds')) ∨
      ∃ d ∈ ds, resolve name isOwn ds = .error (d.error .tooManyUpvalues) := by
  induction ds generalizing isOwn with
  | nil => exact .inl ⟨_, _, rfl⟩
  | cons d outer ih =>
    obtain ⟨o, ho, hm⟩ := hds d (.head _)
    have hadd : ∀ inStack index, (∃ d', d.addUpvalue name inStack index = .ok d') ∨
        d.addUpvalue name inStack index = .error (d.error .tooManyUpvalues) := by
      intro inStack index
      unfold addUpvalue
      split
      · exact .inr rfl
      · exact .inl ⟨_, rfl⟩
    cases o with
    | some r =>
      obtain ⟨d', hd'⟩ := hm r rfl
      cases isOwn <;> simp [resolve, ho, hd']
    | none =>
      cases hu : d.upvalue? name with
      | some i => simp [resolve, ho, hu]
      | none =>
        rcases ih (fun e he => hds e (.tail _ he)) false with ⟨v, outer', hok⟩ | ⟨e, he, hf⟩
        · cases v with
          | global => simp [resolve, ho, hu, hok]
          | «local» r =>
            rcases hadd true r with ⟨d', hd'⟩ | hd' <;> simp [resolve, ho, hu, hok, hd']
          | upvalue i =>
            rcases hadd false i with ⟨d', hd'⟩ | hd' <;> simp [resolve, ho, hu, hok, hd']
        · exact .inr ⟨e, .tail _ he, by simp [resolve, ho, hu, hf]⟩

end Draft

def Variable.Known (active upvalues : Nat) (name : Bytes) : Variable → Prop
  | .local r => r < active
  | .upvalue i => i < upvalues
  | .global => name ≠ environmentName

lemma Chained.upvalue?_ne_none (h : Chained d.upvalues []) : d.upvalue? environmentName ≠ none := by
  intro hn
  rw [Draft.upvalue?, Array.findIdx?_eq_none_iff] at hn
  obtain ⟨u, hu, hna⟩ := Array.any_eq_true'.mp h
  rw [hn u hu] at hna
  cases hna

lemma Chained.sound {us : Array UpvalueDescriptor} {outer : List Draft} (h : Chained us outer) :
    ∀ e ∈ outer, e.Sound := by
  induction outer generalizing us with
  | nil => simp
  | cons d rest ih => exact List.forall_mem_cons.mpr ⟨h.2.1, ih h.2.2.2⟩

lemma Draft.Touched.provides_all (h : d.Touched d') {us : Array UpvalueDescriptor}
    (hp : ∀ u ∈ us, d.Provides u) : ∀ u ∈ us, d'.Provides u :=
  fun u hu => (hp u hu).mono h.bounds

namespace Draft

structure Resolved (name : Bytes) (d : Draft) (outer : List Draft) (v : Variable) (d' : Draft)
    (outer' : List Draft) : Prop where
  touched : d.Touched d'
  sound : d'.Sound
  outer : List.Forall₂ Touched outer outer'
  chained : Chained d'.upvalues outer'
  known : v.Known d.active.size d'.upvalues.size name

lemma Sound.resolved {name : Bytes} {isOwn : Bool} {d : Draft} {v : Variable}
    {outer ds : List Draft} (hd : d.Sound) (hc : Chained d.upvalues outer)
    (h : resolve name isOwn (d :: outer) = .ok (v, ds)) :
    ∃ d' outer', ds = d' :: outer' ∧ Resolved name d outer v d' outer' := by
  rcases resolve_ok h with ⟨r, d', hr, hd', rfl, rfl⟩ | ⟨-, i, hu, rfl, rfl⟩ | ⟨-, hu, outer', hg⟩
  · obtain ⟨o, ho, hlt⟩ := hd.register_eq_ok name
    cases ho.symm.trans hr
    have ht : d.Touched d' ∧ d'.upvalues = d.upvalues := by
      cases isOwn with
      | true =>
        cases hd'
        exact ⟨.refl d, rfl⟩
      | false =>
        obtain ⟨bs, -, rfl⟩ := markCaptured_ok hd'
        exact ⟨markCaptured_touched hd', rfl⟩
    exact ⟨d', outer, rfl, ht.1, hd.touched ht.1 (ht.2 ▸ hd.upvalues),
      Generator.forall₂_touched_refl _, ht.2 ▸ hc, hlt r rfl⟩
  · exact ⟨d, outer, rfl, .refl d, hd, Generator.forall₂_touched_refl _, hc,
      (Array.findIdx?_eq_some_iff_getElem.mp hu).1⟩
  · cases outer with
    | nil =>
      rcases hg with ⟨ho, rfl, rfl⟩ | ⟨inStack, index, d', ho, -⟩
      · cases ho
        refine ⟨d, [], rfl, .refl d, hd, .nil, hc, ?_⟩
        rintro rfl
        exact hc.upvalue?_ne_none hu
      · cases inStack <;> cases ho
    | cons d2 rest =>
      obtain ⟨hp, hs, ht, hch⟩ := hc
      rcases hg with ⟨ho, rfl, rfl⟩ | ⟨inStack, index, d', ho, hd', rfl, rfl⟩
      all_goals
        obtain ⟨d2', rest', rfl, hre⟩ := Sound.resolved hs hch ho
        have hrest := List.Forall₂.cons hre.touched hre.outer
        have hp' := hre.touched.provides_all hp
        have ht' : d2'.active.size ≤ d2'.firstFree := by rwa [hre.touched.eq]
      · exact ⟨d, _, rfl, .refl d, hd, hrest, ⟨hp', hre.sound, ht', hre.chained⟩, hre.known⟩
      · have hto := addUpvalue_touched hd'
        obtain ⟨hmax, rfl⟩ := addUpvalue_ok hd'
        refine ⟨_, _, rfl, hto, hd.touched hto (by rwa [Array.size_push]), hrest,
          ⟨Array.forall_mem_push.mpr ⟨?_, hp'⟩, hre.sound, ht', hre.chained⟩,
          by simp [Variable.Known]⟩
        cases inStack with
        | true =>
          have hlt : index < d2.active.size := hre.known
          have hst := hs.stack
          have htop := hs.top
          rw [Provides, if_pos rfl, hre.touched.eq, toNat_toUInt8 (by omega)]
          show index < d2.maxStackSize
          omega
        | false =>
          have hlt : index < d2'.upvalues.size := hre.known
          have hm := hre.sound.upvalues
          simp only [maxUpvalues] at hm
          simp [Provides, toNat_toUInt8 (n := index) (by omega), hlt]
termination_by outer.length

lemma resolve_cases (name : Bytes) (isOwn : Bool) (d : Draft) (outer : List Draft)
    (hd : d.Sound) (hc : Chained d.upvalues outer) :
    (∃ v d' outer', resolve name isOwn (d :: outer) = .ok (v, d' :: outer') ∧
      Resolved name d outer v d' outer') ∨
    Rejected (resolve name isOwn (d :: outer)) := by
  have hds : ∀ e ∈ d :: outer, ∃ o, e.register name = .ok o ∧
      ∀ r, o = some r → ∃ e', e.markCaptured r = .ok e' := by
    intro e he
    have hs : e.Sound := List.forall_mem_cons.mpr ⟨hd, hc.sound⟩ e he
    obtain ⟨o, ho, hlt⟩ := hs.register_eq_ok name
    exact ⟨o, ho, fun r hr => markCaptured_eq_ok hs.nested.ranked (hlt r hr)⟩
  rcases resolve_total hds isOwn with ⟨v, ds, hok⟩ | ⟨e, -, he⟩
  · obtain ⟨d', outer', rfl, hr⟩ := hd.resolved hc hok
    exact .inl ⟨v, d', outer', hok, hr⟩
  · exact .inr ⟨_, he, rfl⟩

end Draft

lemma Generator.Reaches.touch {outer : List Draft} (h : g.Reaches m l r g0) (ht : g0.Touched d)
    (hs : d.Sound) (ho : List.Forall₂ Draft.Touched g0.enclosing outer)
    (hc : Chained d.upvalues outer) : g.Reaches m l r ⟨d, outer⟩ := by
  have heq := ht.eq
  have hd := h.ready
  refine h.trans ⟨⟨ht.frame, ?_, ?_, ?_, ht.shapes, ho⟩, ⟨⟨hs, hc, ?_, ?_⟩, ?_, hd.level⟩, ?_⟩
  · rw [heq]
  · rw [heq]
  · rw [heq]
  · rw [heq]
    exact hd.link
  · rw [heq]
    exact hd.top
  · rw [heq]
    exact hd.settled
  · rw [heq]
    exact h.top

lemma Gen.resolve_ok {name : Bytes} {v : Variable} {g' : Generator}
    (h : resolve name g = .ok (v, g')) :
    Draft.resolve name true (g.toDraft :: g.enclosing) = .ok (v, g'.toDraft :: g'.enclosing) := by
  unfold resolve at h
  split at h
  · cases h
  · next heq =>
    cases h
    exact heq
  · next heq => cases Draft.resolve_touched heq

namespace Gen

variable {lax : Prop}

variable (h : g.Reaches m l r g0)
include h

lemma meets_register (name : Bytes) : Meets lax g0 (register name) fun o g' => g' = g0 ∧
      ∀ k, o = some k → k < g.active.size := by
  obtain ⟨o, ho, hk⟩ := h.ready.sound.register_eq_ok name
  rw [h.active] at hk
  simpa [Meets, register, ho] using hk

lemma meets_resolve (name : Bytes) : Meets lax g0 (resolve name) fun v g' => g.Reaches m l r g' ∧
      v.Known g.active.size g'.upvalues.size name := by
  rcases Draft.resolve_cases name true g0.toDraft g0.enclosing h.ready.sound h.ready.chained with
    ⟨v, d, outer, hok, hr⟩ | ⟨e, he, hc⟩
  · have hk := hr.known
    rw [h.active] at hk
    simp only [Meets, resolve, hok]
    exact ⟨h.touch hr.touched hr.sound hr.outer hr.chained, hk⟩
  · simp [Meets, resolve, he, hc]

lemma meets_upvalue? (name : Bytes) : Meets lax g0 (upvalue? name) fun o g' => g.Reaches m l r g' ∧
      ∀ i, o = some i → i < g'.upvalues.size := by
  obtain ⟨o, ho, -⟩ := h.ready.sound.register_eq_ok name
  have hn : g.Reaches m l r g0 ∧ ∀ i, none = some i → i < g0.upvalues.size := ⟨h, by simp⟩
  cases o with
  | some k =>
    simp only [Meets, upvalue?, ho]
    exact hn
  | none =>
    rcases Draft.resolve_cases name true g0.toDraft g0.enclosing h.ready.sound h.ready.chained with
      ⟨v, d, outer, hok, hre⟩ | ⟨e, he, -⟩
    · have hr := h.touch hre.touched hre.sound hre.outer hre.chained
      have hk := hre.known
      cases v with
      | upvalue i =>
        simp only [Meets, upvalue?, ho, resolve, hok]
        refine ⟨hr, ?_⟩
        rintro _ ⟨⟩
        exact hk
      | «local» k =>
        simp only [Meets, upvalue?, ho, resolve, hok]
        exact hn
      | global =>
        simp only [Meets, upvalue?, ho, resolve, hok]
        exact hn
    · simp only [Meets, upvalue?, ho, resolve, he]
      exact hn

lemma meets_resolveEnvironment : Meets lax g0 resolveEnvironment fun v g' => g.Reaches m l r g' ∧
      v.Known g.active.size g'.upvalues.size environmentName := by
  refine (meets_resolve h environmentName).bind ?_
  rintro v g1 ⟨h1, hv⟩
  cases v with
  | global => exact absurd rfl hv
  | «local» k => exact meets_pure ⟨h1, hv⟩
  | upvalue i => exact meets_pure ⟨h1, hv⟩

end Gen

namespace Operand

variable {bs bs' : Bounds} {arg : Nat}

structure Fits (bs : Bounds) (arg : Nat) : Prop where
  registers : ∀ r ∈ registers arg, r < bs.stack
  constants : ∀ k ∈ constants arg, k < bs.constants
  le : arg ≤ 511

lemma Fits.mono (h : Fits bs arg) (hb : bs.Le bs') : Fits bs' arg where
  registers r hr := Nat.lt_of_lt_of_le (h.registers r hr) hb.stack
  constants k hk := Nat.lt_of_lt_of_le (h.constants k hk) hb.constants
  le := h.le

lemma fits_register (h : r < bs.stack) (hs : bs.stack ≤ 254) : Fits bs r := by
  have hc : isConstant r = false := isConstant_eq_false (by omega)
  exact ⟨by simp [registers, hc, h], by simp [constants, hc], by omega⟩

lemma fits_constant (h : k ≤ maxConstant) (hk : k < bs.constants) : Fits bs (constantBit + k) := by
  have hc := isConstant_add h
  exact ⟨by simp [registers, hc], by simp [constants, constantIndex_add h, hc, hk],
    Nat.add_le_add_left h 256⟩

inductive Placed (kept : Option Nat) (active top : Nat) : (arg top' : Nat) → Prop
  | constant {arg : Nat} (h : isConstant arg = true) : Placed kept active top arg top
  | variable {arg : Nat} (h : arg < active) : Placed kept active top arg top
  | temporary : Placed kept active top top (top + 1)
  | kept {arg : Nat} (h : kept = some arg) : Placed kept active top arg top

lemma Placed.le {kept : Option Nat} {active arg : Nat} (h : Placed kept active top arg top') :
    top ≤ top' := by
  cases h <;> omega

lemma Placed.quiet_or_top {kept : Option Nat} {active arg : Nat}
    (h : Placed kept active top arg top') :
    (top' = top ∧ ∀ t, Placed kept active t arg t) ∨ (arg = top ∧ top' = top + 1) := by
  cases h with
  | constant hc => exact .inl ⟨rfl, fun _ => .constant hc⟩
  | «variable» hv => exact .inl ⟨rfl, fun _ => .variable hv⟩
  | temporary => exact .inr ⟨rfl, rfl⟩
  | kept hk => exact .inl ⟨rfl, fun _ => .kept hk⟩

end Operand

def Dest (active top dst : Nat) (fresh : Bool) : Prop :=
  if fresh then dst + 1 = top ∧ active ≤ dst else dst < active

def keptReg (dst : Nat) (fresh : Bool) : Option Nat := if fresh then some dst else none

namespace Operand

variable {kept : Option Nat} {active arg : Nat} {fresh : Bool}

lemma Placed.top_eq (h : Placed kept active top arg top') (hlt : arg < top) : top' = top := by
  cases h with
  | temporary => omega
  | _ => rfl

lemma Placed.of_ne (h : Placed (keptReg dst fresh) active top arg top') (hne : arg ≠ dst) :
    Placed none active top arg top' := by
  cases h with
  | constant hc => exact .constant hc
  | «variable» hv => exact .variable hv
  | temporary => exact .temporary
  | kept hk =>
    cases fresh with
    | false => cases hk
    | true => exact absurd (Option.some.inj hk).symm hne

end Operand

lemma Dest.fresh {active top dst : Nat} {fresh : Bool} (h : Dest active top dst fresh) :
    fresh = true → dst + 1 = top ∧ active ≤ dst := by
  rintro rfl
  exact h

lemma Dest.lt {active : Nat} {fresh : Bool} (h : Dest active top dst fresh) (ht : active ≤ top) :
    dst < top := by
  cases fresh <;> simp only [Dest, Bool.false_eq_true, ↓reduceIte] at h <;> omega

namespace Generator

variable {a r' : Nat}

/-- The registers of a function below `r` are in use, and the first of them by its variables. -/
structure Level (a r : Nat) (g : Generator) : Prop where
  released : g.released = []
  active : g.active.size = a
  top : g.firstFree = r
  stack : r ≤ g.maxStackSize
  byte : g.maxStackSize ≤ 255

def lower (g : Generator) (r : Nat) : Generator :=
  { g with toDraft := { g.toDraft with firstFree := r } }

lemma Level.le (h : g.Level a r) : r ≤ 255 := Nat.le_trans h.stack h.byte

lemma Level.lower (h : g.Level a r') (hr : r ≤ r') : (g.lower r).Level a r :=
  { h with top := rfl, stack := Nat.le_trans hr h.stack }

end Generator

namespace Gen

variable {lax : Prop} {r' arg : Nat} {kept : Option Nat}

open Operand

lemma meets_loadValue (h : g.Reaches m .plain r g0) (hd : dst < r) (v : Value) :
    Meets lax g0 (loadValue dst v) fun _ => g.Reaches 255 .plain r := by
  have hs := h.stack_le
  have hc : Meets lax g0 (do loadConstant dst (← constant v)) fun _ =>
      g.Reaches 255 .plain r := by
    refine (meets_constant h v).bind ?_
    rintro k g1 ⟨h1, hk⟩
    exact meets_loadConstant h1 hd (lt_size hk)
  cases v with
  | nil => exact (meets_loadNil h Nat.one_pos hd).mono fun _ _ h => h.1
  | bool b =>
    have hd' := Nat.lt_of_lt_of_le hd h.le_stack
    refine (meets_emitABC .loadBool dst b.toNat 0 h rfl (by omega) ?_ (Nat.zero_le _) ?_
      rfl).discard fun _ _ h => h.1
    · cases b <;> decide
    · constructor <;> simp [hd']
  | integer i => exact hc
  | float x => exact hc
  | string s => exact hc

lemma meets_operandOfValue (h : g.Reaches m .plain r g0) (v : Value) :
    Meets lax g0 (operandOfValue v) fun arg g' => ∃ r', g.Reaches m .plain r' g' ∧
      Placed none g.active.size r arg r' ∧ Fits g'.bounds arg := by
  refine (meets_constant h v).bind ?_
  rintro k g1 ⟨h1, hk⟩
  have hlt : k < g1.constants.size := lt_size hk
  split
  · next hle =>
    simp only [ofConstant_eq hle]
    exact meets_pure ⟨r, h1, .constant (isConstant_add hle), fits_constant hle hlt⟩
  · refine (meets_allocate h1.ready.refl).bind ?_
    rintro base g2 ⟨rfl, h2⟩
    rw [h1.top] at h2 ⊢
    have hk2 := Nat.lt_of_lt_of_le hlt h2.frame.bounds.constants
    refine (meets_loadConstant (h1.trans h2) (Nat.lt_succ_self r) hk2).bind fun _ g3 h3 =>
      meets_pure ⟨r + 1, h3.mono h1.ready.level, .temporary, ?_⟩
    exact fits_register (Nat.lt_of_succ_le h3.le_stack) h3.stack_le

def release (kept : Option Nat) (arg : Nat) : Gen Unit :=
  if isConstant arg || kept = some arg then pure () else free arg

section Release

variable {a x y b c r1 : Nat} (hl : g.Level a r')
include hl

lemma release_quiet (hp : Placed kept a r arg r) : release kept arg g = .ok ((), g) := by
  unfold release
  split
  · rfl
  · next hne =>
    cases hp with
    | constant hc => simp [hc] at hne
    | «variable» hv =>
      rw [free, update, Draft.free_eq_self (by rw [hl.active]; exact hv)]
    | kept hk => simp [hk] at hne

lemma release_eq (hp : Placed kept a r arg r') (hk : kept ≠ some r) (hr : a ≤ r) :
    release kept arg g = .ok ((), g.lower r) := by
  rcases hp.quiet_or_top with ⟨rfl, hq⟩ | ⟨rfl, rfl⟩
  · rw [release_quiet hl (hq r'), ← hl.top]
    rfl
  · have hs := hl.le
    unfold release
    rw [if_neg (by simp [isConstant_eq_false (show arg < 256 by omega), hk]), free, update,
      Draft.free_eq_of_top hl.released (by rw [hl.active]; exact hr) hl.top.symm]
    rfl

lemma free_placed_eq (hp : Placed none a r arg r') (hlt : arg < r') (hr : a ≤ r) :
    free arg g = .ok ((), g.lower r) := by
  have hs := hl.le
  have he : free arg = release none arg := by
    simp [release, isConstant_eq_false (show arg < 256 by omega)]
  rw [he, release_eq hl hp (by simp) hr]

lemma freeOperand_eq (hp : Placed none a r arg r') (hr : a ≤ r) :
    freeOperand arg g = .ok ((), g.lower r) := by
  have he : freeOperand arg = release none arg := by simp [freeOperand, release]
  rw [he, release_eq hl hp (by simp) hr]

lemma freeUnless_eq {fresh : Bool} (hp : Placed (keptReg dst fresh) a r arg r') (hlt : arg < r')
    (hd : dst < r) (hr : a ≤ r) : freeUnless dst arg g = .ok ((), g.lower r) := by
  unfold freeUnless
  split
  · next heq =>
    cases hp.top_eq (heq ▸ hd)
    rw [← hl.top]
    rfl
  · next hne => exact free_placed_eq hl (hp.of_ne hne) hlt hr

lemma freeOperands_eq (hx : Placed kept a r x r1) (hy : Placed kept a r1 y r')
    (hbc : (b = x ∧ c = y) ∨ (b = y ∧ c = x)) (hk : ∀ dst, kept = some dst → dst < r)
    (hr : a ≤ r) : freeOperands kept b c g = .ok ((), g.lower r) := by
  have hne : ∀ k, r ≤ k → kept ≠ some k := fun k hle heq => by
    have := hk k heq
    omega
  have hle := hx.le
  have hle' := hy.le
  have hs := hl.le
  have hd : (do release kept y; release kept x : Gen Unit) g = .ok ((), g.lower r) := by
    rw [bind_eq (release_eq hl hy (hne r1 hle) (by omega))]
    exact release_eq (hl.lower hle') hx (hne r .refl) hr
  -- The first one may only go first if one of them is no temporary.
  have hup : ¬ (r1 = r + 1 ∧ x = r ∧ y = r1) →
      (do release kept x; release kept y : Gen Unit) g = .ok ((), g.lower r) := by
    intro hn
    rcases hx.quiet_or_top with ⟨rfl, hxq⟩ | ⟨rfl, rfl⟩
    · rw [bind_eq (release_quiet hl (hxq r1))]
      exact release_eq hl hy (hne r1 hle) hr
    · rcases hy.quiet_or_top with ⟨rfl, hyq⟩ | ⟨rfl, rfl⟩
      · rw [bind_eq (release_eq hl hx (hne x .refl) hr)]
        exact release_quiet (hl.lower hle) (hyq x)
      · exact absurd ⟨rfl, rfl, rfl⟩ hn
  have hre : r1 = r + 1 ∧ x = r ∧ y = r1 → isConstant x = false ∧ isConstant y = false := fun hb =>
    ⟨isConstant_eq_false (by omega), isConstant_eq_false (by omega)⟩
  have ho : freeOperands kept b c =
      if !isConstant b && !isConstant c && b < c then (do release kept c; release kept b)
      else (do release kept b; release kept c) := rfl
  rw [ho]
  rcases hbc with ⟨rfl, rfl⟩ | ⟨rfl, rfl⟩
  · split
    · exact hd
    · next hc =>
      refine hup fun hb => hc ?_
      simp [hre hb]
      omega
  · split
    · next hc =>
      refine hup fun hb => ?_
      simp only [Bool.and_eq_true, decide_eq_true_eq] at hc
      omega
    · exact hd

end Release

lemma meets_lower {x : Gen Unit} (h : g.Reaches m l r' g0) (hr : g.active.size ≤ r) (hle : r ≤ r')
    (hx : g0.Level g.active.size r' → x g0 = .ok ((), g0.lower r)) :
    Meets lax g0 x fun _ g' => g.Reaches m l r g' ∧ g0.Silent g' := by
  obtain rfl := h.top
  unfold Meets
  rw [hx ⟨h.ready.sound.released, by rw [h.active], rfl, h.le_stack,
    Nat.le_trans h.stack_le (by decide)⟩]
  exact ⟨h.modify (.inl rfl) hr (Nat.le_trans hle h.le_stack) .refl h.stack_le h.pending .inl,
    rfl, rfl, rfl, rfl, .refl _⟩

lemma meets_freeOperand (h : g.Reaches m l r' g0) (hp : Placed none g.active.size r arg r')
    (hr : g.active.size ≤ r) :
    Meets lax g0 (freeOperand arg) fun _ g' => g.Reaches m l r g' ∧ g0.Silent g' :=
  meets_lower h hr hp.le fun hl => freeOperand_eq hl hp hr

lemma meets_freeOperands {x y b c r1 : Nat} (h : g.Reaches m l r' g0)
    (hx : Placed kept g.active.size r x r1) (hy : Placed kept g.active.size r1 y r')
    (hbc : (b = x ∧ c = y) ∨ (b = y ∧ c = x)) (hk : ∀ dst, kept = some dst → dst < r)
    (hr : g.active.size ≤ r) :
    Meets lax g0 (freeOperands kept b c) fun _ g' => g.Reaches m l r g' ∧ g0.Silent g' :=
  meets_lower h hr (Nat.le_trans hx.le hy.le) fun hl => freeOperands_eq hl hx hy hbc hk hr

end Gen

def ResultDest (active top dst : Nat) (fresh : Bool) (n : ResultCount) : Prop :=
  if fresh then dst + n.slots = top ∧ active ≤ dst else n = .exactly 1 ∧ dst < active

def ResultCount.link : ResultCount → Link
  | .exactly _ => .plain
  | .all => .open

def Draft.EndsInCall (d d' : Draft) : Prop :=
  d.code.size < d'.code.size ∧ ∃ i, d'.code.back? = some i ∧ i.op? = some .call

lemma Draft.EndsInCall.since {d d' d'' : Draft} (h : d'.EndsInCall d'')
    (hle : d.code.size ≤ d'.code.size) : d.EndsInCall d'' :=
  ⟨Nat.lt_of_le_of_lt hle h.1, h.2⟩

def Gen.FillsNext (lax : Prop) (piece : Gen Unit) : Prop :=
  ∀ ⦃g g0 : Generator⦄ ⦃m r : Nat⦄, g.Reaches m .plain r g0 →
    Gen.Meets lax g0 piece fun _ => g.Reaches 255 .plain (r + 1)

structure ExprCode.Sound (lax : Prop) (e : ExprCode) : Prop where
  body : e.constant = none → ∀ {g g0 : Generator} {m r dst : Nat} {fresh : Bool},
    g.Reaches m .plain r g0 → Dest g.active.size r dst fresh →
    Gen.Meets lax g0 (e.body dst fresh) fun _ g' =>
      g.Reaches (if fresh then 255 else m) .plain r g'
  branch : e.constant = none → ∀ branch, e.branch = some branch →
    ∀ {g g0 : Generator} {m r : Nat} (wanted : Bool), g.Reaches m .plain r g0 →
    Gen.Meets lax g0 (branch wanted) fun js g' =>
      g.Reaches m .plain r g' ∧ g.Holds m g'.toDraft js
  results : ∀ results, e.results = some results →
    ∀ {g g0 : Generator} {m r dst : Nat} {fresh : Bool} {n : ResultCount},
    g.Reaches m .plain r g0 → ResultDest g.active.size r dst fresh n →
    Gen.Meets lax g0 (results dst fresh n) fun _ g' =>
      g.Reaches 255 n.link r g' ∧ (e.isCall = true → n = .all → g0.EndsInCall g'.toDraft)
  chain : ∀ piece ∈ e.chain, Gen.FillsNext lax piece

namespace ExprCode

open Gen Operand

variable {lax : Prop} {e : ExprCode} {fresh : Bool}

lemma level_le (h : g.Reaches m .plain r g0) (fresh : Bool) : (if fresh then 255 else m) ≤ 255 := by
  have := h.ready.level
  split <;> omega

lemma Sound.toReg (he : e.Sound lax) (h : g.Reaches m .plain r g0)
    (hd : Dest g.active.size r dst fresh) :
    Meets lax g0 (e.toReg dst fresh) fun _ =>
      g.Reaches (if fresh then 255 else m) .plain r := by
  refine (meets_setPos h e.start).bind fun _ g1 h1 => ?_
  cases hc : e.constant with
  | some v =>
    exact (meets_loadValue h1 (hd.lt h.active_le) v).mono fun _ _ h2 => h2.mono (level_le h fresh)
  | none => exact he.body hc h1 hd

lemma Sound.nextReg (he : e.Sound lax) (h : g.Reaches m .plain r g0) :
    Meets lax g0 e.nextReg fun k g' => k = r ∧ g.Reaches 255 .plain (r + 1) g' := by
  refine (meets_reserve h 1).bind ?_
  rintro k g1 ⟨rfl, h1⟩
  have hd : Dest g.active.size (k + 1) k true := ⟨rfl, h.active_le⟩
  exact (he.toReg h1 hd).bind fun _ g2 h2 => meets_pure ⟨rfl, h2⟩

lemma meets_local? (e : ExprCode) (h : g.Reaches m .plain r g0) :
    Meets lax g0 e.local? fun o g' => g' = g0 ∧ ∀ k, o = some k → k < g.active.size := by
  unfold local?
  split
  · exact meets_register h _
  · exact meets_pure ⟨rfl, by simp⟩

lemma Sound.anyReg (he : e.Sound lax) (h : g.Reaches m .plain r g0) :
    Meets lax g0 e.anyReg fun arg g' => ∃ r', g.Reaches m .plain r' g' ∧
      Placed none g.active.size r arg r' ∧ arg < r' := by
  refine (meets_local? e h).bind ?_
  rintro o g1 ⟨rfl, ho⟩
  cases o with
  | some k =>
    have hk := ho k rfl
    exact meets_pure ⟨r, h, .variable hk, Nat.lt_of_lt_of_le hk h.active_le⟩
  | none =>
    refine (meets_allocate h).bind ?_
    rintro k g2 ⟨rfl, h2⟩
    have hd : Dest g.active.size (k + 1) k true := ⟨rfl, h.active_le⟩
    exact (he.toReg h2 hd).bind fun _ g3 h3 =>
      meets_pure ⟨k + 1, h3.mono h.ready.level, .temporary, Nat.lt_succ_self k⟩

lemma Placed.weaken {kept : Option Nat} {active top arg top' : Nat}
    (h : Placed none active top arg top') : Placed kept active top arg top' := by
  cases h with
  | constant hc => exact .constant hc
  | «variable» hv => exact .variable hv
  | temporary => exact .temporary
  | kept hk => cases hk

lemma Sound.operandReg (he : e.Sound lax) (h : g.Reaches m .plain r g0)
    (hd : fresh = true → dst + 1 = r ∧ g.active.size ≤ dst) :
    Meets lax g0 (e.operandReg dst fresh) fun arg g' => ∃ r', g.Reaches m .plain r' g' ∧
      Placed (keptReg dst fresh) g.active.size r arg r' ∧ arg < r' := by
  refine (meets_local? e h).bind ?_
  rintro o g1 ⟨rfl, ho⟩
  cases o with
  | some k =>
    have hk := ho k rfl
    exact meets_pure ⟨r, h, .variable hk, Nat.lt_of_lt_of_le hk h.active_le⟩
  | none =>
    cases fresh with
    | true =>
      have hds : Dest g.active.size r dst true := hd rfl
      exact (he.toReg h hds).bind fun _ g2 h2 =>
        meets_pure ⟨r, h2.mono h.ready.level, .kept rfl, hds.lt h.active_le⟩
    | false =>
      refine (he.anyReg h).mono ?_
      rintro arg g2 ⟨r', h2, hp, hlt⟩
      exact ⟨r', h2, Placed.weaken hp, hlt⟩

lemma fits_of_lt {arg r' : Nat} {g' : Generator} (h : g.Reaches m .plain r' g') (hlt : arg < r') :
    Fits g'.bounds arg :=
  fits_register (Nat.lt_of_lt_of_le hlt h.le_stack) h.stack_le

lemma Sound.operand (he : e.Sound lax) (h : g.Reaches m .plain r g0) :
    Meets lax g0 e.operand fun arg g' => ∃ r', g.Reaches m .plain r' g' ∧
      Placed none g.active.size r arg r' ∧ Fits g'.bounds arg := by
  unfold ExprCode.operand
  split
  · exact meets_operandOfValue h _
  · refine (he.anyReg h).mono ?_
    rintro arg g' ⟨r', h', hp, hlt⟩
    exact ⟨r', h', hp, fits_of_lt h' hlt⟩

lemma Sound.leftOperand (he : e.Sound lax) (h : g.Reaches m .plain r g0)
    (hd : fresh = true → dst + 1 = r ∧ g.active.size ≤ dst) :
    Meets lax g0 (e.leftOperand dst fresh) fun arg g' => ∃ r', g.Reaches m .plain r' g' ∧
      Placed (keptReg dst fresh) g.active.size r arg r' ∧ Fits g'.bounds arg := by
  unfold ExprCode.leftOperand
  split
  · refine (meets_operandOfValue h _).mono ?_
    rintro arg g' ⟨r', h', hp, hf⟩
    exact ⟨r', h', Placed.weaken hp, hf⟩
  · refine (he.operandReg h hd).mono ?_
    rintro arg g' ⟨r', h', hp, hlt⟩
    exact ⟨r', h', hp, fits_of_lt h' hlt⟩

lemma Sound.test (he : e.Sound lax) (wanted : Bool) (h : g.Reaches m .plain r g0) :
    Meets lax g0 (e.test wanted) fun js g' =>
      g.Reaches m .plain r g' ∧ g.Holds m g'.toDraft js := by
  refine (he.anyReg h).bind ?_
  rintro arg g1 ⟨r', h1, hp, hlt⟩
  -- The register stays in bounds while it is released.
  have hin : ∀ {g2 : Generator}, g1.Within g2 → arg < g2.bounds.stack := fun hw =>
    Nat.lt_of_lt_of_le (Nat.lt_of_lt_of_le hlt h1.le_stack) hw.frame.bounds.stack
  have hp1 : Placed none g1.active.size r arg g1.firstFree := by
    rw [h1.active, h1.top]
    exact hp
  have hlt1 : arg < g1.firstFree := by rw [h1.top]; exact hlt
  have hr : g1.active.size ≤ r := by rw [h1.active]; exact h.active_le
  refine (meets_setPos h1.ready.refl e.start).bind fun _ g2 h2 => ?_
  refine (meets_lower h2 hr hp1.le fun hl => free_placed_eq hl hp1 hlt1 hr).bind ?_
  rintro - g3 ⟨h3, -⟩
  have ha := hin h3.toAlters
  have hs := h3.stack_le
  refine (meets_emitABC .test arg 0 wanted.toNat h3 rfl (by omega) (Nat.zero_le _) ?_ ?_
    rfl).discard_bind ?_
  · cases wanted <;> decide
  · constructor <;> simp [ha]
  · rintro - g4 ⟨h4, -⟩
    refine (meets_jump (h1.trans h4) (.inr rfl)).mono ?_
    rintro js g5 ⟨h5, hj⟩
    exact ⟨h5.mono h.ready.level, hj.mono h.ready.level⟩

lemma meets_jumpIfValue (v : Value) (wanted : Bool) (h : g.Reaches m .plain r g0) :
    Meets lax g0 (jumpIfValue v wanted) fun js g' =>
      g.Reaches m .plain r g' ∧ g.Holds m g'.toDraft js := by
  unfold jumpIfValue
  split
  · exact (meets_jump h (.inl rfl)).mono fun js g' hj => ⟨hj.1.mono h.ready.level, hj.2⟩
  · exact meets_pure ⟨h, .nil⟩

lemma Sound.jumpIf (he : e.Sound lax) (wanted : Bool) (h : g.Reaches m .plain r g0) :
    Meets lax g0 (e.jumpIf wanted) fun js g' =>
      g.Reaches m .plain r g' ∧ g.Holds m g'.toDraft js := by
  refine (meets_setPos h e.start).bind fun _ g1 h1 => ?_
  cases hc : e.constant with
  | some v => exact meets_jumpIfValue v wanted h1
  | none =>
    cases hb : e.branch with
    | some branch => exact he.branch hc branch hb wanted h1
    | none => exact he.test wanted h1

lemma Sound.operands (he : e.Sound lax) : ∀ piece ∈ e.operands, FillsNext lax piece := by
  intro piece hm g g0 m r h
  unfold ExprCode.operands at hm
  split at hm
  · obtain rfl := List.mem_singleton.mp hm
    exact (he.nextReg h).discard fun _ _ h => h.2
  · exact he.chain piece hm h

lemma meets_upvalue? (e : ExprCode) (h : g.Reaches m .plain r g0) :
    Meets lax g0 e.upvalue? fun o g' => g.Reaches m .plain r g' ∧
      ∀ i, o = some i → i < g'.upvalues.size := by
  unfold ExprCode.upvalue?
  split
  · exact Gen.meets_upvalue? h _
  · exact meets_pure ⟨h, by simp⟩

end ExprCode

end LuaBytecode
