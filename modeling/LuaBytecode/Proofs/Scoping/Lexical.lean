import LuaBytecode.Proofs.Trace.Run
import LuaBytecode.Proofs.Trace.Statement

namespace LuaBytecode

open Draft Trace State

variable {v : Declaration} {ds rest rest' ds' outer' : List Draft} {e e' d' d : Draft} {r n i : Nat}
  {bs : List Block} {l' l : Layer} {o : Origin}

structure Declaration where
  depth : Nat
  register : Nat
  slot : Nat
  name : Bytes

inductive Origin where
  | declared (v : Declaration)
  | environment

namespace Draft

variable {depth : Nat} {name : Bytes}

def declaration (d : Draft) (depth r : Nat) : Option Declaration :=
  (d.active[r]?).bind fun slot => (d.localVariables[slot]?).map fun v => ⟨depth, r, slot, v.name⟩

def declarations (d : Draft) (depth : Nat) : (n : Nat) → List Declaration
  | 0 => []
  | n + 1 => (d.declaration depth n).toList ++ d.declarations depth n

def Recorded (d : Draft) : Prop := ∀ slot ∈ d.active, slot < d.localVariables.size

lemma Recorded.declaration (h : d.Recorded) (depth : Nat) (hr : r < d.active.size) :
    ∃ slot v, d.active[r]? = some slot ∧ d.localVariables[slot]? = some v ∧
      d.declaration depth r = some ⟨depth, r, slot, v.name⟩ := by
  have hs : d.active[r] < d.localVariables.size := h _ (Array.getElem_mem hr)
  simp [Draft.declaration, hr, hs]

lemma Recorded.lastNamed (h : d.Recorded) (depth : Nat) (hn : n ≤ d.active.size) :
    ∃ o : Option Nat, d.lastNamed name n = .ok o ∧ (∀ r, o = some r → r < n) ∧
      o.bind (d.declaration depth) = (d.declarations depth n).find? fun v => v.name == name := by
  induction n with
  | zero => exact ⟨none, rfl, by simp, rfl⟩
  | succ n ih =>
    obtain ⟨o, ho, hlt, hf⟩ := ih (by omega)
    obtain ⟨slot, v, ha, hva, hd⟩ := h.declaration depth (r := n) (by omega)
    have hv : d.variableAt n = some v := by simp [variableAt, ha, hva]
    rw [Draft.lastNamed, hv, declarations, hd]
    by_cases hna : (v.name == name) = true
    · exact ⟨some n, by simp [hna], by simp, by simp [hna, hd]⟩
    · refine ⟨o, by simp [hna, ho], fun r hr => ?_, by simp [hna, hf]⟩
      have := hlt r hr
      omega

lemma Recorded.register (h : d.Recorded) (depth : Nat) (name : Bytes) :
    ∃ o : Option Nat, d.register name = .ok o ∧ (∀ r, o = some r → r < d.active.size) ∧
      o.bind (d.declaration depth) =
        (d.declarations depth d.active.size).find? fun v => v.name == name :=
  h.lastNamed depth .refl

lemma declaration_congr (ha : d'.active = d.active) (hl : d'.localVariables = d.localVariables)
    (depth r : Nat) : d'.declaration depth r = d.declaration depth r := by
  rw [Draft.declaration, Draft.declaration, ha, hl]

lemma declarations_congr (ha : d'.active = d.active) (hl : d'.localVariables = d.localVariables)
    (depth n : Nat) : d'.declarations depth n = d.declarations depth n := by
  induction n with
  | zero => rfl
  | succ n ih => rw [declarations, declarations, declaration_congr ha hl, ih]

lemma mem_declarations (h : v ∈ d.declarations depth n) :
    v.depth = depth ∧ d.declaration depth v.register = some v := by
  induction n with
  | zero => cases h
  | succ n ih =>
    rw [declarations, List.mem_append, Option.mem_toList] at h
    rcases h with h | h
    · have hv : v.depth = depth ∧ v.register = n := by
        obtain ⟨slot, -, hs⟩ := Option.bind_eq_some_iff.mp h
        obtain ⟨w, -, rfl⟩ := Option.map_eq_some_iff.mp hs
        exact ⟨rfl, rfl⟩
      exact ⟨hv.1, by rw [hv.2]; exact h⟩
    · exact ih h

end Draft

def visible : List Draft → List Declaration
  | [] => []
  | d :: outer => d.declarations outer.length d.active.size ++ visible outer

def origin? (ds : List Draft) (name : Bytes) : Option Origin :=
  match (visible ds).find? fun v => v.name == name with
  | some v => some (.declared v)
  | none => if name = environmentName then some .environment else none

/-- The end of the way from an upvalue of the innermost function outwards: a register of an
enclosing function, or the only upvalue of the main function. -/
def follow? : List Draft → (index : Nat) → Option Origin
  | [], _ => none
  | [_], index => if index = 0 then some .environment else none
  | d :: e :: rest, index =>
    match d.upvalues[index]? with
    | none => none
    | some u =>
      if u.inStack then (e.declaration rest.length u.index.toNat).map .declared
      else follow? (e :: rest) u.index.toNat

lemma visible_depth (h : v ∈ visible ds) : v.depth < ds.length := by
  induction ds with
  | nil => cases h
  | cons d outer ih =>
    rw [visible, List.mem_append] at h
    rw [List.length_cons]
    rcases h with h | h
    · rw [(Draft.mem_declarations h).1]
      omega
    · have := ih h
      omega

lemma origin?_declared {name : Bytes} (h : origin? ds name = some (.declared v)) :
    v ∈ visible ds := by
  unfold origin? at h
  split at h
  · next w hw =>
    cases h
    exact List.mem_of_find?_eq_some hw
  · split at h <;> cases h

section

variable {outer : List Draft} {name : Bytes}

lemma origin?_of_register {r : Nat} (outer : List Draft) (hd : d.Recorded)
    (h : d.register name = .ok (some r)) :
    ∃ v, origin? (d :: outer) name = some (.declared v) ∧ v.depth = outer.length ∧
      v.register = r ∧ d.declaration outer.length r = some v := by
  obtain ⟨o, ho, -, hf⟩ := hd.register outer.length name
  cases ho.symm.trans h
  cases hde : d.declaration outer.length r with
  | none =>
    obtain ⟨o', ho', hlt, -⟩ := hd.register outer.length name
    cases ho'.symm.trans h
    obtain ⟨slot, v, -, -, heq⟩ := hd.declaration outer.length (hlt r rfl)
    rw [hde] at heq
    cases heq
  | some v =>
    rw [Option.bind_some, hde] at hf
    have hm := Draft.mem_declarations (List.mem_of_find?_eq_some hf.symm)
    have hr : v.register = r := by
      obtain ⟨slot, -, hs⟩ := Option.bind_eq_some_iff.mp hde
      obtain ⟨w, -, rfl⟩ := Option.map_eq_some_iff.mp hs
      rfl
    refine ⟨v, ?_, hm.1, hr, rfl⟩
    rw [origin?, visible, List.find?_append, ← hf]
    rfl

lemma origin?_of_no_register (hd : d.Recorded) (h : d.register name = .ok none) :
    origin? (d :: outer) name = origin? outer name := by
  obtain ⟨o, ho, -, hf⟩ := hd.register outer.length name
  cases ho.symm.trans h
  rw [origin?, visible, List.find?_append, ← hf]
  rfl

end

def Marked (r : Nat) : List Block → Prop
  | [] => False
  | b :: outer => if r < b.numActive then Marked r outer else b.isCaptured = true

section

variable {bs' : List Block} {k : Nat}

lemma marked_markBlock (h : markBlock r bs = some bs') : Marked r bs' := by
  induction bs generalizing bs' with
  | nil => cases h
  | cons b outer ih =>
    rw [markBlock] at h
    split at h
    · next hlt =>
      obtain ⟨outer', ho, rfl⟩ := Option.map_eq_some_iff.mp h
      rw [Marked, if_pos hlt]
      exact ih ho
    · next hlt =>
      cases h
      simp [Marked, hlt]

lemma Marked.markBlock (hm : Marked k bs) (h : markBlock r bs = some bs') :
    Marked k bs' := by
  induction bs generalizing bs' with
  | nil => cases hm
  | cons b outer ih =>
    rw [markBlock] at h
    rw [Marked] at hm
    split at h
    · obtain ⟨outer', ho, rfl⟩ := Option.map_eq_some_iff.mp h
      rw [Marked]
      split at hm
      · next hk => rw [if_pos hk]; exact ih hm ho
      · next hk => rw [if_neg hk]; exact hm
    · cases h
      rw [Marked]
      split at hm
      · next hk => rw [if_pos hk]; exact hm
      · next hk => rw [if_neg hk]

end

namespace Draft

variable {name : Bytes} {u : UpvalueDescriptor}

structure Scoped (d : Draft) : Prop where
  recorded : d.Recorded
  active : d.active.size ≤ maxVariables
  upvalues : d.upvalues.size ≤ maxUpvalues
  ranked : Ranked d.blocks d.active.size
  distinct : ∀ (i : Nat) (u : UpvalueDescriptor), d.upvalues[i]? = some u →
    d.upvalue? u.name = some i

def Supplies (e : Draft) (u : UpvalueDescriptor) : Prop :=
  if u.inStack then e.register u.name = .ok (some u.index.toNat) ∧ Marked u.index.toNat e.blocks
  else e.register u.name = .ok none ∧ e.upvalue? u.name = some u.index.toNat

structure Grown (d d' : Draft) : Prop where
  touched : d.Touched d'
  marked : ∀ r, Marked r d.blocks → Marked r d'.blocks

lemma Grown.refl (d : Draft) : d.Grown d := ⟨.refl d, fun _ h => h⟩

lemma register_congr (ha : d'.active = d.active) (hl : d'.localVariables = d.localVariables)
    (name : Bytes) : d'.register name = d.register name := by
  have h : ∀ n, d'.lastNamed name n = d.lastNamed name n := by
    intro n
    induction n with
    | zero => rfl
    | succ n ih => rw [lastNamed, lastNamed, variableAt, variableAt, ha, hl, ih]
  rw [register, register, ha, h]

lemma Touched.register (h : d.Touched d') (name : Bytes) : d'.register name = d.register name :=
  register_congr (by rw [h.eq]) (by rw [h.eq]) name

lemma Touched.upvalue? (h : d.Touched d') (hu : d.upvalue? name = some i) :
    d'.upvalue? name = some i := by
  obtain ⟨more, hm⟩ := h.upvalues
  rw [Draft.upvalue?] at hu ⊢
  rw [hm, Array.findIdx?_append, hu]
  rfl

lemma Supplies.grown (h : e.Supplies u) (hg : e.Grown e') : e'.Supplies u := by
  unfold Supplies at h ⊢
  rw [hg.touched.register]
  split at h
  · next hu =>
    rw [if_pos hu]
    exact ⟨h.1, hg.marked _ h.2⟩
  · next hu =>
    rw [if_neg hu]
    exact ⟨h.1, hg.touched.upvalue? h.2⟩

lemma upvalue?_eq_some (h : d.upvalue? name = some i) :
    ∃ u, d.upvalues[i]? = some u ∧ u.name = name := by
  obtain ⟨hlt, hn, -⟩ := Array.findIdx?_eq_some_iff_getElem.mp h
  exact ⟨d.upvalues[i], by simp [hlt], by simpa using hn⟩

lemma upvalue?_lt (h : d.upvalue? name = some i) : i < d.upvalues.size := by
  obtain ⟨u, hu, -⟩ := upvalue?_eq_some h
  exact lt_size hu

lemma upvalue?_push (h : d.upvalue? u.name = none) :
    ({ d with upvalues := d.upvalues.push u } : Draft).upvalue? u.name = some d.upvalues.size := by
  rw [upvalue?] at h ⊢
  simp [Array.findIdx?_push, h]

lemma Scoped.marked (h : d.Scoped) (hbs : markBlock r d.blocks = some bs) :
    ({ d with blocks := bs } : Draft).Scoped :=
  { h with ranked := h.ranked.congr (markBlock_shapes hbs) }

lemma Scoped.push (h : d.Scoped) (hu : d.upvalue? u.name = none)
    (hs : d.upvalues.size < maxUpvalues) :
    ({ d with upvalues := d.upvalues.push u } : Draft).Scoped := by
  refine { h with upvalues := by rw [Array.size_push]; omega, distinct := fun i w hw => ?_ }
  rw [Array.getElem?_push] at hw
  split at hw
  · next hi =>
    cases hw
    rw [hi]
    exact upvalue?_push hu
  · have ht : d.Touched { d with upvalues := d.upvalues.push u } := ⟨rfl, ⟨#[u], by simp⟩, rfl⟩
    exact ht.upvalue? (h.distinct i w hw)

end Draft

def Linked : List Draft → Prop
  | [] => False
  | [d] => d.Scoped ∧ d.upvalues = #[⟨environmentName, true, 0⟩]
  | d :: e :: rest => d.Scoped ∧ (∀ u ∈ d.upvalues, e.Supplies u) ∧ Linked (e :: rest)

section

variable {outer : List Draft} {name : Bytes} {isOwn : Bool}

lemma Linked.head (h : Linked (d :: outer)) : d.Scoped := by
  cases outer with
  | nil => exact h.1
  | cons e rest => exact h.1

lemma Linked.tail (h : Linked (d :: e :: rest)) : Linked (e :: rest) := h.2.2

lemma Linked.scoped {ds : List Draft} (h : Linked ds) : ∀ d ∈ ds, d.Scoped := by
  induction ds with
  | nil => cases h
  | cons d outer ih =>
    refine List.forall_mem_cons.mpr ⟨h.head, ?_⟩
    cases outer with
    | nil => simp
    | cons e rest => exact ih h.tail

lemma Linked.with_head (h : Linked (d :: outer)) (hd : d'.Scoped) (hu : d'.upvalues = d.upvalues) :
    Linked (d' :: outer) := by
  cases outer with
  | nil => exact ⟨hd, hu.trans h.2⟩
  | cons e rest => exact ⟨hd, by rw [hu]; exact h.2.1, h.2.2⟩

lemma Linked.with_outer (h : Linked (d :: e :: rest)) (he : Linked (e' :: rest'))
    (hg : e.Grown e') : Linked (d :: e' :: rest') :=
  ⟨h.1, fun u hu => (h.2.1 u hu).grown hg, he⟩

lemma Linked.follow? {i : Nat} {u : UpvalueDescriptor} (h : Linked (d :: outer))
    (hu : d.upvalues[i]? = some u) :
    ∃ o, follow? (d :: outer) i = some o ∧ origin? outer u.name = some o := by
  induction outer generalizing d i u with
  | nil =>
    rw [h.2] at hu
    have hi : i = 0 := by
      have := lt_size hu
      simpa using this
    subst hi
    cases hu
    exact ⟨.environment, rfl, rfl⟩
  | cons e rest ih =>
    have he := h.tail.head
    have hs : e.Supplies u := h.2.1 u (Array.mem_of_getElem? hu)
    rw [LuaBytecode.follow?, hu]
    unfold Supplies at hs
    dsimp only
    split at hs
    · next hin =>
      rw [if_pos hin]
      obtain ⟨v, ho, -, -, hd⟩ := origin?_of_register rest he.recorded hs.1
      exact ⟨.declared v, by rw [hd]; rfl, ho⟩
    · next hin =>
      rw [if_neg hin]
      obtain ⟨w, hw, hn⟩ := upvalue?_eq_some hs.2
      obtain ⟨o, hf, ho⟩ := ih h.tail hw
      refine ⟨o, hf, ?_⟩
      rw [origin?_of_no_register he.recorded hs.1, ← hn]
      exact ho

def Found (name : Bytes) (isOwn : Bool) (d d' : Draft) (outer : List Draft) : Variable → Prop
  | .local r => d.register name = .ok (some r) ∧ r < d.active.size ∧
      (isOwn = false → Marked r d'.blocks)
  | .upvalue i => d.register name = .ok none ∧ d'.upvalue? name = some i
  | .global => origin? (d :: outer) name = none

lemma forall₂_grown_refl (ds : List Draft) : List.Forall₂ Grown ds ds :=
  List.forall₂_same.mpr fun d _ => .refl d

lemma resolve_grown {v : Variable} {ds ds' : List Draft}
    (h : resolve name isOwn ds = .ok (v, ds')) : List.Forall₂ Grown ds ds' := by
  refine resolve_forall₂ .refl (fun _ hd => ⟨markCaptured_touched hd, fun _ hm => ?_⟩)
    (fun hd => ⟨addUpvalue_touched hd, fun _ hm => ?_⟩) h
  · obtain ⟨bs, hbs, rfl⟩ := markCaptured_ok hd
    exact hm.markBlock hbs
  · obtain ⟨-, rfl⟩ := addUpvalue_ok hd
    exact hm

lemma Linked.resolved {isOwn : Bool} {d : Draft} {v : Variable} {outer ds : List Draft}
    (h : Linked (d :: outer)) (hr : resolve name isOwn (d :: outer) = .ok (v, ds)) :
    ∃ d' outer', ds = d' :: outer' ∧ Linked (d' :: outer') ∧ Found name isOwn d d' outer v := by
  rcases resolve_ok hr with ⟨r, d', ho, hd', rfl, rfl⟩ | ⟨ho, i, hu, rfl, rfl⟩
    | ⟨ho, hu, outer', hg⟩
  · obtain ⟨o, ho', hlt, -⟩ := h.head.recorded.register 0 name
    cases ho.symm.trans ho'
    refine ⟨d', outer, rfl, ?_⟩
    cases isOwn with
    | true =>
      cases hd'
      exact ⟨h, ho, hlt r rfl, nofun⟩
    | false =>
      obtain ⟨bs, hbs, rfl⟩ := markCaptured_ok hd'
      exact ⟨h.with_head (h.head.marked hbs) rfl, ho, hlt r rfl, fun _ => marked_markBlock hbs⟩
  · exact ⟨d, outer, rfl, h, ho, hu⟩
  · cases outer with
    | nil =>
      rcases hg with ⟨hg, rfl, rfl⟩ | ⟨inStack, index, d', hg, -⟩
      · cases hg
        refine ⟨d, [], rfl, h, ?_⟩
        -- The main function has the environment among its upvalues, so the name is another one.
        have hn : name ≠ environmentName := by
          rintro rfl
          rw [upvalue?, h.2] at hu
          simp at hu
        rw [Found, origin?_of_no_register h.head.recorded ho]
        simp [origin?, visible, hn]
      · cases inStack <;> cases hg
    | cons e rest =>
      rcases hg with ⟨hg, rfl, rfl⟩ | ⟨inStack, index, d', hg, hd', rfl, rfl⟩
      all_goals
        obtain ⟨e', rest', rfl, hl, hfo⟩ := Linked.resolved h.tail hg
        have hgrown := (List.forall₂_cons.mp (resolve_grown hg)).1
      · refine ⟨d, _, rfl, h.with_outer hl hgrown, ?_⟩
        rw [Found, origin?_of_no_register h.head.recorded ho]
        exact hfo
      · obtain ⟨hmax, rfl⟩ := addUpvalue_ok hd'
        refine ⟨_, _, rfl, ⟨h.head.push hu hmax, Array.forall_mem_push.mpr
          ⟨?_, fun u hme => (h.2.1 u hme).grown hgrown⟩, hl⟩, ho, upvalue?_push hu⟩
        cases inStack with
        | true =>
          obtain ⟨hr, hlt, hm⟩ := hfo
          have ha : e.active.size ≤ 200 := h.tail.head.active
          rw [Supplies, toNat_toUInt8 (by omega), hgrown.touched.register]
          exact ⟨hr, hm rfl⟩
        | false =>
          obtain ⟨hr, hup⟩ := hfo
          have hi := upvalue?_lt hup
          have hma : e'.upvalues.size ≤ 255 := hl.head.upvalues
          rw [Supplies, toNat_toUInt8 (by omega), hgrown.touched.register]
          exact ⟨hr, hup⟩
termination_by outer.length

lemma Linked.resolve (h : Linked (d :: outer)) (name : Bytes) (isOwn : Bool) :
    (∃ v d' outer', resolve name isOwn (d :: outer) = .ok (v, d' :: outer') ∧
      Linked (d' :: outer') ∧ List.Forall₂ Grown (d :: outer) (d' :: outer') ∧
        Found name isOwn d d' outer v) ∨
    ∃ e ∈ d :: outer, resolve name isOwn (d :: outer) = .error (e.error .tooManyUpvalues) := by
  have hds : ∀ e ∈ d :: outer, ∃ o, e.register name = .ok o ∧
      ∀ r, o = some r → ∃ e', e.markCaptured r = .ok e' := by
    intro e he
    have hs := h.scoped e he
    obtain ⟨o, ho, hlt, -⟩ := hs.recorded.register 0 name
    exact ⟨o, ho, fun r hr => markCaptured_eq_ok hs.ranked (hlt r hr)⟩
  refine (resolve_total hds isOwn).imp_left ?_
  rintro ⟨v, ds, hok⟩
  obtain ⟨d', outer', rfl, hl, hf⟩ := h.resolved hok
  exact ⟨v, d', outer', hok, hl, resolve_grown hok, hf⟩

end

section

variable {v : Variable}

namespace Draft

variable {outer : List Block} {b : Block}

lemma Scoped.sameScope (h : d.Scoped) (hs : d.SameScope d') : d'.Scoped := by
  have ha : d'.active = d.active := by rw [hs]
  have hv : d'.localVariables = d.localVariables := by rw [hs]
  have hu : d'.upvalues = d.upvalues := by rw [hs]
  have hb : d'.blocks = d.blocks := by rw [hs]
  refine ⟨?_, ?_, ?_, ?_, ?_⟩
  · rw [Recorded, ha, hv]
    exact h.recorded
  · rw [ha]
    exact h.active
  · rw [hu]
    exact h.upvalues
  · rw [ha, hb]
    exact h.ranked
  · intro i u hi
    rw [hu] at hi
    rw [upvalue?, hu]
    exact h.distinct i u hi

lemma Scoped.declare {name : Bytes} (h : d.Scoped) (hb : d.blocks = b :: outer)
    (hd : d.declare name = .ok d') : d'.Scoped := by
  obtain ⟨hlt, rfl⟩ := declare_ok hd
  refine { h with recorded := fun slot hs => ?_, active := ?_, ranked := ?_ }
  · rw [Array.size_push]
    rcases Array.mem_push.mp hs with hs | rfl
    · have := h.recorded slot hs
      omega
    · omega
  · rw [Array.size_push]
    omega
  · have hr := h.ranked
    rw [hb] at hr
    rw [hb, Array.size_push]
    exact ⟨Nat.le_succ_of_le hr.1, hr.2⟩

lemma Scoped.undeclare (h : d.Scoped) (hb : d.blocks = b :: outer)
    (hd : undeclare { d with blocks := outer } b.numActive = .ok d') : d'.Scoped := by
  have hn := congrArg Array.size (undeclare_names hd)
  simp only [Array.size_map] at hn
  obtain ⟨hle, -, heq⟩ := undeclare_ok hd
  have ha : d'.active = d.active.take b.numActive := by rw [heq]
  have hs : d'.active.size = b.numActive := by
    rw [ha]
    simp [hle]
  refine ⟨fun slot hsl => ?_, ?_, ?_, ?_, ?_⟩
  · rw [hn]
    rw [ha] at hsl
    exact h.recorded slot (by
      obtain ⟨k, hk, rfl⟩ := Array.mem_iff_getElem.mp hsl
      simp)
  · rw [hs]
    exact Nat.le_trans hle h.active
  · rw [heq]
    exact h.upvalues
  · have hr := h.ranked
    rw [hb] at hr
    rw [hs, heq]
    exact hr.2
  · rw [heq]
    exact h.distinct

lemma Scoped.left (h : d.Scoped) (hb : d.blocks = b :: outer) (hl : d.Left b outer d') :
    d'.Scoped ∧ d'.upvalues = d.upvalues := by
  obtain ⟨d1, d2, ⟨hs1, -⟩, hu, hs2, -⟩ := hl.undeclared
  have hb1 : d1.blocks = b :: outer := by
    rw [hs1]
    exact hb
  refine ⟨((h.sameScope hs1).undeclare hb1 hu).sameScope hs2, ?_⟩
  rw [hs2, (undeclare_ok hu).2.2, hs1]

end Draft

namespace Trace

lemma Layer.Step.scope (h : l.Step l') : l.SameScope l'.toDraft ∨
    (∃ name b outer, l.blocks = b :: outer ∧ (b.isLoop = true → isHidden name = true) ∧
      l.declare name = .ok l'.toDraft) ∨
    (∃ r, l.startVariable r = .ok l'.toDraft) ∨
    ∃ isLoop, l'.toDraft = l.enterBlock isLoop := by
  cases h with
  | tune h => exact .inl h.sameScope
  | label | aim _ | rearrange _ _ | patchHere _ | replace _ _ _ _ | addBreak _ _ | find _ =>
    exact .inl rfl
  | emit _ h | loopJump _ _ h => exact .inl (emit_sameScope h)
  | @pair _ _ d d' target jumps _ _ _ _ _ _ h h' =>
    have hl : d.SameScope { d with lastTarget := target, pending := jumps } := rfl
    exact .inl ((emit_sameScope h).trans (hl.trans (emit_sameScope h')))
  | branch _ _ _ h h' => exact .inl ((emit_sameScope h).trans (emit_sameScope h'))
  | jump _ h =>
    have ht : l.SameScope { l.toDraft with pending := [] } := rfl
    exact .inl (ht.trans (emit_sameScope h))
  | patchBack _ _ _ h =>
    obtain ⟨code, -, rfl⟩ := fixJumps_ok h
    exact .inl rfl
  | close _ _ h =>
    obtain ⟨code, -, rfl⟩ := closeAll_ok h
    exact .inl rfl
  | declare hb hn h => exact .inr (.inl ⟨_, _, _, hb, hn, h⟩)
  | start _ _ _ _ _ _ _ _ _ h => exact .inr (.inr (.inl ⟨_, h⟩))
  | enter _ isLoop => exact .inr (.inr (.inr ⟨isLoop, rfl⟩))

lemma Layer.Step.scoped (h : l.Step l') (hl : l.Scoped) : l'.Scoped ∧ l'.upvalues = l.upvalues := by
  rcases h.scope with hs | ⟨name, b, outer, hb, -, hd⟩ | ⟨r, hd⟩ | ⟨isLoop, heq⟩
  · exact ⟨hl.sameScope hs, by rw [hs]⟩
  · exact ⟨hl.declare hb hd, by rw [(declare_ok hd).2]⟩
  · obtain ⟨slot, -, -, heq⟩ := startVariable_ok hd
    rw [heq]
    refine ⟨{ hl with recorded := fun slot hsl => ?_ }, rfl⟩
    rw [Array.size_modify]
    exact hl.recorded slot hsl
  · rw [heq]
    exact ⟨{ hl with ranked := ⟨.refl, hl.ranked⟩ }, rfl⟩

end Trace

lemma scoped_new (source : ChunkName) (n : UInt8) (isVararg : Bool) (first last : Int) :
    ((new source n isVararg first last #[]).enterBlock false).Scoped :=
  ⟨by simp [Recorded, new, enterBlock], Nat.zero_le _, Nat.zero_le _,
    ⟨.refl, rfl⟩, by simp [new, enterBlock]⟩

lemma linked_start (source : ChunkName) : Linked (start source).drafts := by
  have hu : (start source).upvalues = #[⟨environmentName, true, 0⟩] := rfl
  refine ⟨⟨?_, Nat.zero_le _, ?_, ⟨.refl, rfl⟩, fun i u hi => ?_⟩, rfl⟩
  · simp [Recorded, start, Generator.start, new, enterBlock]
  · rw [hu]
    decide
  · rw [hu] at hi
    have hlt := lt_size hi
    obtain rfl : i = 0 := by simpa using hlt
    cases hi
    rw [upvalue?, hu]
    simp

lemma Draft.Grown.declarations {d d' : Draft} (h : d.Grown d') (depth n : Nat) :
    d'.declarations depth n = d.declarations depth n :=
  declarations_congr (by rw [h.touched.eq]) (by rw [h.touched.eq]) depth n

lemma visible_grown (h : List.Forall₂ Grown ds ds') : visible ds' = visible ds := by
  induction h with
  | nil => rfl
  | @cons d d' outer outer' hd ho ih =>
    have ha : d'.active = d.active := by rw [hd.touched.eq]
    rw [visible, visible, ha, hd.declarations, ho.length_eq, ih]

lemma origin?_grown (h : List.Forall₂ Grown ds ds') (name : Bytes) :
    origin? ds' name = origin? ds name := by
  rw [origin?, origin?, visible_grown h]

/-- What a lookup has found is what the name refers to by lexical scoping. -/
structure Binds (name : Bytes) (ds ds' : List Draft) (v : Variable) : Prop where
  isLocal : ∀ r, v = .local r ↔ ∃ δ, origin? ds name = some (.declared δ) ∧
    δ.depth + 1 = ds.length ∧ δ.register = r
  isUpvalue : (∃ i, v = .upvalue i) ↔ origin? ds name = some .environment ∨
    ∃ δ, origin? ds name = some (.declared δ) ∧ δ.depth + 1 < ds.length
  follows : ∀ i, v = .upvalue i → follow? ds' i = origin? ds name
  isGlobal : v = .global ↔ origin? ds name = none
  scopes : visible ds' = visible ds

namespace Binds

variable {name : Bytes}

lemma of_local {δ : Declaration} (h : origin? ds name = some (.declared δ))
    (hd : δ.depth + 1 = ds.length) (hs : visible ds' = visible ds) :
    Binds name ds ds' (.local δ.register) := by
  refine ⟨fun r => ⟨?_, ?_⟩, ⟨?_, ?_⟩, ?_, ⟨?_, ?_⟩, hs⟩
  · rintro ⟨⟩
    exact ⟨δ, h, hd, rfl⟩
  · rintro ⟨ε, hε, -, rfl⟩
    cases h.symm.trans hε
    rfl
  · rintro ⟨i, ⟨⟩⟩
  · rintro (he | ⟨ε, hε, hlt⟩)
    · cases h.symm.trans he
    · cases h.symm.trans hε
      omega
  · rintro i ⟨⟩
  · rintro ⟨⟩
  · intro hn
    cases h.symm.trans hn

lemma of_upvalue (h : origin? ds name = some o)
    (hd : ∀ δ, o = .declared δ → δ.depth + 1 < ds.length) (hf : follow? ds' i = some o)
    (hs : visible ds' = visible ds) : Binds name ds ds' (.upvalue i) := by
  refine ⟨fun r => ⟨?_, ?_⟩, ⟨fun _ => ?_, fun _ => ⟨i, rfl⟩⟩, ?_, ⟨?_, ?_⟩, hs⟩
  · rintro ⟨⟩
  · rintro ⟨δ, hδ, hl, -⟩
    cases h.symm.trans hδ
    have := hd δ rfl
    omega
  · cases o with
    | environment => exact .inl h
    | declared δ => exact .inr ⟨δ, h, hd δ rfl⟩
  · rintro j ⟨⟩
    exact hf.trans h.symm
  · rintro ⟨⟩
  · intro hn
    cases h.symm.trans hn

lemma of_global (h : origin? ds name = none) (hs : visible ds' = visible ds) :
    Binds name ds ds' .global := by
  refine ⟨fun r => ⟨?_, ?_⟩, ⟨?_, ?_⟩, ?_, ⟨fun _ => h, fun _ => rfl⟩, hs⟩
  · rintro ⟨⟩
  · rintro ⟨δ, hδ, -⟩
    cases h.symm.trans hδ
  · rintro ⟨i, ⟨⟩⟩
  · rintro (he | ⟨δ, hδ, -⟩)
    · cases h.symm.trans he
    · cases h.symm.trans hδ
  · rintro i ⟨⟩

end Binds

lemma Found.binds {outer : List Draft} {name : Bytes} {isOwn : Bool} (h : Linked (d :: outer))
    (h' : Linked (d' :: outer')) (hg : List.Forall₂ Grown (d :: outer) (d' :: outer'))
    (hv : Found name isOwn d d' outer v) : Binds name (d :: outer) (d' :: outer') v := by
  have hs := visible_grown hg
  cases v with
  | «local» r =>
    obtain ⟨δ, ho, hd, rfl, -⟩ := origin?_of_register outer h.head.recorded hv.1
    exact .of_local ho (by rw [hd, List.length_cons]) hs
  | upvalue i =>
    obtain ⟨u, hu, rfl⟩ := upvalue?_eq_some hv.2
    obtain ⟨o, hf, ho⟩ := h'.follow? hu
    rw [origin?_grown (List.forall₂_cons.mp hg).2] at ho
    refine .of_upvalue ?_ ?_ hf hs
    · rw [origin?_of_no_register h.head.recorded hv.1, ho]
    · rintro δ rfl
      have := visible_depth (origin?_declared ho)
      rw [List.length_cons]
      omega
  | global => exact .of_global hv hs

def chain (ds : List Draft) (k : Nat) : List Draft := ds.drop (ds.length - (k + 1))

section

variable {outer : List Draft} {k : Nat}

lemma chain_top : chain (d :: outer) outer.length = d :: outer := by simp [chain]

lemma chain_cons (hk : k < outer.length) : chain (d :: outer) k = chain outer k := by
  have hn : (d :: outer).length - (k + 1) = outer.length - (k + 1) + 1 := by
    rw [List.length_cons]
    omega
  rw [chain, chain, hn, List.drop_succ_cons]

lemma Linked.chain (h : Linked ds) (hk : k < ds.length) : Linked (chain ds k) := by
  induction ds with
  | nil => cases h
  | cons d outer ih =>
    rcases Nat.lt_or_eq_of_le (Nat.lt_succ_iff.mp hk) with hk | rfl
    · rw [chain_cons hk]
      cases outer with
      | nil => cases hk
      | cons e rest => exact ih h.tail hk
    · rw [chain_top]
      exact h

def Continues : List Draft → List Draft → Prop
  | d :: outer, d' :: outer' =>
    (∃ more, d'.upvalues = d.upvalues ++ more) ∧ List.Forall₂ Grown outer outer'
  | _, _ => False

lemma continues_of_upvalues (hu : d'.upvalues = d.upvalues) (hk : k < (d :: outer).length) :
    Continues (chain (d :: outer) k) (chain (d' :: outer) k) := by
  rcases Nat.lt_or_eq_of_le (Nat.lt_succ_iff.mp hk) with hk | rfl
  · rw [chain_cons hk, chain_cons hk]
    have hne : chain outer k ≠ [] := by
      intro hn
      have hl := congrArg List.length hn
      simp only [chain, List.length_drop, List.length_nil] at hl
      omega
    cases hc : chain outer k with
    | nil => exact absurd hc hne
    | cons e rest => exact ⟨⟨#[], by simp⟩, forall₂_grown_refl rest⟩
  · rw [chain_top, chain_top]
    exact ⟨⟨#[], by simp [hu]⟩, forall₂_grown_refl outer⟩

lemma continues_of_grown (h : List.Forall₂ Grown ds ds') (hk : k < ds.length) :
    Continues (chain ds k) (chain ds' k) := by
  have hdr : List.Forall₂ Grown (chain ds k) (chain ds' k) := by
    rw [chain, chain, ← h.length_eq]
    exact List.forall₂_drop _ h
  cases hc : chain ds k with
  | nil =>
    have hl := congrArg List.length hc
    simp only [chain, List.length_drop, List.length_nil] at hl
    omega
  | cons d outer =>
    rw [hc] at hdr
    cases hc' : chain ds' k with
    | nil =>
      rw [hc'] at hdr
      cases hdr
    | cons d' outer' =>
      rw [hc'] at hdr
      obtain ⟨hd, ho⟩ := List.forall₂_cons.mp hdr
      exact ⟨hd.touched.upvalues, ho⟩

lemma Linked.upvalue_of_follow? (h : Linked (d :: outer))
    (ho : LuaBytecode.follow? (d :: outer) i = some o) : ∃ u, d.upvalues[i]? = some u := by
  cases outer with
  | nil =>
    rw [LuaBytecode.follow?] at ho
    split at ho
    · next hi => exact ⟨⟨environmentName, true, 0⟩, by rw [h.2, hi]; rfl⟩
    · cases ho
  | cons e rest =>
    rw [LuaBytecode.follow?] at ho
    split at ho
    · cases ho
    · next u hu => exact ⟨u, hu⟩

lemma Continues.follow? {i : Nat} {o : Origin} (h : Continues ds ds') (hl : Linked ds)
    (hl' : Linked ds') (ho : LuaBytecode.follow? ds i = some o) :
    LuaBytecode.follow? ds' i = some o := by
  match ds, ds', h with
  | d :: outer, d' :: outer', ⟨⟨more, hm⟩, hg⟩ =>
    obtain ⟨u, hu⟩ := hl.upvalue_of_follow? ho
    obtain ⟨p, hp, hor⟩ := hl.follow? hu
    have hu' : d'.upvalues[i]? = some u := by
      rw [hm, Array.getElem?_append_left (lt_size hu), hu]
    obtain ⟨p', hp', ho'⟩ := hl'.follow? hu'
    rw [origin?_grown hg, hor] at ho'
    cases ho'
    cases ho.symm.trans hp
    exact hp'

lemma Linked.main (h : Linked ds) :
    ∃ main, ds.getLast? = some main ∧ main.upvalues = #[⟨environmentName, true, 0⟩] := by
  induction ds with
  | nil => cases h
  | cons d outer ih =>
    cases outer with
    | nil => exact ⟨d, rfl, h.2⟩
    | cons e rest =>
      obtain ⟨main, hm, hu⟩ := ih h.tail
      exact ⟨main, by rw [List.getLast?_cons_cons, hm], hu⟩

end

namespace Trace

variable {s s' : State} {k : Nat} {source : ChunkName} {g : Generator}

lemma State.drafts_withDrafts {name : Bytes} (h : Gen.resolve name s.generator = .ok (v, g)) :
    (s.withDrafts g).drafts = g.toDraft :: g.enclosing := by
  obtain ⟨-, ho⟩ := Trace.resolve_touched h
  exact congrArg (g.toDraft :: ·) (over_enclosing ho).1

lemma State.resolve_cases (hl : Linked s.drafts) (name : Bytes) :
    (∃ v g, Gen.resolve name s.generator = .ok (v, g) ∧ Linked (g.toDraft :: g.enclosing) ∧
      List.Forall₂ Grown s.drafts (g.toDraft :: g.enclosing) ∧
      Binds name s.drafts (g.toDraft :: g.enclosing) v) ∨
    ∃ d ∈ s.drafts, Gen.resolve name s.generator = .error (d.error .tooManyUpvalues) := by
  rcases hl.resolve name true with ⟨v, d', outer', hok, hli, hg, hf⟩ | ⟨d, hd, he⟩
  · refine .inl ⟨v, ⟨d', outer'⟩, ?_, hli, hg, hf.binds hl hli hg⟩
    simp only [Gen.resolve, generator]
    rw [hok]
  · refine .inr ⟨d, hd, ?_⟩
    simp only [Gen.resolve, generator]
    rw [he]

lemma State.Step.linked (h : s.Step s') (hl : Linked s.drafts) : Linked s'.drafts ∧
    ∀ k, k < s.drafts.length → k < s'.drafts.length →
      Continues (chain s.drafts k) (chain s'.drafts k) := by
  cases h with
  | inside h =>
    obtain ⟨hs, hup⟩ := h.scoped hl.head
    exact ⟨hl.with_head hs hup, fun k hk _ => continues_of_upvalues hup hk⟩
  | leave hbl ho h hh =>
    obtain ⟨-, hle⟩ := Gen.leaveBlock_ok hbl h
    obtain ⟨hs, hup⟩ := hl.head.left hbl hle
    exact ⟨hl.with_head hs hup, fun k hk _ => continues_of_upvalues hup hk⟩
  | @finish g b i d hbl hh hop hem h =>
    have hsa := emit_sameScope hem
    have hb : d.blocks = [b] := by
      rw [hsa]
      exact hbl
    obtain ⟨-, hle⟩ := Gen.leaveBlock_ok hb h
    obtain ⟨hs, hup⟩ := (hl.head.sameScope hsa).left hb hle
    have hu : g.upvalues = s.upvalues := by
      rw [hup, hsa]
    exact ⟨hl.with_head hs hu, fun k hk _ => continues_of_upvalues hu hk⟩
  | @resolve g name v hn h =>
    rcases resolve_cases hl name with ⟨v', g', hok, hli, hg, -⟩ | ⟨d, -, her⟩
    · cases h.symm.trans hok
      rw [drafts_withDrafts h]
      exact ⟨hli, fun k hk _ => continues_of_grown hg hk⟩
    · cases h.symm.trans her
  | openFunction source numParams isVararg first last =>
    refine ⟨⟨scoped_new source numParams isVararg first last, ?_, hl⟩, fun k hk _ => ?_⟩
    · simp [new, enterBlock]
    · show Continues _ (chain (_ :: s.drafts) k)
      rw [chain_cons hk]
      exact continues_of_grown (forall₂_grown_refl _) hk
  | @closeFunction l rest line i d he hbl hp hh hop hbx h =>
    have hd : s.drafts = s.toDraft :: l.toDraft :: rest.map (·.toDraft) := by
      rw [drafts, he, List.map_cons]
    rw [hd] at hl ⊢
    have hba : Scoped { l.toDraft with
        functions := l.functions.push s.prototype, line } :=
      { hl.tail.head with }
    have hsa := emit_sameScope h
    have hup : d.upvalues = l.upvalues := by rw [hsa]
    refine ⟨hl.tail.with_head (hba.sameScope hsa) hup, fun k _ hk => ?_⟩
    have hlt : k < (l.toDraft :: rest.map (·.toDraft)).length := hk
    rw [chain_cons hlt]
    exact continues_of_upvalues hup hlt

lemma State.Reachable.linked (h : Reachable source s) : Linked s.drafts := by
  induction h with
  | refl => exact linked_start source
  | tail _ hs ih => exact (hs.linked ih).1

lemma State.StepsAbove.follow? (h : s.StepsAbove k s') (hl : Linked s.drafts)
    (hk : k < s.drafts.length) : Linked s'.drafts ∧ k < s'.drafts.length ∧
      ∀ i o, follow? (chain s.drafts k) i = some o → follow? (chain s'.drafts k) i = some o := by
  induction h with
  | refl => exact ⟨hl, hk, fun _ _ ho => ho⟩
  | tail _ hs ih =>
    obtain ⟨hli, hlt, hf⟩ := ih
    obtain ⟨hl', hc⟩ := hs.1.linked hli
    refine ⟨hl', hs.2, fun i o ho => ?_⟩
    exact (hc k hlt hs.2).follow? (hli.chain hlt) (hl'.chain hs.2) (hf i o ho)

lemma State.Reachable.traces {α : Type} {m : Gen α} {Q : α → Shape → Prop} {a : α}
    (h : Reachable source s) (ht : Traces s.shape m Q) (hr : m s.generator = .ok (a, g)) :
    ∃ s', Reachable source s' ∧ s'.generator = g ∧ Q a s'.shape := by
  obtain ⟨s', hg, hm, hQ⟩ := (ht s rfl).of_ok hr
  exact ⟨s', hm.steps.reachable h, hg, hQ⟩

lemma State.Reachable.codeAll {body : List Stmt} (h : Reachable source s)
    (hb : Stmt.AllWellFormed body) (ho : s.shape.Open)
    (hr : Stmt.codeAll body s.generator = .ok ((), g)) :
    ∃ s', Reachable source s' ∧ s'.generator = g ∧ s'.shape.Open := by
  obtain ⟨s', hs', hg, n, hn, hs⟩ := h.traces (Stmt.codeAll_extends body hb _ ho) hr
  exact ⟨s', hs', hg, by rw [hs]; exact ho.raise hn⟩

/-- The generator goes on in reachable states: piece by piece, and into the functions it meets. -/
def State.GoesOn (source : ChunkName) (s : State) : Prop :=
  (∀ {α : Type} (m : Gen α) a g, s.Part m → m s.generator = .ok (a, g) →
    ∃ s', Reachable source s' ∧ s'.generator = g) ∧
  ∀ n isVararg first last g,
    Gen.openFunction (.new source n isVararg first last #[]) s.generator = .ok ((), g) →
      ∃ s', Reachable source s' ∧ s'.generator = g

lemma State.Reachable.goesOn (h : Reachable source s) : s.GoesOn source := by
  refine ⟨fun m a g hm hr => ?_, fun n isVararg first last g hr => ?_⟩
  · obtain ⟨Q, ht⟩ := hm.traces
    obtain ⟨s', hs', hg, -⟩ := h.traces ht hr
    exact ⟨s', hs', hg⟩
  · obtain ⟨s', hg, hst, -⟩ := meets_openFunction.of_ok hr
    exact ⟨s', hst.reachable h, hg⟩

end Trace

/-- Names are resolved by lexical scoping in every state of the generator, unless a function has too
many upvalues. The upvalues of a function that stays open denote what they did, the main function
has only the environment, and code is generated in such states only. -/
theorem resolve_lexical {source : ChunkName} {s : State} (h : State.Reachable source s) : (∀ name,
      (∃ v g, Gen.resolve name s.generator = .ok (v, g) ∧
        Binds name s.drafts (g.toDraft :: g.enclosing) v) ∨
      ∃ d ∈ s.drafts, Gen.resolve name s.generator = .error (d.error .tooManyUpvalues)) ∧
    (∀ k, k < s.drafts.length → (∃ d outer, chain s.drafts k = d :: outer ∧ outer.length = k ∧
        ∀ i, i < d.upvalues.size → ∃ o, follow? (d :: outer) i = some o) ∧
      ∀ s', s.StepsAbove k s' → ∀ i o, follow? (chain s.drafts k) i = some o →
        follow? (chain s'.drafts k) i = some o) ∧
    (∃ main, s.drafts.getLast? = some main ∧ main.upvalues = #[⟨environmentName, true, 0⟩]) ∧
    (∀ (body : List Stmt) g, Stmt.AllWellFormed body → s.shape.Open →
      Stmt.codeAll body s.generator = .ok ((), g) →
        ∃ s', State.Reachable source s' ∧ s'.generator = g ∧ s'.shape.Open) ∧
    (∀ (e : Expr) dst fresh g, e.WellFormed → e.code.toReg dst fresh s.generator = .ok ((), g) →
      ∃ s', State.Reachable source s' ∧ s'.generator = g) ∧ s.GoesOn source := by
  have hl := h.linked
  refine ⟨fun name => ?_, fun k hk => ⟨?_, fun s' hsteps => (hsteps.follow? hl hk).2.2⟩, hl.main,
    fun body g hbody hopen hrun => h.codeAll hbody hopen hrun,
    fun e dst fresh g he hrun => h.goesOn.1 _ () g (.value he dst fresh) hrun, h.goesOn⟩
  · rcases State.resolve_cases hl name with ⟨v, g, hok, -, -, hbinds⟩ | herr
    · exact .inl ⟨v, g, hok, hbinds⟩
    · exact .inr herr
  · have hchain := hl.chain hk
    cases hc : chain s.drafts k with
    | nil =>
      rw [hc] at hchain
      cases hchain
    | cons d outer =>
      rw [hc] at hchain
      refine ⟨d, outer, rfl, ?_, fun i hi => ?_⟩
      · have hlength := congrArg List.length hc
        simp only [chain, List.length_drop, List.length_cons] at hlength
        omega
      · obtain ⟨o, ho, -⟩ := hchain.follow? (Array.getElem?_eq_getElem hi)
        exact ⟨o, ho⟩

def mainLayer (source : ChunkName) : Layer := ⟨{ (Generator.start source).toDraft with
    localVariables := #[⟨[byte 'x'], .ofNat 0, 0⟩], active := #[0] }, [], [], some 0⟩

def innermostState (source : ChunkName) : State :=
  let inner : Layer := ⟨(new source 0 false 1 1 #[]).enterBlock false, [], [], none⟩
  ⟨inner, [inner, mainLayer source]⟩

lemma innermostState_reachable (source : ChunkName) : Reachable source (innermostState source) := by
  have hm : (start source).declare [byte 'x'] = .ok (mainLayer source).toDraft :=
    rfl
  have hd : (start source).Step ⟨mainLayer source, []⟩ := .inside (.declare rfl (by simp) hm)
  exact ((Relation.ReflTransGen.single hd).tail (.openFunction _ source 0 false 1 1)).tail
    (.openFunction _ source 0 false 1 1)

theorem resolve_lexical_innermost :
    State.Reachable (.ofString "@inner.lua") (innermostState (.ofString "@inner.lua")) ∧
    ∃ g, Gen.resolve [byte 'x'] (innermostState (.ofString "@inner.lua")).generator =
        .ok (.upvalue 0, g) ∧
      follow? (g.toDraft :: g.enclosing) 0 = some (.declared ⟨0, 0, 0, [byte 'x']⟩) := by
  have h := innermostState_reachable (.ofString "@inner.lua")
  have hfound : (Gen.resolve [byte 'x']
      (innermostState (.ofString "@inner.lua")).generator).toOption.map (·.1) =
        some (.upvalue 0) := by decide +kernel
  have horigin : origin? (innermostState (.ofString "@inner.lua")).drafts [byte 'x'] =
      some (.declared ⟨0, 0, 0, [byte 'x']⟩) := by rfl
  rcases (resolve_lexical h).1 [byte 'x'] with ⟨v, g, hok, hbinds⟩ | ⟨d, -, herr⟩
  · rw [hok] at hfound
    cases hfound
    exact ⟨h, g, hok, (hbinds.follows 0 rfl).trans horigin⟩
  · rw [herr] at hfound
    cases hfound

end

end LuaBytecode
