import LuaBytecode.Proofs.Execution.Block

namespace LuaBytecode

open Generator Draft Gen ExprCode Regs Place

variable {vs : List Value} {x : Bytes} {xs : List Bytes} {P : Nat → Nat → Prop} {escapes : List Nat}

section

lemma Env.assignAll_concat {v : Value} (env : Env) (h : xs.length = vs.length) :
    env.assignAll (xs ++ [x]) (vs ++ [v]) = (env.assign x v).assignAll xs vs := by
  induction xs generalizing vs with
  | nil =>
    cases vs with
    | nil => rfl
    | cons w rest => cases h
  | cons y xs ih =>
    cases vs with
    | nil => cases h
    | cons w rest =>
      simp only [List.cons_append, Env.assignAll]
      rw [ih (Nat.succ.inj h)]

lemma forall₂_concat_left {α β : Type} {R : α → β → Prop} {as : List α} {a : α} {bs : List β}
    (h : List.Forall₂ R (as ++ [a]) bs) :
    ∃ bs' b, List.Forall₂ R as bs' ∧ R a b ∧ bs = bs' ++ [b] := by
  rw [← List.forall₂_reverse_iff, List.reverse_append, List.reverse_singleton,
    List.singleton_append, List.forall₂_cons_left_iff] at h
  obtain ⟨b, bs', hb, hbs, heq⟩ := h
  refine ⟨bs'.reverse, b, ?_, hb, ?_⟩
  · rwa [← List.forall₂_reverse_iff, List.reverse_reverse]
  · rw [← List.reverse_reverse bs, heq, List.reverse_cons]

namespace Regs

variable {ρ : Regs} {names : Names}

lemma range_succ (first n : Nat) : ρ.range first (n + 1) = ρ first :: ρ.range (first + 1) n := by
  simp [range, List.range'_succ]

lemma range_add (first n k : Nat) :
    ρ.range first (n + k) = ρ.range first n ++ ρ.range (first + n) k := by
  simp [range, ← List.map_append, List.range'_append_1]

lemma take_range {n k : Nat} (first : Nat) (h : n ≤ k) :
    (ρ.range first k).take n = ρ.range first n := by
  obtain ⟨more, rfl⟩ := Nat.exists_eq_add_of_le h
  rw [range_add]
  exact List.take_left' (by simp [range])

lemma env_declare (xs : List Bytes) : ρ.env ((xs.map some).reverse ++ names) =
    (ρ.env names).declare xs (ρ.range names.length xs.length) := by
  induction xs generalizing names with
  | nil => rfl
  | cons x xs ih =>
    rw [List.map_cons, List.reverse_cons, List.append_assoc, List.singleton_append, ih,
      List.length_cons, List.length_cons, range_succ]
    simp [Env.declare, env]

end Regs

lemma adjust_eq (n : Nat) :
    adjust n vs = (vs ++ List.replicate (n - vs.length) Value.nil).take n := by
  simp [adjust, List.take_append, List.take_replicate]

lemma adjust_length (vs : List Value) : adjust vs.length vs = vs := by
  simp [adjust_eq]

variable {ops : Operators} {f : Prototype} {names : Names} {g : Generator}
  {m r n : Nat} {es : List ExprCode} {vs : List (Env → Value)}

namespace Gen

lemma nextRegs_eq (es : List ExprCode) :
    nextRegs es = (es.map fun e => discard e.nextReg).forM id := by
  induction es with
  | nil => rfl
  | cons e rest ih => rw [nextRegs, ih]; rfl

section

variable (hes : List.Forall₂ (fun e v => e.Means ops f names v) es vs)
include hes

lemma evaluates_nextRegs (h : g.Stands m names .plain r) :
    Meets True g (nextRegs es) fun _ => g.Computes ops f (Stacks names vs r) m (r + es.length) := by
  rw [nextRegs_eq, hes.length_eq]
  refine evaluates_forM ?_ h
  exact List.forall₂_map_left_iff.mpr (hes.imp fun _ _ he => he.pushes)

lemma evaluates_evaluate (wanted : Nat) (h : g.Stands m names .plain r) :
    Meets True g (evaluate es wanted) fun _ =>
      g.Computes ops f (Stacks names (vs ++ List.replicate (wanted - es.length) fun _ => .nil) r) m
        (r + max es.length wanted) := by
  induction hes generalizing g r wanted with
  | nil =>
    unfold evaluate
    split
    · next hp =>
      refine (evaluates_reserve ops f h wanted).bind ?_
      rintro _ g1 ⟨rfl, h1⟩
      refine (evaluates_loadNil ops f (h1.stands h) hp .refl).mono fun _ g2 h2 => ?_
      refine (h1.bind h2).mono fun hP ρ => ⟨_, hP.1.goes (hP.2 ρ), ?_, fun k hk _ => ?_⟩
      · simp only [List.nil_append, List.length_replicate, List.map_replicate]
        refine List.eq_replicate_iff.mpr ⟨by simp [range], ?_⟩
        rintro v hv
        obtain ⟨k, hk, rfl⟩ := List.mem_map.mp hv
        rw [List.mem_range'_1] at hk
        exact clear_of_mem hk.1 (by omega)
      · exact clear_of_lt (.inl hk)
    · obtain rfl : wanted = 0 := by omega
      exact meets_pure (h.evaluates fun ρ => ⟨ρ, fun m hm => .falls .refl hm, rfl, .refl⟩)
  | @cons e v rest ws he _ ih =>
    have hs : evaluate (e :: rest) wanted = (do discard e.nextReg; evaluate rest (wanted - 1)) := by
      cases rest <;> simp [evaluate, he.results]
    rw [hs]
    refine (he.nextReg h).discard_bind ?_
    rintro - g1 ⟨-, h1⟩
    refine (ih (wanted - 1) (h1.stands h)).mono fun _ g2 h2 => ?_
    have ht : r + 1 + max rest.length (wanted - 1) = r + max (e :: rest).length wanted := by
      rw [List.length_cons]
      omega
    have hmi : wanted - 1 - rest.length = wanted - (e :: rest).length := by
      rw [List.length_cons]
      omega
    rw [ht, hmi] at h2
    refine (h1.bind h2).mono fun hP => hP.1.then fun ρ ρ1 hρ1 => ?_
    exact (hP.2 ρ1).imp fun ρ2 hρ2 => ⟨hρ2.1, Stacks.cons hρ1 hρ2.2 h.le⟩

lemma evaluates_assignValues (n : Nat) (h : g.Stands m names .plain r) :
    Meets True g (assignValues es n) fun base g' => base = r ∧
      g.Computes ops f (fun ρ ρ' => ρ'.range r n = adjust n (vs.map (· (ρ.env names))) ∧
        ρ.Agrees none r ρ') m (r + n) g' := by
  refine meets_read ?_
  rw [h.top]
  refine (evaluates_evaluate hes n h).bind fun _ g1 h1 => ?_
  have hs1 := h1.stands h
  have hle := h1.le_stack
  have ha : Meets True g1 (adjustTop (r + n)) fun _ => g1.Idles ops f m .plain (r + n) := by
    refine meets_read ?_
    rw [h1.top, if_neg (by omega)]
    have := h.le
    exact evaluates_setFirstFree ops f hs1 (by omega) (by omega)
  refine ha.bind fun _ g2 h2 => meets_pure ⟨rfl, (h1.bind h2).mono fun hP => ?_⟩
  refine (hP.1.idle hP.2).mono fun ρ ρ' hρ' => ⟨?_, hρ'.2⟩
  have hl := hes.length_eq
  have hal := congrArg (List.take n) hρ'.1
  rw [take_range r (by simp; omega)] at hal
  rw [hal, adjust_eq, List.map_append, List.map_replicate, List.length_map, hl]

lemma declareLocals_means {xs : List Ident}
    (hso : ∀ e ∈ es, e.Sound True) (hxs : ∀ x ∈ xs, isHidden x.name = false) :
    StatementMeans ops f (.becomes fun env =>
      env.declare (xs.map (·.name)) (adjust xs.length (vs.map (· env)))) names
      ((xs.map (·.name)).map some).reverse (declareLocals xs es) := by
  intro g hw
  have hc : Meets True g (declareLocals xs es) fun _ g' => ∃ g1,
      g.Computes ops f (fun ρ ρ' => ρ'.range g.active.size xs.length =
          adjust xs.length (vs.map (· (ρ.env names))) ∧ ρ.Agrees none g.active.size ρ')
        g.active.size (g.active.size + xs.length) g1 ∧
      g1.Declared (xs.map (·.name)) g'.toDraft := by
    refine (evaluates_assignValues hes xs.length hw.stands).discard_bind ?_
    rintro - g1 ⟨-, h1⟩
    refine (meets_declareAll g1 _).mono ?_
    rintro - _ ⟨d, rfl, hd⟩
    exact ⟨g1, h1, hd⟩
  refine ((declareLocals_sound xs hso g hw.rests).and hc).mono ?_
  rintro - g' ⟨⟨r, hp⟩, g1, h1, hd⟩
  have hb : g'.blocks = g1.blocks ∧ g'.breaks = g1.breaks := by
    rw [hd.eq]
    exact ⟨rfl, rfl⟩
  have hs : (xs.map (·.name)).map Draft.shown = (xs.map (·.name)).map some := by
    apply List.map_congr_left
    intro x hx
    obtain ⟨id, hid, rfl⟩ := List.mem_map.mp hx
    exact Draft.shown_eq_some (hxs id hid)
  have hn := hd.names h1.ready.sound
  rw [hs, h1.names, hw.names] at hn
  refine ⟨r, fun T => ?_, hn⟩
  rw [breaksFrom_of_eq (hb.2.trans h1.breaks)]
  refine ((hw.walks h1 .refl).still ops hd.still hp hb.1).mono fun hP => ?_
  refine Computes.behaves ((hP.1.idle hP.2).mono fun ρ ρ' hρ' => ?_)
  rw [hw.size] at hρ'
  refine ⟨?_, keepsHidden_of_lt fun k hk => hρ'.2.eq hk⟩
  rw [env_declare, hρ'.2.env .refl (by simp), List.length_map, hρ'.1]

end

section Store

variable {ids : List Ident}

lemma targets_local (hi : ∀ id ∈ ids, some id.name ∈ names) {l : Link}
    (h : g.Stands m names l r) (done : List Nat) :
    Meets True g (targets (ids.map ExprCode.ofName) (done.map .local)) fun ts g' => g' = g ∧
      ts = ((ids.map fun id => slotOf id.name names).reverse ++ done).map .local := by
  induction ids generalizing done with
  | nil => exact meets_pure ⟨rfl, rfl⟩
  | cons id rest ih =>
    have hr := resolve_local h (hi id (by simp))
    have ht : Meets True g (ExprCode.ofName id).target fun t g' =>
        t = .local (slotOf id.name names) ∧ g' = g := by
      refine Meets.bind (P := fun w g' => w = .local (slotOf id.name names) ∧ g' = g)
        (by simp [Meets, hr]) ?_
      rintro _ _ ⟨rfl, rfl⟩
      exact meets_pure ⟨rfl, rfl⟩
    refine ht.bind ?_
    rintro _ _ ⟨rfl, rfl⟩
    rename_i g
    have hp : Meets True g (protectTargets (done.map .local) (.local (slotOf id.name names)))
        fun ts g' => g' = g ∧ ts = done.map .local := by
      refine meets_read ?_
      rw [if_pos (by simp [AssignTarget.protect, Function.comp_def])]
      exact meets_pure ⟨rfl, rfl⟩
    refine hp.bind ?_
    rintro _ _ ⟨rfl, rfl⟩
    refine (ih (fun id' hid' => hi id' (by simp [hid'])) (slotOf id.name names :: done)).mono ?_
    rintro ts _ ⟨rfl, rfl⟩
    exact ⟨rfl, by simp⟩

def Assigns (names : Names) (xs : List Bytes) (ws : List Value) (ρ ρ' : Regs) :
    Prop :=
  ρ'.env names = (ρ.env names).assignAll xs ws ∧ ρ.KeepsHidden ρ' names ∧
    ∀ k, names.length ≤ k → ρ' k = ρ k

lemma storeDown_append (ts ts' : List AssignTarget) (top : Nat) :
    storeDown (ts ++ ts') top = (do storeDown ts top; storeDown ts' (top - ts.length)) := by
  induction ts generalizing top with
  | nil => simp [storeDown]
  | cons t rest ih =>
    simp only [List.cons_append, storeDown, ih, bind_assoc, List.length_cons]
    rw [show top - 1 - rest.length = top - (rest.length + 1) by omega]

lemma evaluates_storeDown (ops : Operators) (f : Prototype) (hxs : ∀ x ∈ xs, some x ∈ names)
    {base : Nat} (h : g.Stands m names .plain r) (hb : names.length ≤ base)
    (hr : base + xs.length ≤ r) :
    Meets True g (storeDown ((xs.map fun x => slotOf x names).reverse.map .local)
      (base + xs.length)) fun _ =>
        g.Computes ops f (fun ρ ρ' => Assigns names xs (ρ.range base xs.length) ρ ρ') m r := by
  induction xs generalizing base with
  | nil =>
    exact meets_pure (h.evaluates fun ρ =>
      ⟨ρ, fun m hm => .falls .refl hm, rfl, .refl, fun _ _ => rfl⟩)
  | cons x xs ih =>
    have hx := hxs x (by simp)
    have hs := slotOf_lt hx
    have hle : base + 1 + xs.length ≤ r := by
      rw [List.length_cons] at hr
      omega
    rw [List.map_cons, List.reverse_cons, List.map_append, storeDown_append,
      show base + (x :: xs).length = base + 1 + xs.length by rw [List.length_cons]; omega]
    refine (ih (fun y hy => hxs y (by simp [hy])) (by omega) hle).bind
      fun _ g1 h1 => ?_
    simp only [List.length_map, List.length_reverse, Nat.add_sub_cancel, List.map_cons,
      List.map_nil, storeDown, storeOperand]
    rw [if_neg (by omega)]
    have hba : base < r := by omega
    refine (evaluates_move ops f (h1.stands h) (by omega) hba).discard_bind
      fun _ g2 h2 => meets_pure ((h1.bind h2).mono fun hP => ?_)
    refine hP.1.then fun ρ ρ1 hρ1 => ⟨_, hP.2 ρ1, ?_, ?_, fun k hk => ?_⟩
    · rw [env_assign hx set_self fun k _ hne => set_of_ne hne,
        hρ1.1, hρ1.2.2 base hb, List.length_cons]
      rfl
    · exact hρ1.2.1.trans (keepsHidden_of_ne hx fun k _ hne => set_of_ne hne)
    · rw [set_of_ne (by omega), hρ1.2.2 k hk]

lemma evaluates_assignAll (hes : List.Forall₂ (fun e v => e.Means ops f names v) es vs)
    (hxs : ∀ x ∈ xs, some x ∈ names) (h : g.Stands m names .plain r) :
    Meets True g (do
      let base ← assignValues es xs.length
      storeDown ((xs.map fun x => slotOf x names).reverse.map .local) (base + xs.length))
      fun _ =>
      g.Computes ops f (fun ρ ρ' => ρ'.env names = (ρ.env names).assignAll xs
        (adjust xs.length (vs.map (· (ρ.env names)))) ∧ ρ.KeepsHidden ρ' names) m
        (r + xs.length) := by
  refine (evaluates_assignValues hes xs.length h).bind ?_
  rintro _ g1 ⟨rfl, h1⟩
  refine (evaluates_storeDown ops f hxs (h1.stands h) h.le .refl).mono fun _ g2 h2 => ?_
  refine (h1.bind h2).mono fun hP => hP.1.then fun ρ ρ1 hρ1 => ?_
  obtain ⟨ρ2, hg, he, hke, -⟩ := hP.2 ρ1
  refine ⟨ρ2, hg, ?_, ?_⟩
  · rw [he, hρ1.1, hρ1.2.env h.le (by simp)]
  · exact (keepsHidden_of_lt fun k hk => hρ1.2.eq (Nat.lt_of_lt_of_le hk h.le)).trans hke

lemma evaluates_assignEach {e : ExprCode} {v : Env → Value}
    (hes : List.Forall₂ (fun e v => e.Means ops f names v) es vs) (he : e.Means ops f names v)
    (hxs : ∀ x ∈ xs, some x ∈ names) (hx : some x ∈ names) (hl : es.length = xs.length)
    (h : g.Stands m names .plain r) : Meets True g (do
      nextRegs es
      store (.local (slotOf x names)) e
      storeDown ((xs.map fun x => slotOf x names).reverse.map .local) (r + xs.length))
      fun _ =>
      g.Computes ops f (fun ρ ρ' => ρ'.env names = (ρ.env names).assignAll (xs ++ [x])
        ((vs ++ [v]).map (· (ρ.env names))) ∧ ρ.KeepsHidden ρ' names) m (r + xs.length) := by
  have hs := slotOf_lt hx
  have hle := h.le
  have hl' := hes.length_eq.symm.trans hl
  refine (evaluates_nextRegs hes h).bind fun _ g1 h1 => ?_
  rw [hl] at h1
  have hs1 := h1.stands h
  have hd : Dest names.length (r + xs.length) (slotOf x names) false := hs
  refine (he.toReg hs1 hd).bind fun _ g2 h2 => ?_
  refine (evaluates_storeDown ops f hxs (h2.stands hs1) hle .refl).mono fun _ g3 h3 => ?_
  refine (h1.bind (h2.bind h3)).mono fun hP => hP.1.then fun ρ ρ1 hρ1 => ?_
  obtain ⟨ρ2, hg2, hv, ha⟩ := hP.2.1 ρ1
  obtain ⟨ρ3, hg3, hen, hke, -⟩ := hP.2.2 ρ2
  have he1 : ρ1.env names = ρ.env names := hρ1.2.env hle (by simp)
  have ho : ∀ k < names.length, k ≠ slotOf x names → ρ2 k = ρ1 k := fun k hk hne =>
    ha k (by omega) fun heq => hne (Option.some.inj heq).symm
  have hr : ρ2.range r xs.length = vs.map (· (ρ.env names)) := by
    rw [← hρ1.1, hl']
    exact range_congr fun k hk hk' => ha k (by omega) fun heq => by
      have := Option.some.inj heq
      omega
  refine ⟨ρ3, hg2.trans hg3, ?_, ?_⟩
  · rw [hen, hr, env_assign hx hv ho, he1, List.map_append, List.map_cons,
      List.map_nil, Env.assignAll_concat _ (by rw [List.length_map, hl'])]
  · have hk1 : ρ.KeepsHidden ρ1 names :=
      keepsHidden_of_lt fun k hk => hρ1.2.eq (Nat.lt_of_lt_of_le hk hle)
    exact (hk1.trans (keepsHidden_of_ne hx ho)).trans hke

lemma assign_means (start : Position) (hi : ∀ id ∈ ids, some id.name ∈ names)
    (hes : List.Forall₂ (fun e v => e.Means ops f names v) es vs) :
    StatementMeans ops f (.becomes fun env => env.assignAll (ids.map (·.name))
      (adjust ids.length (vs.map (· env)))) names []
      (assign start (ids.map ExprCode.ofName) es) := by
  intro g hw
  refine (targets_local hi hw.stands []).bind ?_
  rintro _ _ ⟨rfl, rfl⟩
  rename_i g
  refine (evaluates_setPos ops f hw.stands start).bind fun _ g1 h1 => ?_
  have hs1 := h1.stands hw.stands
  have hxs : ∀ x ∈ ids.map (·.name), some x ∈ names := by simpa using hi
  have hs : ids.map (fun id => slotOf id.name names) =
      (ids.map (·.name)).map fun x => slotOf x names := by rw [List.map_map]; rfl
  have hb : ∀ {x : Gen Unit} {r : Nat}, (Meets True g1 x fun _ =>
      g1.Computes ops f (fun ρ ρ' => ρ'.env names = (ρ.env names).assignAll (ids.map (·.name))
        (adjust ids.length (vs.map (· (ρ.env names)))) ∧ ρ.KeepsHidden ρ' names)
        g.active.size r) →
      Meets True g1 x fun _ g' => ∃ r, g.Executes ops f (.becomes fun env =>
        env.assignAll (ids.map (·.name)) (adjust ids.length (vs.map (· env)))) names []
        g'.active.size .plain r g' := by
    intro x r hx
    refine hx.mono fun _ g2 h2 => ⟨r, ?_⟩
    have hbo := h1.bind h2
    rw [hbo.active]
    refine hw.executes hbo .refl fun hP T => Computes.behaves ?_
    exact fun ρ => (hP.2 ρ).imp fun ρ' hρ' => ⟨hP.1.goes hρ'.1, hρ'.2⟩
  have ha := hb (by
    have ha := evaluates_assignAll hes hxs hs1
    rw [List.length_map] at ha
    exact ha)
  simp only [List.append_nil, List.length_map, List.length_reverse, hs]
  rcases ids.eq_nil_or_concat' with rfl | ⟨init, id, rfl⟩
  · exact ha
  rcases es.eq_nil_or_concat' with rfl | ⟨es, e, rfl⟩
  · simpa using ha
  obtain ⟨ws, v, hws, hv, rfl⟩ := forall₂_concat_left hes
  have hl := hws.length_eq
  simp only [List.map_append, List.map_cons, List.map_nil, List.reverse_append,
    List.reverse_singleton, List.singleton_append, List.getLast?_concat, List.dropLast_concat,
    List.length_append, List.length_singleton] at hb ha hxs ⊢
  split
  · refine meets_read ?_
    rw [hs1.top, ← Nat.add_assoc]
    have hsa : (init.map (·.name)).length = init.length := List.length_map _
    have he := evaluates_assignEach hws hv (fun x hx => hxs x (List.mem_append_left _ hx))
      (hxs id.name (by simp)) (by omega) hs1
    rw [hsa] at he
    refine hb (he.mono fun _ g2 h2 => h2.mono fun hP => hP.mono fun ρ ρ' hρ' => ?_)
    refine ⟨hρ'.1.trans ?_, hρ'.2⟩
    have hc : init.length + 1 = (ws.map (· (ρ.env names)) ++ [v (ρ.env names)]).length := by
      simp only [List.length_map, List.length_append, List.length_singleton]
      omega
    rw [hc, adjust_length, List.map_append, List.map_singleton]
  · exact ha

end Store

lemma breakStatement_means : StatementMeans ops f .breaks names [] breakStatement := by
  intro g hw
  have hc : Meets True g breakStatement fun _ g' => ∃ js g1,
      (∀ T, g.Evaluates f (aim js T) g.active.size .plain g.active.size g1
        (Escapes ops f g.toDraft g1.toDraft T)) ∧ g'.toDraft = g1.addBreak js := by
    refine meets_read ?_
    cases g.isInLoop with
    | false => exact meets_fail_bind nofun
    | true =>
      refine (evaluates_jump ops f hw.stands (.inl rfl)).bind ?_
      rintro js g1 ⟨-, h1⟩
      exact meets_update ⟨js, g1, h1, rfl⟩
  refine ((breakStatement_sound g hw.rests).and hc).mono ?_
  rintro - g' ⟨⟨r, hp⟩, js, g1, h1, heq⟩
  have hb : g'.blocks = g1.blocks ∧ g'.breaks = g.breaks ++ #[⟨js, g1.active.size⟩] := by
    rw [heq, ← (h1 0).breaks]
    exact ⟨rfl, rfl⟩
  have hs : g1.Still g'.toDraft := by
    rw [heq]
    exact ⟨_, _, _, _, _, _, rfl⟩
  refine ⟨r, fun T => ?_, ?_⟩
  · rw [breaksFrom_of_append hb.2]
    simp only [List.flatMap_cons, List.flatMap_nil, List.append_nil]
    exact ((hw.walks (h1 T) .refl).still ops hs hp hb.1).mono fun hP =>
      acts_breaks.before fun ρ _ hm => hm.moves (hP.1.moves ρ)
  · have hn : (g1.addBreak js).names = g1.names := names_congr rfl rfl
    rw [heq, hn]
    exact ((h1 0).stands hw.stands).names

lemma evaluates_returned (hes : List.Forall₂ (fun e v => e.Means ops f names v) es vs)
    (h : g.Stands m names .plain r) :
    Meets True g (returned es) fun p g' => ∃ r', p.2 = .exactly es.length ∧ p.1 + es.length ≤ r' ∧
        g.Computes ops f (fun ρ ρ' => ρ'.range p.1 es.length = vs.map (· (ρ.env names)))
          m r' g' := by
  have hn : ∀ e ∈ es, e.results = none := by
    induction hes with
    | nil => simp
    | cons he _ ih => exact List.forall_mem_cons.mpr ⟨he.results, ih⟩
  cases hl : es.getLast? with
  | none =>
    obtain rfl := List.getLast?_eq_none_iff.mp hl
    cases hes
    exact meets_pure ⟨r, rfl, Nat.zero_le _, h.evaluates fun ρ =>
      ⟨ρ, fun m hm => .falls .refl hm, rfl⟩⟩
  | some last =>
    simp only [returned, hl, hn last (List.mem_of_getLast? hl)]
    have hall := hes
    rcases hes with _ | ⟨he, _ | ⟨he', hr⟩⟩
    · simp at hl
    · refine (he.anyReg h).bind ?_
      rintro arg g1 ⟨r', -, hlt, h1⟩
      refine meets_pure ⟨r', rfl, hlt, h1.mono fun hP => hP.mono fun ρ ρ' hρ' => ?_⟩
      simp [range, hρ'.1]
    · refine meets_read ?_
      rw [h.top]
      refine (evaluates_nextRegs hall h).bind fun _ g1 h1 => meets_pure ⟨_, rfl, .refl, ?_⟩
      refine h1.mono fun hP => hP.mono fun ρ ρ' hρ' => ?_
      rw [hall.length_eq]
      exact hρ'.1

lemma behaves_returns {d d1 d' : Draft} {i : Instruction} {first : Nat} {T : Nat}
    (h : d.Computes ops f (fun ρ ρ' => ρ'.range first n = vs.map (· (ρ.env names))) d1)
    (hi : i.IsABC .return first (n + 1) 0) (hP : Performs f d1 d' i) :
    d.Behaves ops f (.returns fun env => vs.map (· env)) names [] T d' where
  normal _ _ hB := absurd hB.2 (by simp)
  broke _ _ hB := absurd hB.2 (by simp)
  returned ρ env values hB m hat := by
    obtain ⟨ρ', hg, hr⟩ := h ρ
    obtain rfl : values = vs.map (· (ρ.env names)) := by simpa using hB.2
    refine (hat.trans hg).returns fun m1 hat1 => ⟨m1, .refl, ?_⟩
    rw [hP.start ρ' m1 hat1]
    simp [Machine.results?, hP.code, hi.op, hi.argA, hi.argB, hr]
  ends ρ _ _ _ := ⟨ρ.env names, .returned _, rfl, rfl⟩

lemma returnStatement_means (start : Position)
    (hes : List.Forall₂ (fun e v => e.Means ops f names v) es vs) :
    StatementMeans ops f (.returns fun env => vs.map (· env)) names []
      (returnStatement start es) := by
  intro g hw
  refine (evaluates_returned hes hw.stands).bind ?_
  rintro ⟨first, count⟩ g1 ⟨r, hc, hle, h1⟩
  obtain rfl : count = .exactly es.length := hc
  have hs1 := h1.stands hw.stands
  refine (evaluates_setPos ops f hs1 start).bind fun _ g2 h2 => ?_
  have hs2 := h2.stands hs1
  have hs := h2.le_stack
  have hm := h2.stack_le
  have hf : OpCode.return.Fits g2.bounds first (es.length + 1) 0 0 := by
    constructor <;> simp
    omega
  refine (evaluates_emitABC f .return first (es.length + 1) 0 hs2 rfl (by omega) (by omega)
    (Nat.zero_le _) hf (by simp [OpCode.Takes, OpCode.before]) (by simp)).discard fun _ g3 h3 => ?_
  have ha := h1.bind (h2.bind h3)
  refine ⟨r, ?_⟩
  rw [ha.active]
  refine hw.executes ha .refl ?_
  rintro ⟨hv, hid, i, hi, hP⟩ T
  exact behaves_returns (hv.idle hid) hi hP

end Gen

end

lemma Behavior.block_seq_breaks (B : Behavior) : Behavior.block (.seq .breaks B) = .breaks := by
  funext env env' out
  apply propext
  constructor
  · rintro ⟨inner, ⟨env1, ⟨-, ho⟩, -⟩ | ⟨-, rfl, rfl⟩, rfl⟩
    · cases ho
    · exact ⟨by simp [Env.leave], rfl⟩
  · rintro ⟨rfl, rfl⟩
    exact ⟨env', .inr ⟨by simp, rfl, rfl⟩, by simp [Env.leave]⟩

namespace Draft

variable {ops : Operators} {f : Prototype} {c : Env → Bool} {B B' : Behavior}
  {names : Names} {S : Nat} {X K : Place} {d d1 d' : Draft}

def Chooses (ops : Operators) (f : Prototype) (c : Env → Bool) (B : Behavior)
    (names : Names) (X K : Place) (d d' : Draft) : Prop :=
  ∀ ⦃B' : Behavior⦄ ⦃N : Place⦄, Acts ops f B' names [] (here ops f d') N K →
    (∀ ρ m, X ρ m → N ρ m) → Acts ops f (.branch c B B') names [] (here ops f d) N K

lemma Branches.chooses (ht : d.Branches ops f (fun ρ => c (ρ.env names) == false)
      (Regs.Agrees none names.length) S d1)
    (hb : Acts ops f B names [] (here ops f d1) X K)
    (hl : ∀ ρ m, target ops f S ρ m → here ops f d' ρ m) : d.Chooses ops f c B names X K d' :=
  fun _ _ hn he => ht.acts (hn.before hl) (hb.after he)

lemma Branches.chooses_breaks (ht : d.Branches ops f (fun ρ => c (ρ.env names) == true)
      (Regs.Agrees none names.length) S d1) (hs : d1.Idles ops f d') :
    d.Chooses ops f c .breaks names X (target ops f S) d' :=
  fun _ _ hn _ => ht.acts acts_breaks (hn.before hs.here)

def Escaped (ops : Operators) (f : Prototype) (isLast : Bool) (E : Nat) (d : Draft) : Place :=
  if isLast then here ops f d else target ops f E

end Draft

namespace Generator

variable {ops : Operators} {f : Prototype} {g g1 : Generator} {o : Aims} {l : Link} {m r : Nat}
  {P : Prop} {names : Names}

lemma Walks.patchToHere {js : List Nat} {Q : Nat → Prop} (ops : Operators)
    (h : ∀ T, g.Walks f (aim js T ++ o) m l r g1 (Q T)) (hd : ∀ pc ∈ js, pc ∉ o.places)
    (hm : m ≤ g.active.size) :
    g.Walks f o m l r { g1 with toDraft := g1.patchToHere js }
      (∃ T, Q T ∧ Lands ops f g1.toDraft (g1.patchToHere js) T) := by
  have hh := (h 0).holds
  rw [places_append, places_aim, holds_append] at hh
  have hp : Meets True g1 (Gen.patchToHere js) _ := passes_patchToHere (h 0).toPasses fun pc hpc =>
    ⟨hh.1.loose pc hpc, (hh.1.closable pc hpc).mono hm⟩
  exact ⟨(hp.of_ok (a := ()) rfl).1, (h 0).blocks, hh.2.patchToHere hd,
    Traces.patchToHere ops (fun T => (h T).traces) (h 0).ready.settled.pends hd⟩

lemma Waits.enterBehind (ops : Operators) (hw : g.Waits names)
    (h : g.Evaluates f o g.active.size .plain g.active.size g1 P) (isLoop : Bool) :
    (g.entered isLoop).Walks f o g.active.size .plain g.active.size
      (g1.entered isLoop) (P ∧ g1.toDraft.Idles ops f (g1.entered isLoop).toDraft) := by
  have hw' := h.toAlters
  refine ⟨Passes.enterBehind hw.rests h.toReaches isLoop, ?_, ?_, ?_⟩
  · show _ :: _ = _ :: _
    rw [h.blocks, hw'.breaks, hw'.active]
  · exact ⟨h.holds.closable, h.holds.loose, h.holds.apart⟩
  · have ht := (((still_enterBlock isLoop).symm.traces ops f).bind h.traces).bind
      ((still_enterBlock isLoop).traces ops f)
    rw [List.append_nil] at ht
    exact ht.mono fun hP => ⟨hP.1.2, hP.2⟩

lemma Waits.addBreak {js : List Nat} {T : Nat} (ops : Operators) (hw : g.Waits names)
    (hl : g.isInLoop = true)
    (h : g.Evaluates f (aim js T) g.active.size .plain g.active.size g1 P) :
    (g.entered false).Walks f (aim js T) g.active.size .plain g.active.size
      { g1.entered false with toDraft := (g1.entered false).addBreak js }
      ((P ∧ g1.toDraft.Idles ops f (g1.entered false).toDraft) ∧
        (g1.entered false).toDraft.Idles ops f ((g1.entered false).addBreak js)) := by
  have hin := hw.enterBehind ops h false
  have hh := hin.holds
  rw [places_aim] at hh
  refine hin.still ops ⟨_, _, _, _, _, _, rfl⟩
    (hin.toPasses.addBreak (isInLoop_entered hin.shapes hl) fun pc hpc => ?_) rfl
  refine ⟨hh.loose pc hpc, ?_⟩
  show Closable g1.code g1.active.size pc
  rw [h.active]
  exact hh.closable pc hpc

structure Escaping (f : Prototype) (escapes : List Nat) (P : Nat → Nat → Prop) (g g' : Generator) :
    Prop where
  active : g'.active = g.active
  walks : ∀ T E, g.Walks f (aim (g'.breaksFrom g.breaks.size) T ++ aim escapes E)
    g.active.size .plain g.active.size g' (P T E)
  apart : ∀ pc ∈ escapes, pc ∉ g'.breaksFrom g.breaks.size

section Escaping

variable {g' : Generator} {more : List Nat} {P Q : Nat → Nat → Prop} {B : Behavior}

lemma Escaping.mono (h : g.Escaping f escapes P g') (hPQ : ∀ T E, P T E → Q T E) :
    g.Escaping f escapes Q g' := { h with walks := fun T E => (h.walks T E).mono (hPQ T E) }

lemma Escaping.waits (h : g.Escaping f escapes P g') (hw : g.Waits names) : g'.Waits names :=
  (h.walks 0 0).waits hw (Nat.le_of_eq (by rw [h.active])) (by rw [h.active])
    (hw.names_of_passes (h.walks 0 0).toPasses h.active)

lemma Escaping.breaks (h : g.Escaping f escapes P g') : ∃ more, g'.breaks = g.breaks ++ more := by
  obtain ⟨more, heq, -⟩ := (h.walks 0 0).breaks
  exact ⟨more, heq⟩

lemma Waits.escaping {R : Prop} (hw : g.Waits names)
    (h : g.Evaluates f [] g.active.size .plain g.active.size g' R) :
    g.Escaping f [] (fun _ _ => R) g' := by
  refine ⟨h.active, fun T E => ?_, by simp⟩
  rw [breaksFrom_of_eq h.breaks]
  exact hw.walks h .refl

lemma Executes.escaping (h : g.Executes ops f B names [] g'.active.size .plain
      g'.active.size g') (hw : g.Waits names) :
    g.Escaping f [] (fun T _ => g.Behaves ops f B names [] T g'.toDraft) g' := by
  have ha := h.active hw
  refine ⟨ha, fun T E => ?_, by simp⟩
  rw [aim_nil, List.append_nil, ← ha]
  exact h.walks T

lemma Escaping.bind (h : g.Escaping f escapes P g1) (h' : g1.Escaping f more Q g') :
    g.Escaping f (escapes ++ more) (fun T E => P T E ∧ Q T E) g' := by
  have hb := breaksFrom_trans h.breaks h'.breaks
  have ho := (h.walks 0 0).traces.opens
  have ho' := (h'.walks 0 0).traces.opens
  rw [places_append, places_aim, places_aim, opens_append] at ho ho'
  refine ⟨h'.active.trans h.active, fun T E => ?_, fun pc hpc => ?_⟩
  · have hw := (h.walks T E).bind (h'.walks T E)
    rw [h.active] at hw
    refine hw.reorder fun p => ?_
    rw [hb, aim_append, aim_append]
    simp only [List.mem_append]
    tauto
  · rw [hb, List.mem_append, not_or]
    rcases List.mem_append.mp hpc with hpc | hpc
    · exact ⟨h.apart pc hpc, ho.2.disjoint ho'.1 pc hpc⟩
    · exact ⟨fun hpc' => ho.1.disjoint ho'.2 pc hpc' hpc, h'.apart pc hpc⟩

lemma Escaping.patchToHere (ops : Operators) (h : g.Escaping f escapes P g') (T : Nat) :
    g.Walks f (aim (g'.breaksFrom g.breaks.size) T) g.active.size .plain
      g.active.size { g' with toDraft := g'.patchToHere escapes }
      (∃ E, P T E ∧ Lands ops f g'.toDraft (g'.patchToHere escapes) E) :=
  Walks.patchToHere ops (fun E => (h.walks T E).reorder fun p => by
    simp only [List.mem_append]
    tauto) (by rw [places_aim]; exact h.apart) .refl

end Escaping

end Generator

namespace Gen

variable {ops : Operators} {f : Prototype} {g g0 : Generator} {B : Behavior} {m r : Nat}
  {names new : Names} {js skip : List Nat}

lemma endClause_means {rest : Gen Unit} (isLast : Bool) (escapes : List Nat)
    (hr : BodyMeans ops f B names new rest) (hw : g.Waits names) (hw0 : g0.Waits names)
    (hjs : g0.breaksFrom g.breaks.size = js)
    (h : ∀ T S, (g.entered false).Walks f (aim js T ++ aim skip S) m .plain r g0 (P T S))
    (hd : ∀ pc ∈ skip, pc ∉ js) :
    Meets True g0 (endClause isLast escapes rest skip) fun escapes' g' => ∃ more,
      escapes' = escapes ++ more ∧ g.Escaping f more (fun T E => ∃ S, P T S ∧
        Acts ops f (.block B) names [] (here ops f g0.toDraft)
          (Escaped ops f isLast E g'.toDraft) (target ops f T) ∧
        ∀ ρ m, target ops f S ρ m → here ops f g'.toDraft ρ m) g' := by
  refine (hr hw0).bind fun _ g1 h1 => ?_
  have hb0 : ∃ more, g0.breaks = g.breaks ++ more := by
    obtain ⟨more, hmo, -⟩ := (h 0 0).breaks
    exact ⟨more, hmo⟩
  have hb := breaksFrom_trans hb0 h1.breaks
  rw [hjs] at hb
  have hw1 : ∀ T S, (g.entered false).Walks f
      (aim skip S ++ aim (g1.breaksFrom g.breaks.size) T) g1.active.size
      .plain g1.active.size g1
      (P T S ∧ g0.Behaves ops f B names new T g1.toDraft) := fun T S =>
    ((h T S).bind (h1.walks T)).reorder fun p => by
      rw [hb, aim_append]
      simp only [List.mem_append]
      tauto
  have ho := (h 0 0).traces.opens
  rw [places_append, places_aim, places_aim, opens_append] at ho
  have ho1 := (h1.walks 0).traces.opens
  rw [places_aim] at ho1
  have hd1 : ∀ pc ∈ skip, pc ∉ g1.breaksFrom g.breaks.size := by
    intro pc hpc
    rw [hb, List.mem_append, not_or]
    exact ⟨hd pc hpc, ho.2.disjoint ho1 pc hpc⟩
  have hle : g.active.size ≤ g1.active.size := (hw1 0 0).level_le
  refine (Meets.forall fun p : Nat × Nat =>
    walks_leaveBlock ops hw (hw1 p.1 p.2) hle).bind fun _ g2 h2 => ?_
  obtain ⟨ha, hs, -⟩ := h2 (0, 0)
  have hwa2 := fun T S => (h2 (T, S)).2.2.2
  dsimp only at hwa2
  cases isLast with
  | true =>
    refine meets_update_bind (meets_pure ⟨[], by simp, ha, fun T E => ?_, by simp⟩)
    have hen := Walks.patchToHere ops (hwa2 T) (by rw [places_aim]; exact hd1) .refl
    rw [aim_nil, List.append_nil]
    show g.Walks f (aim (g2.breaksFrom _) T) _ _ _ _ _
    rw [hs]
    refine hen.mono ?_
    rintro ⟨S, ⟨⟨-, hP, hB⟩, hl⟩, hla⟩
    exact ⟨S, hP, hB.block.after (hl.trans hla.falls).here, hla.jumps⟩
  | false =>
    have hw2 : g2.Waits names := (hwa2 0 0).waits hw (Nat.le_of_eq (by rw [ha]))
      (by rw [ha]) (hw.names_of_passes (hwa2 0 0).toPasses ha)
    refine (evaluates_jump ops f hw2.stands (.inl rfl)).bind ?_
    rintro escape g3 ⟨-, h3⟩
    rw [ha] at h3
    have hb3 : ∀ n, g3.breaksFrom n = g1.breaksFrom n := fun n => by
      rw [breaksFrom_congr (congrArg _ (h3 0).breaks), hs]
    have ho2 := (hwa2 0 0).traces.opens
    rw [places_append, places_aim, places_aim, opens_append] at ho2
    have ho3 := (h3 0).traces.opens
    rw [places_aim] at ho3
    refine meets_update_bind (meets_pure ⟨escape, rfl, (h3 0).active.trans ha,
      fun T E => ?_, fun pc hpc hpc' => ?_⟩)
    · have hj := fun S => (hwa2 T S).step (h3 E) .refl
      simp only [List.append_assoc] at hj
      have hen := Walks.patchToHere ops hj (fun pc hpc => by
        rw [places_append, places_aim, places_aim, List.mem_append, not_or]
        exact ⟨hd1 pc hpc, ho2.1.disjoint ho3 pc hpc⟩) .refl
      show g.Walks f (aim (g3.breaksFrom _) T ++ _) _ _ _ _ _
      rw [hb3]
      refine hen.mono ?_
      rintro ⟨S, ⟨⟨⟨-, hP, hB⟩, hl⟩, he⟩, hla⟩
      exact ⟨S, hP, hB.block.after fun ρ m hm => (hl.here ρ m hm).moves (he.moves ρ), hla.jumps⟩
    · change pc ∈ g3.breaksFrom _ at hpc'
      rw [hb3] at hpc'
      exact ho2.2.disjoint ho3 pc hpc' hpc

def ClauseMeans (ops : Operators) (f : Prototype) (names : Names) (c : Env → Bool)
    (B : Behavior) (clause : Bool → List Nat → Gen (List Nat)) : Prop :=
  ∀ ⦃g : Generator⦄ (isLast : Bool) (escapes : List Nat), g.Waits names →
    Meets True g (clause isLast escapes) fun escapes' g' => ∃ more,
      escapes' = escapes ++ more ∧ g.Escaping f more (fun T E => g.Chooses ops f c B names
        (Escaped ops f isLast E g'.toDraft) (target ops f T) g'.toDraft) g'

lemma clause_means {test : ExprCode} {v : Env → Value} {body : ClauseBody}
    (ht : test.Means ops f names v) (hal : BodyMeans ops f B names new body.all)
    (hbr : ∀ rest?, body.afterBreak = some rest? → (∃ B', B = .seq .breaks B') ∧
      ∀ rest, rest? = some rest → ∃ B' new', BodyMeans ops f B' names new' rest) :
    ClauseMeans ops f names (fun env => (v env).isTruthy) (.block B) (clause test body) := by
  intro g isLast escapes hw
  refine meets_read ?_
  split
  · next rest? heq hlo =>
    obtain ⟨⟨B', rfl⟩, hr⟩ := hbr rest? heq
    rw [Behavior.block_seq_breaks]
    refine (ht.jumpIf true hw.stands).bind ?_
    rintro breaks g1 ⟨-, h1⟩
    refine meets_update_bind (meets_update_bind ?_)
    have hwa2 := fun T => hw.addBreak ops hlo (h1 T)
    have hjs : ((g1.entered false).addBreak breaks).breaksFrom g.breaks.size =
        breaks := by
      have hpu : ((g1.entered false).addBreak breaks).breaks =
          g.breaks ++ #[⟨breaks, g1.active.size⟩] := by
        rw [← (h1 0).breaks]
        rfl
      simp [breaksFrom_of_append hpu]
    have hs : g1.active.size = g.active.size := by
      rw [(h1 0).active]
    have hle : g.active.size ≤ g.active.size := .refl
    cases rest? with
    | none =>
      refine (Meets.forall fun T => walks_leaveBlock ops hw (hwa2 T) hle).bind fun _ g' h' => ?_
      obtain ⟨ha, hsa, -⟩ := h' 0
      refine meets_pure ⟨[], by simp, ha, fun T E => ?_, by simp⟩
      rw [hsa, aim_nil, List.append_nil]
      rw [hjs]
      refine (h' T).2.2.2.mono ?_
      rintro ⟨⟨-, ⟨hte, hen⟩, hb⟩, hleave⟩
      rw [hw.size] at hte
      exact hte.chooses_breaks ((hen.trans hb).trans hleave)
    | some rest =>
      obtain ⟨B'', new'', hm⟩ := hr rest rfl
      have hn : ((g1.entered false).addBreak breaks).names = g1.names := names_congr rfl rfl
      rw [((h1 0).stands hw.stands).names] at hn
      have hw2 := (hwa2 0).waits (hw.enter false) (Nat.le_of_eq hs) hs hn
      refine (evaluates_jump ops f hw2.stands (.inl rfl)).bind ?_
      rintro skip g3 ⟨-, h3⟩
      have hjs3 := (breaksFrom_congr (congrArg _ (h3 0).breaks)).trans hjs
      have ho2 := (hwa2 0).traces.opens
      have ho3 := (h3 0).traces.opens
      rw [places_aim] at ho2 ho3
      refine (endClause_means isLast escapes hm hw (hw2.evaluates (h3 0)) hjs3
        (fun T S => (hwa2 T).step (h3 S) (Nat.le_of_eq hs.symm))
        fun pc hpc hpc' => ho2.disjoint ho3 pc hpc' hpc).mono ?_
      rintro _ g' ⟨more, heq, he⟩
      refine ⟨more, heq, he.mono ?_⟩
      rintro T E ⟨S, ⟨⟨⟨hte, hen⟩, hb⟩, hes⟩, -, hl⟩
      rw [hw.size] at hte
      have hsk : g1.toDraft.Idles ops f g'.toDraft := fun ρ m hat =>
        ((hen.trans hb) ρ m hat).trans fun m2 hat2 =>
          hl ρ m2 (hes.moves ρ m2 hat2)
      exact hte.chooses_breaks hsk
  · refine (ht.jumpIf false hw.stands).bind ?_
    rintro skip g1 ⟨-, h1⟩
    have hno : (g1.entered false).breaksFrom g.breaks.size = [] := breaksFrom_of_eq (h1 0).breaks
    have hend := endClause_means isLast escapes hal hw ((hw.evaluates (h1 0)).enter false) hno
      (fun _ S => hw.enterBehind ops (h1 S) false) (by simp)
    refine hend.mono ?_
    rintro _ g' ⟨more, heq, he⟩
    refine ⟨more, heq, he.mono ?_⟩
    rintro T E ⟨S, ⟨hte, hen⟩, hB, hl⟩
    rw [hw.size] at hte
    exact hte.chooses (hB.before hen.here) hl

section Conditional

variable {B' : Behavior} {c : Env → Bool} {clause : Bool → List Nat → Gen (List Nat)}

def ConditionalMeans (ops : Operators) (f : Prototype) (B : Behavior) (names : Names)
    (code : List Nat → Gen Unit) : Prop :=
  ∀ ⦃g0 g : Generator⦄ ⦃escapes : List Nat⦄ ⦃P : Nat → Nat → Prop⦄, g0.Waits names →
    g0.Escaping f escapes P g → Meets True g (code escapes) fun _ g' =>
      g'.active = g0.active ∧ ∀ T, g0.Walks f
        (aim (g'.breaksFrom g0.breaks.size) T) g0.active.size .plain
        g0.active.size g' (∃ E, P T E ∧ g.Behaves ops f B names [] T g'.toDraft ∧
          ∀ ρ m, target ops f E ρ m → here ops f g'.toDraft ρ m)

section

variable (hc : ClauseMeans ops f names c B clause)
include hc

lemma ClauseMeans.escaping (isLast : Bool) (hw : g0.Waits names) (h : g0.Escaping f escapes P g) :
    Meets True g (clause isLast escapes) fun escapes' g' => g0.Escaping f escapes'
      (fun T E => P T E ∧ g.Chooses ops f c B names (Escaped ops f isLast E g'.toDraft)
        (target ops f T) g'.toDraft) g' := by
  refine (hc isLast escapes (h.waits hw)).mono ?_
  rintro _ g' ⟨more, rfl, h'⟩
  exact h.bind h'

lemma ClauseMeans.last : ConditionalMeans ops f (.branch c B (.becomes id)) names
      (fun escapes => do patchToHere (← clause true escapes)) := by
  intro g0 g escapes P hw h
  refine (hc.escaping true hw h).bind fun escapes' g1 h1 => meets_update ⟨h1.active, fun T => ?_⟩
  refine (h1.patchToHere ops T).mono ?_
  rintro ⟨E, ⟨hP, hch⟩, hl⟩
  exact ⟨E, hP, (hch acts_becomes fun _ _ hm => hm).after (Idles.here hl.falls), hl.jumps⟩

lemma ClauseMeans.next {code : List Nat → Gen Unit}
    (start : Position) (hco : ConditionalMeans ops f B' names code) :
    ConditionalMeans ops f (.branch c B B') names (fun escapes => do
      let escapes ← clause false escapes
      setPos start
      code escapes) := by
  intro g0 g escapes P hw h
  refine (hc.escaping false hw h).bind fun escapes1 g1 h1 => ?_
  have hw1 := h1.waits hw
  refine (evaluates_setPos ops f hw1.stands start).bind fun _ g2 h2 => ?_
  have hi := h1.bind (hw1.escaping h2)
  rw [List.append_nil] at hi
  refine (hco hw hi).mono ?_
  rintro - g' ⟨ha, hwa⟩
  refine ⟨ha, fun T => (hwa T).mono ?_⟩
  rintro ⟨E, ⟨⟨hP, hch⟩, hi⟩, hB, hl⟩
  exact ⟨E, hP, hch (hB.before hi.here) hl, hl⟩

lemma ClauseMeans.otherwise {body : Gen Unit} (hb : BodyMeans ops f B' names [] body) :
    ConditionalMeans ops f (.branch c B B') names (fun escapes => do
      let escapes ← clause false escapes
      body
      patchToHere escapes) := by
  intro g0 g escapes P hw h
  refine (hc.escaping false hw h).bind fun escapes1 g1 h1 => ?_
  have hw1 := h1.waits hw
  refine (hb hw1).bind fun _ g2 h2 => ?_
  have hbo := h1.bind (h2.escaping hw1)
  rw [List.append_nil] at hbo
  refine meets_update ⟨hbo.active, fun T => (hbo.patchToHere ops T).mono ?_⟩
  rintro ⟨E, ⟨⟨hP, hch⟩, hB⟩, hl⟩
  exact ⟨E, hP, hch (hB.after (Idles.here hl.falls)) hl.jumps, hl.jumps⟩

end

lemma ConditionalMeans.statement {code : List Nat → Gen Unit}
    (h : ConditionalMeans ops f B names code) : StatementMeans ops f B names [] (code []) := by
  intro g hw
  have hs : g.Evaluates f [] g.active.size .plain g.active.size g True :=
    hw.stands.evaluates trivial
  refine (h hw (hw.escaping hs)).mono ?_
  rintro - g' ⟨ha, hwa⟩
  refine ⟨g.active.size, fun T => ?_, hw.names_of_passes (hwa 0).toPasses ha⟩
  rw [ha]
  refine (hwa T).mono ?_
  rintro ⟨-, -, hB, -⟩
  exact hB

end Conditional

end Gen

end LuaBytecode
