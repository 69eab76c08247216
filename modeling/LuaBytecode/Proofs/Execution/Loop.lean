import LuaBytecode.Proofs.Execution.Statement

namespace LuaBytecode

open Generator Draft Gen Place Machine Regs

variable {cond : ExprCode} {body k : Gen Unit} {v : Env → Value} {P : Prop} {σ : Type}
  {round : σ → σ → Outcome → Prop} {s s' : σ} {out : Outcome} {R : Unit → Generator → Prop}
  {index lim st : Value} {i : Instruction} {g5 g6 g7 : Generator} {ρ ρ' : Regs} {n : Nat}
  {d : Draft}

lemma Loop.ne_broke (h : Loop round s s' out) : out ≠ .broke := by
  induction h with
  | again _ _ ih => exact ih
  | stop _ => simp
  | «return» _ => simp

namespace Draft

variable {ops : Operators} {f : Prototype} {R : σ → Regs → Prop} {d0 d1 d2 d' : Draft}
  {P : Nat → Prop} {head T : Nat}

structure Rounds (ops : Operators) (f : Prototype) (round : σ → σ → Outcome → Prop)
    (R : σ → Regs → Prop) (head : Nat) (d' : Draft) : Prop where
  again : ∀ (s s' : σ) (ρ : Regs), R s ρ → round s s' .normal → ∃ ρ' : Regs,
    R s' ρ' ∧ Moves ops f ⟨head, ρ⟩ ⟨head, ρ'⟩
  stop : ∀ (s s' : σ) (ρ : Regs), R s ρ → round s s' .broke → ∃ ρ' : Regs,
    R s' ρ' ∧ Arrives ops f ⟨head, ρ⟩ d' ρ'
  returned : ∀ (s s' : σ) (values : List Value) (ρ : Regs), R s ρ →
    round s s' (.returned values) → Returns ops f ⟨head, ρ⟩ values
  ends : ∀ (s : σ) (ρ : Regs), R s ρ → Terminates ops f ⟨head, ρ⟩ → ∃ s' out, round s s' out

lemma Rounds.leaves (h : Rounds ops f round R head d') (hl : Loop round s s' .normal)
    (hR : R s ρ) : ∃ ρ', R s' ρ' ∧ Arrives ops f ⟨head, ρ⟩ d' ρ' := by
  generalize ho : Outcome.normal = out at hl
  induction hl generalizing ρ with
  | again hr _ ih =>
    obtain ⟨ρ1, hR1, hm⟩ := h.again _ _ ρ hR hr
    obtain ⟨ρ', hR', ha⟩ := ih hR1 ho
    exact ⟨ρ', hR', ha.of_runs hm.to_reflTransGen⟩
  | stop hr => exact h.stop _ _ ρ hR hr
  | «return» _ => cases ho

lemma Rounds.returns {values : List Value} (h : Rounds ops f round R head d')
    (hl : Loop round s s' (.returned values)) (hR : R s ρ) :
    Returns ops f ⟨head, ρ⟩ values := by
  generalize ho : Outcome.returned values = out at hl
  induction hl generalizing ρ with
  | again hr _ ih =>
    obtain ⟨ρ1, hR1, hm⟩ := h.again _ _ ρ hR hr
    exact .of_runs hm.to_reflTransGen (ih hR1 ho)
  | stop _ => cases ho
  | «return» hr =>
    cases ho
    exact h.returned _ _ values ρ hR hr

lemma Rounds.finishes (h : Rounds ops f round R head d') (hR : R s ρ)
    (ht : Machine.Terminates ops f ⟨head, ρ⟩) : ∃ s' out, Loop round s s' out := by
  have ha := Acc.transGen ht
  generalize hm : Machine.mk head ρ = m at ha
  induction ha generalizing s ρ with
  | intro m _ ih =>
    obtain ⟨s1, out, hr⟩ := h.ends s ρ hR ht
    cases out with
    | normal =>
      obtain ⟨ρ1, hR1, hmo⟩ := h.again s s1 ρ hR hr
      subst hm
      obtain ⟨s', out, hl⟩ := ih _ (Relation.transGen_swap.mpr hmo) hR1
        (ht.runs hmo.to_reflTransGen) rfl
      exact ⟨s', out, .again hr hl⟩
    | broke => exact ⟨s1, .normal, .stop hr⟩
    | returned values => exact ⟨s1, .returned values, .return hr⟩

lemma At.eq_of_lastNil? {m : Machine} (h : d.At f ρ m) (hn : d.lastNil? = none) :
    m = ⟨d.code.size, ρ⟩ := by
  obtain ⟨pc, ρ'⟩ := m
  obtain ⟨rfl, ha⟩ := h
  cases ha with
  | same _ heq => exact congrArg (Machine.mk _) heq
  | cleared hs => rw [hn] at hs; cases hs

variable {names new : Names} {B : Behavior}

def Shows (names : Names) (ρ0 : Regs) (env : Env) (ρ : Regs) : Prop :=
  ρ.env names = env ∧ ρ0.KeepsHidden ρ names

lemma Rounds.of_acts {round : Behavior} (hn : d.lastNil? = none)
    (h : Acts ops f round names [] (here ops f d) (target ops f d.code.size) (here ops f d'))
    (hl : ∀ env env', round env env' .broke → env'.leave env.length = env')
    (ρ0 : Regs) : Rounds ops f round (Shows names ρ0) d.code.size d' := by
  have hh : ∀ ρ : Regs, Arrives ops f ⟨d.code.size, ρ⟩ d ρ := fun ρ =>
    .falls .refl (at_of_lastNil? hn ρ)
  constructor
  · rintro _ env ρ ⟨rfl, hk0⟩ hB
    obtain ⟨ρ', he, hk, hm⟩ := h.normal ρ env hB
    exact ⟨ρ', ⟨he, hk0.trans hk⟩, hm _ (hh ρ)⟩
  · rintro _ env ρ ⟨rfl, hk0⟩ hB
    obtain ⟨ρ', he, hk, ha⟩ := h.broke ρ env hB
    rw [← ρ.length_env, hl _ _ hB] at he
    exact ⟨ρ', ⟨he, hk0.trans hk⟩, ha _ (hh ρ)⟩
  · rintro _ env values ρ ⟨rfl, -⟩ hB
    exact h.returned ρ env values hB _ (hh ρ)
  · rintro _ ρ ⟨rfl, -⟩ ht
    exact h.ends ρ _ (hh ρ) ht

lemma Rounds.behaves {round : Behavior} (hn : d.lastNil? = none)
    (h : ∀ ρ0, Rounds ops f round (Shows names ρ0) d.code.size d') :
    d.Behaves ops f (Loop round) names [] T d' where
  normal ρ env hB := by
    obtain ⟨ρ', ⟨he, hk⟩, ha⟩ := (h ρ).leaves hB ⟨rfl, .refl⟩
    refine ⟨ρ', he, hk, fun m hm => hm.trans fun m1 hat => ?_⟩
    rw [hat.eq_of_lastNil? hn]
    exact ha
  broke _ _ hB := absurd rfl hB.ne_broke
  returned ρ _ _ hB m hm := hm.returns fun m1 hat => by
    rw [hat.eq_of_lastNil? hn]
    exact (h ρ).returns hB ⟨rfl, .refl⟩
  ends ρ m hm ht := by
    obtain ⟨m1, hat, ht1⟩ := hm.terminates ht
    rw [hat.eq_of_lastNil? hn] at ht1
    exact (h ρ).finishes ⟨rfl, .refl⟩ ht1

lemma Leaves.exists (h : Leaves ops f P d d') : ∃ T, P T := by
  rcases h.breaks with ⟨T, hT, -⟩ | ha
  · exact ⟨T, hT⟩
  · exact ⟨0, ha 0⟩

lemma Leaves.acts {Q N : Place} (h : Leaves ops f P d d')
    (hB : ∀ T, P T → Acts ops f B names new Q N (target ops f T)) :
    Acts ops f B names new Q N (here ops f d') := by
  rcases h.breaks with ⟨T, hT, ha⟩ | hal
  · exact (hB T hT).leaving ha
  · exact acts_of_forall fun T => hB T (hal T)

lemma leave_of_block {env env' : Env} (h : Behavior.block B env env' out) :
    env'.leave env.length = env' := by
  obtain ⟨inner, -, rfl⟩ := h
  exact Env.leave_leave .refl

lemma leave_of_branch {c : Env → Bool} {env env' : Env}
    (h : Behavior.branch c (.block B) .breaks env env' out) : env'.leave env.length = env' := by
  unfold Behavior.branch at h
  split at h
  · exact leave_of_block h
  · rw [h.1]
    simp [Env.leave]

end Draft

namespace Gen

variable {ops : Operators} {f : Prototype} {g g0 : Generator} {o : Aims} {l : Link} {m r : Nat}
  {js : List Nat} {target : Nat} {B : Behavior} {names new : Names}

lemma walks_fixJumps (ops : Operators) (h : g.Passes m l r g0) (hb : g0.blocks = g.blocks)
    (hj : ∀ pc ∈ js, g.Loose pc ∧ ∃ i, g0.code[pc]? = some i ∧ i.isJump = true)
    (ht : target ≤ g0.code.size) (ho : Holds g.active.size g.toDraft g0.toDraft o.places)
    (htr : g.Traces f (aim js target ++ o) g0.toDraft P) (hd : ∀ pc ∈ js, pc ∉ o.places) :
    Meets True g0 (updateOrFail (Draft.fixJumps target js)) fun _ g' =>
      g0.Alters g.Loose g' ∧ g.Walks f o m l r g'
        (P ∧ Fixes f g0.toDraft js target ∧ g0.toDraft.Idles ops f g'.toDraft) := by
  have hc : Meets True g0 (updateOrFail (Draft.fixJumps target js)) fun _ g' =>
      g'.blocks = g0.blocks ∧
      Holds g.active.size g.toDraft g'.toDraft o.places ∧ g.Traces f o g'.toDraft
        (P ∧ Fixes f g0.toDraft js target ∧ g0.toDraft.Idles ops f g'.toDraft) := by
    refine meets_updateOrFail ((Draft.fixJumps_cases target js g0.toDraft
      fun pc hpc => (hj pc hpc).2).imp_left ?_)
    rintro ⟨code, hp, hok⟩
    exact ⟨_, hok, rfl, ⟨fun pc hpc => hp.closable (ho.closable pc hpc), ho.loose, ho.apart⟩,
      Traces.fixJumps ops htr hp hd⟩
  refine ((alters_fixJumps (S := g.Loose) h.ready h.frame.pending hj ht).and hc).mono ?_
  rintro - g' ⟨⟨ha, hr, hto⟩, hb', hk, ht'⟩
  exact ⟨ha, h.alter ha hr (hto.trans h.top), hb'.trans hb, hk, ht'⟩

lemma walks_patchTo {P : Nat → Prop} (ops : Operators)
    (h : ∀ S, g.Walks f (aim js S ++ o) m l r g0 (P S)) (hd : ∀ pc ∈ js, pc ∉ o.places)
    (hm : m ≤ g.active.size) (ht : target ≤ g0.code.size)
    (hb : js ≠ [] → target < g0.code.size) :
    Meets True g0 (patchTo js target) fun _ g' => g0.Alters g.Loose g' ∧
      g.Walks f o m l r g' (P target ∧ g0.toDraft.Idles ops f g'.toDraft) := by
  have hp := (h 0).toPasses
  have hh := (h 0).holds
  rw [places_append, places_aim, holds_append] at hh
  obtain ⟨hjs, ho⟩ := hh
  refine meets_read ?_
  split
  · next heq =>
    have hn : js = [] := by
      by_contra hne
      exact absurd heq (Nat.ne_of_lt (hb hne))
    subst hn
    have hhe := Walks.patchToHere ops (fun _ => h target) hd hm
    refine ((alters_patchToHere (S := g.Loose) hp.ready hp.frame.pending
      (by simp)).and meets_patchToHere_eq).mono ?_
    rintro - _ ⟨⟨ha, -, -⟩, rfl⟩
    refine ⟨ha, hhe.mono ?_⟩
    rintro ⟨_, hP, hl⟩
    exact ⟨hP, hl.falls⟩
  · refine (walks_fixJumps ops hp (h 0).blocks
      (fun pc hpc => ⟨hjs.loose pc hpc, (hjs.closable pc hpc).isJump⟩) ht ho (h target).traces
      hd).mono ?_
    rintro - g' ⟨ha, hw⟩
    exact ⟨ha, hw.mono fun hP => ⟨hP.1, hP.2.2⟩⟩

lemma walks_jumpTo (ops : Operators) (h : g.Walks f o m .plain r g0 P) (hm : m = g.active.size)
    (ht : target ≤ g0.code.size) : Meets True g0 (jumpTo target) fun _ g' => g'.active = g0.active ∧
      g'.breaks = g0.breaks ∧ g.Walks f o m .plain r g'
        (P ∧ ∀ ρ m, g0.At f ρ m → m.Moves ops f ⟨target, ρ⟩) := by
  have hs : g0.Stands m g0.names .plain r := ⟨h.ready, h.top, rfl⟩
  refine (evaluates_jump ops f hs (.inl rfl)).bind ?_
  rintro js g1 ⟨hsi, h1⟩
  have ho := (h1 0).traces.opens
  rw [places_aim] at ho
  have hw : ∀ S, g.Walks f (aim js S ++ o) m .plain r g1
      (P ∧ Escapes ops f g0.toDraft g1.toDraft S) := fun S =>
    (h.step (h1 S) (Nat.le_of_eq hm.symm)).reorder fun p => by
      simp only [List.mem_append]
      tauto
  refine (walks_patchTo ops hw (fun pc hpc hpc' => h.traces.opens.disjoint ho pc hpc' hpc)
    (Nat.le_of_eq hm) (by omega) (fun _ => by omega)).mono ?_
  rintro - g' ⟨ha, hw'⟩
  refine ⟨ha.active.trans (h1 0).active,
    ha.breaks.trans (h1 0).breaks, hw'.mono fun hP => ⟨hP.1.1, hP.1.2.moves⟩⟩

lemma whileLoop_means (lastLine : Int) (hc : cond.Means ops f names v)
    (hb : BodyMeans ops f B names new body) :
    StatementMeans ops f (.whileLoop (fun env => (v env).isTruthy) (.block B)) names []
      (whileLoop cond body lastLine) := by
  intro g hw
  refine (evaluates_label ops f hw.stands).bind ?_
  rintro start g1 ⟨rfl, hs1, hn, h1⟩
  have hw1 := hw.evaluates h1
  have ha1 := h1.active
  refine (hc.jumpIf false hw1.stands).bind ?_
  rintro exits g2 ⟨-, h₂⟩
  refine meets_update_bind ?_
  have hw2 := hw1.evaluates (h₂ 0)
  have ha2 := (h₂ 0).active.trans ha1
  refine (block_means hb (hw2.enter true)).bind fun _ g3 h₃ => ?_
  have ha3 : g3.active = g2.active := h₃.active (hw2.enter true)
  have hw3 : g3.Waits names := h₃.waits (hw2.enter true)
  refine (evaluates_setLine ops f hw3.stands lastLine).bind fun _ g4 h₄ => ?_
  have hs4 : g.code.size ≤ g4.code.size := by
    have h2 := (h₂ 0).frame.size
    have h3 : g2.code.size ≤ g3.code.size := h₃.passes.frame.size
    have h4 := h₄.frame.size
    omega
  have hb4 : ∀ n, g4.breaksFrom n = g3.breaksFrom n := fun n =>
    breaksFrom_congr (congrArg _ h₄.breaks)
  refine (Meets.forall fun T => walks_jumpTo ops ((h₃.walks T).step h₄ ?_) ?_ hs4).bind
    fun _ g5 h5 => ?_
  · exact Nat.le_of_eq (by rw [ha3]; rfl)
  · rw [ha3]
    rfl
  obtain ⟨ha5, hb5, -⟩ := h5 0
  have hs : g5.breaksFrom g2.breaks.size = g3.breaksFrom g2.breaks.size := by
    rw [breaksFrom_congr (congrArg _ hb5), hb4]
  have hlo : ∀ T, (g2.entered true).Walks f
      (aim (g5.breaksFrom g2.breaks.size) T ++ []) g3.active.size .plain
      g3.active.size g5 _ := fun T => by
    have hwa := (h5 T).2.2
    rw [hs]
    exact hwa
  refine (walks_leaveLoop ops hw2 hlo (by simp) (Nat.le_of_eq (by rw [ha3]))).bind ?_
  rintro - g6 ⟨ha6, hb6, h6⟩
  have ha : ∀ S, g.Walks f (aim exits S ++ []) g2.active.size .plain
      g2.active.size g6 _ := fun S =>
    ((hw.walks h1 .refl).step (h₂ S) (Nat.le_of_eq (by rw [ha1]))).bind h6
  have hen := Walks.patchToHere ops ha (by simp) (Nat.le_of_eq (by rw [ha2]))
  refine meets_update ⟨g2.active.size, fun T => ?_, ?_⟩
  · have hno : (g6.patchToHere exits).breaksFrom g.breaks.size = [] := by
      rw [← h1.breaks, ← (h₂ 0).breaks]
      exact hb6
    have hs7 : (g6.patchToHere exits).active.size = g2.active.size :=
      congrArg _ ha6
    rw [hno, hs7]
    refine hen.mono ?_
    rintro ⟨S, ⟨⟨hlabel, ht⟩, he, hl⟩, hla⟩
    rw [hw1.size] at ht
    rw [← hs1] at hl
    have hbo := (hl.after hla.falls).acts fun T hP => (hP.1.1.before he.here).after
      fun ρ m hm => (hm.trans (hP.1.2 ρ)).moves (hP.2 ρ)
    have hr : Acts ops f (.branch (fun env => (v env).isTruthy) (.block B) .breaks) names [] _ _
      _ := ht.acts (b := false) (acts_breaks.leaving hla.jumps) hbo
    exact (Rounds.behaves hn (.of_acts hn hr fun _ _ => leave_of_branch)).before hlabel.here
  · exact hw.names_of_passes hen.toPasses (ha6.trans ha2)

lemma closeInnermost_idle {b : Block} {outer : List Block}
    (hb : g.blocks = b :: outer) (hc : b.isCaptured = false) :
    Meets True g (closeInnermost js) fun _ g' => g' = g := by
  refine meets_read ?_
  simp only [hb, List.head?_cons, hc, Bool.false_eq_true, if_false]
  exact meets_pure rfl

lemma repeatLoop_means (hb : BodyMeans ops f B names new body)
    (hc : cond.Means ops f (new ++ names) v) :
    StatementMeans ops f (.repeatLoop B fun env => (v env).isTruthy) names []
      (repeatLoop body cond) := by
  intro g hw
  refine (evaluates_label ops f hw.stands).bind ?_
  rintro start g1 ⟨rfl, hs1, hn, h1⟩
  have hw1 := hw.evaluates h1
  have ha1 := h1.active
  refine meets_update_bind (meets_update_bind ?_)
  have hlo := hw1.enter true
  refine (hb (hlo.enter false)).bind fun _ g2 h₂ => ?_
  have hw2 : g2.Waits (new ++ names) := h₂.waits (hlo.enter false)
  refine (evaluates_setPos ops f hw2.stands cond.start).bind fun _ g3 h₃ => ?_
  have hw3 := hw2.evaluates h₃
  refine (hc.jumpIf false hw3.stands).bind ?_
  rintro again g4 ⟨hg, h4⟩
  have hb4 : ∀ n, g4.breaksFrom n = g2.breaksFrom n := fun n => by
    rw [breaksFrom_congr (congrArg _ (h4 0).breaks), breaksFrom_congr (congrArg _ h₃.breaks)]
  have hle2 : g1.active.size ≤ g2.active.size := h₂.passes.level_le
  have hle3 : g1.active.size ≤ g3.active.size := by
    rw [h₃.active]
    exact hle2
  have hw4 : ∀ T S, ((g1.entered true).entered false).Walks f
      (aim again S ++ aim (g4.breaksFrom g1.breaks.size) T) g3.active.size
      .plain g3.active.size g4 _ := fun T S =>
    (((h₂.walks T).step h₃ hle2).step (h4 S) hle3).reorder fun p => by
      rw [hb4]
      simp only [List.mem_append, List.append_nil]
      exact Or.comm
  have hcl : Meets True g4 (closeInnermost again) fun _ g' => g' = g4 :=
    closeInnermost_idle (hw4 0 0).blocks rfl
  refine hcl.bind ?_
  rintro - g4 rfl
  refine (Meets.forall fun p : Nat × Nat =>
    walks_leaveBlock ops hlo (hw4 p.1 p.2) hle3).bind fun _ g5 h5 => ?_
  obtain ⟨ha5, hb5, hs5, -⟩ := h5 (0, 0)
  have hw5 := fun T S => (h5 (T, S)).2.2.2
  have ho3 := ((h₂.walks 0).step h₃ hle2).traces.opens
  have ho4 := (h4 0).traces.opens
  rw [List.append_nil, places_aim] at ho3
  rw [places_aim] at ho4
  have hsi : g.code.size ≤ g3.code.size := by
    have h2 : g1.code.size ≤ g2.code.size := h₂.passes.frame.size
    have h3 := h₃.frame.size
    omega
  have hs4 := (h4 0).frame.size
  refine (Meets.forall fun T => walks_patchTo ops (hw5 T) (fun pc hpc hpc' => ?_)
    .refl ?_ fun hne => ?_).bind fun _ g6 h6 => ?_
  · rw [places_aim, hb4] at hpc'
    exact ho3.disjoint ho4 pc hpc' hpc
  · rw [hs5.code]
    omega
  · have := hg hne
    rw [hs5.code]
    omega
  have ha6 := (h6 0).1
  have hs : g6.breaksFrom g1.breaks.size = g4.breaksFrom g1.breaks.size := by
    rw [breaksFrom_congr (congrArg _ ha6.breaks), hb5]
  have hr : ∀ T, (g1.entered true).Walks f (aim (g6.breaksFrom g1.breaks.size) T ++ [])
      (g1.entered true).active.size .plain (g1.entered true).active.size g6 _ :=
    fun T => by
      rw [hs, List.append_nil]
      exact (h6 T).2
  refine (walks_leaveLoop ops hw1 hr (by simp) .refl).mono ?_
  rintro - g7 ⟨ha7, hb7, h7⟩
  have ha := (hw.walks h1 .refl).bind h7
  refine ⟨g1.active.size, fun T => ?_, ?_⟩
  · rw [← h1.breaks, hb7, ha7]
    refine ha.mono ?_
    rintro ⟨hla, he, hl⟩
    rw [hw3.size, ← hs1] at hl
    obtain ⟨_, ⟨⟨hi, -, hte⟩, hp⟩, hba⟩ := hl.exists
    have hbo := hl.acts fun T hP =>
      (hP.1.1.2.1.1.before (he.trans hi).here).after hP.1.1.2.1.2.here
    have ht : Acts ops f (.branch (fun env => (v env).isTruthy) .breaks (.becomes id))
      (new ++ names) [] _ _ _ := hte.acts acts_becomes
        (acts_breaks.leaving ((hp.trans hba).trans hl.falls).here)
    exact (Rounds.behaves hn (.of_acts hn (hbo.seq ht).block
      fun _ _ => leave_of_block)).before hla.here
  · exact hw.names_of_passes ha.toPasses (ha7.trans ha1)

end Gen

section

variable {s s' : Value × Env} {v : Value}

namespace Draft

variable {ops : Operators} {f : Prototype} {B : Behavior} {names : Names} {x : Bytes}
  {P : Nat → Prop} {head : Nat} {d1 d2 d' : Draft} {first limit step : Env → Value}

def counted (x : Bytes) (names : Names) : Names := some x :: none :: none :: none :: names

structure Controls (names : Names) (ρ0 : Regs) (limit step : Value)
    (s : Value × Env) (ρ : Regs) : Prop where
  index : ρ names.length = s.1
  limit : ρ (names.length + 1) = limit
  step : ρ (names.length + 2) = step
  shows : Shows names ρ0 s.2 ρ

def counting (n : Nat) (v : Value) (ρ : Regs) : Regs := (ρ.set n v).set (n + 3) v

lemma agrees_counting (n : Nat) (v : Value) (ρ : Regs) : ρ.Agrees none n (counting n v ρ) :=
  (agrees_set_of_le (Nat.le_refl n) v).trans (agrees_set_of_le (Nat.le_add_right n 3) v)

lemma env_counting (v : Value) (ρ : Regs) :
    (counting names.length v ρ).env (counted x names) = (x, v) :: ρ.env names := by
  have ho := agrees_env (agrees_counting names.length v ρ)
  show (x, counting names.length v ρ (names.length + 3)) ::
    (counting names.length v ρ).env names = _
  rw [ho, counting, set_self]

lemma Controls.next {ρ0 : Regs} {limit step : Value} {env : Env}
    (h : Controls names ρ0 limit step s ρ)
    (hke : (counting names.length v ρ).KeepsHidden ρ' (counted x names)) (he : ρ'.env names = env) :
    Controls names ρ0 limit step (v, env) ρ' := by
  have hs : ∀ k, k ≠ names.length → k ≠ names.length + 3 → counting names.length v ρ k = ρ k := by
    intro k hk hk'
    rw [counting, set_of_ne hk', set_of_ne hk]
  obtain ⟨hst, hl, hi, ho⟩ : ρ' (names.length + 2) = counting names.length v ρ (names.length + 2) ∧
      ρ' (names.length + 1) = counting names.length v ρ (names.length + 1) ∧
      ρ' names.length = counting names.length v ρ names.length ∧
      (counting names.length v ρ).KeepsHidden ρ' names := hke
  refine ⟨hi.trans ?_, hl.trans ?_, hst.trans ?_, he, h.shows.2.trans ?_⟩
  · rw [counting, set_of_ne (by omega), set_self]
  · rw [hs _ (by omega) (by omega), h.limit]
  · rw [hs _ (by omega) (by omega), h.step]
  · exact (agrees_keepsHidden (agrees_counting names.length v ρ)).trans ho

lemma round_of_some {limit step : Value} (h : ops.advance s.1 limit step = some v) :
    Behavior.round ops x B limit step s s' out ↔
      s'.1 = v ∧ Behavior.block (fun outer => B ((x, v) :: outer)) s.2 s'.2 out := by
  simp only [Behavior.round, h]

lemma round_of_none {limit step : Value} (h : ops.advance s.1 limit step = none) :
    Behavior.round ops x B limit step s s' out ↔ s'.1 = s.1 ∧ s'.2 = s.2 ∧ out = .broke := by
  simp only [Behavior.round, h]

lemma block_counted {env : Env}
    (h : Behavior.block (fun outer => B ((x, v) :: outer)) (ρ.env names) env out) : ∃ inner,
      Behavior.block B ((counting names.length v ρ).env (counted x names)) inner out ∧
      ∀ ρ' : Regs, ρ'.env (counted x names) = inner → ρ'.env names = env := by
  obtain ⟨inner, hB, rfl⟩ := h
  rw [env_counting]
  refine ⟨_, ⟨inner, hB, rfl⟩, fun ρ' he => ?_⟩
  have ho : ρ'.env ([some x, none, none, none] ++ names) = _ := he
  rw [env_eq_leave ho, ← ρ.length_env]
  exact Env.leave_leave (Nat.le_succ _)

lemma Rounds.of_counting (hni : d.lastNil? = none)
    (hn : ∀ ρ v, ops.advance (ρ names.length) (ρ (names.length + 1))
      (ρ (names.length + 2)) = some v →
        Step ops f ⟨head, ρ⟩ ⟨d.code.size, counting names.length v ρ⟩)
    (hla : ∀ ρ : Regs, ops.advance (ρ names.length) (ρ (names.length + 1))
      (ρ (names.length + 2)) = none → Arrives ops f ⟨head, ρ⟩ d' ρ)
    (hbo : Acts ops f (.block B) (counted x names) [] (here ops f d)
      (fun ρ m => m.Runs ops f ⟨head, ρ⟩) (here ops f d'))
    (ρ0 : Regs) (limit step : Value) :
    Rounds ops f (Behavior.round ops x B limit step) (Controls names ρ0 limit step) head d' := by
  have hst : ∀ ρ : Regs, Arrives ops f ⟨d.code.size, ρ⟩ d ρ := fun ρ =>
    .falls .refl (at_of_lastNil? hni ρ)
  constructor
  · intro s s' ρ hR hr
    cases hv : ops.advance s.1 limit step with
    | none => exact absurd ((round_of_none hv).mp hr).2.2 (by simp)
    | some v =>
      obtain ⟨hi, hb⟩ := (round_of_some hv).mp hr
      rw [← hR.shows.1] at hb
      obtain ⟨inner, hB, hl⟩ := block_counted hb
      obtain ⟨ρ', he, hk, hba⟩ := hbo.normal _ inner hB
      rw [← hR.index, ← hR.limit, ← hR.step] at hv
      refine ⟨ρ', ?_, .head' (hn ρ v hv) (hba _ (hst _))⟩
      have hne := hR.next hk (hl ρ' he)
      rwa [← hi] at hne
  · intro s s' ρ hR hr
    cases hv : ops.advance s.1 limit step with
    | none =>
      obtain ⟨hi, he, -⟩ := (round_of_none hv).mp hr
      have hs : s' = s := Prod.ext hi he
      rw [← hR.index, ← hR.limit, ← hR.step] at hv
      exact ⟨ρ, by rw [hs]; exact hR, hla ρ hv⟩
    | some v =>
      obtain ⟨hi, hb⟩ := (round_of_some hv).mp hr
      rw [← hR.shows.1] at hb
      obtain ⟨inner, hB, hl⟩ := block_counted hb
      rw [← hR.index, ← hR.limit, ← hR.step] at hv
      obtain ⟨ρ', he, hk, ha⟩ := hbo.broke _ inner hB
      rw [← length_env, leave_of_block hB] at he
      refine ⟨ρ', ?_, (ha _ (hst _)).of_runs (.single (hn ρ v hv))⟩
      have hne := hR.next hk (hl ρ' he)
      rwa [← hi] at hne
  · intro s s' values ρ hR hr
    cases hv : ops.advance s.1 limit step with
    | none => exact absurd ((round_of_none hv).mp hr).2.2 (by simp)
    | some v =>
      obtain ⟨-, hb⟩ := (round_of_some hv).mp hr
      rw [← hR.shows.1] at hb
      obtain ⟨inner, hB, -⟩ := block_counted hb
      rw [← hR.index, ← hR.limit, ← hR.step] at hv
      exact .of_runs (.single (hn ρ v hv)) (hbo.returned _ inner values hB _ (hst _))
  · intro s ρ hR ht
    cases hv : ops.advance s.1 limit step with
    | none => exact ⟨s, .broke, (round_of_none hv).mpr ⟨rfl, rfl, rfl⟩⟩
    | some v =>
      have hv' := hv
      rw [← hR.index, ← hR.limit, ← hR.step] at hv'
      obtain ⟨-, out, inner, hB, -⟩ := hbo.ends _ _ (hst _) (ht.runs (.single (hn ρ v hv')))
      rw [env_counting, hR.shows.1] at hB
      exact ⟨(v, inner.leave s.2.length), out, (round_of_some hv).mpr ⟨rfl, inner, hB, rfl⟩⟩

def prepared (ops : Operators) (n : Nat) (ρ : Regs) : Regs :=
  ((ρ.set n (ops.prepare (ρ n) (ρ (n + 1)) (ρ (n + 2))).1).set (n + 1)
    (ops.prepare (ρ n) (ρ (n + 1)) (ρ (n + 2))).2.1).set (n + 2)
    (ops.prepare (ρ n) (ρ (n + 1)) (ρ (n + 2))).2.2

lemma agrees_prepared (ops : Operators) (n : Nat) (ρ : Regs) : ρ.Agrees none n (prepared ops n ρ) :=
  ((agrees_set_of_le (Nat.le_refl n) _).trans (agrees_set_of_le (Nat.le_add_right n 1) _)).trans
    (agrees_set_of_le (Nat.le_add_right n 2) _)

variable {pc target : Nat}

lemma toNat?_offset (pc target : Nat) :
    ((pc : Int) + 1 + ((target : Int) - ((pc : Int) + 1))).toNat? = some target := by
  rw [show (pc : Int) + 1 + ((target : Int) - ((pc : Int) + 1)) = target by omega]
  rfl

lemma step_forPrep (hi : f.code[pc]? = some i) (h : i.IsAsBx .forPrep n (target - (pc + 1))) :
    Machine.Step ops f ⟨pc, ρ⟩ ⟨target, prepared ops n ρ⟩ := by
  refine Machine.step_of hi h.op ?_
  simp only [Machine.execute, Machine.jump, h.argA, h.argSBx, toNat?_offset, Option.map_some]
  rfl

lemma step_forLoop (hi : f.code[pc]? = some i) (h : i.IsAsBx .forLoop n (target - (pc + 1)))
    (hv : ops.advance (ρ n) (ρ (n + 1)) (ρ (n + 2)) = some v) :
    Machine.Step ops f ⟨pc, ρ⟩ ⟨target, counting n v ρ⟩ := by
  refine Machine.step_of hi h.op ?_
  simp only [Machine.execute, Machine.jump, h.argA, h.argSBx, hv, toNat?_offset, Option.map_some]
  rfl

lemma step_forLoop_last (hi : f.code[pc]? = some i) (h : i.IsAsBx .forLoop n (target - (pc + 1)))
    (hv : ops.advance (ρ n) (ρ (n + 1)) (ρ (n + 2)) = none) :
    Step ops f ⟨pc, ρ⟩ ⟨pc + 1, ρ⟩ := by
  refine step_of hi h.op ?_
  simp only [execute, h.argA, hv]

def Loads (names : Names) (first limit step : Env → Value) (ρ ρ' : Regs) : Prop :=
  ρ' names.length = first (ρ.env names) ∧ ρ' (names.length + 1) = limit (ρ.env names) ∧
    ρ' (names.length + 2) = step (ρ.env names) ∧ ρ.Agrees none names.length ρ'

lemma Loads.controls (h : Loads names first limit step ρ ρ')
    (hp : ops.prepare (first (ρ.env names)) (limit (ρ.env names)) (step (ρ.env names)) =
      (index, lim, st)) :
    Controls names ρ lim st (index, ρ.env names) (prepared ops names.length ρ') := by
  obtain ⟨hf, hl, hs, ha⟩ := h
  have hal := ha.trans (agrees_prepared ops names.length ρ')
  rw [← hf, ← hl, ← hs] at hp
  refine ⟨?_, ?_, ?_, agrees_env hal, agrees_keepsHidden hal⟩ <;>
    simp [prepared, Regs.set, hp]

lemma numericLoop_iff {env env' : Env}
    (h : ops.prepare (first env) (limit env) (step env) = (index, lim, st)) :
    Behavior.numericLoop ops x B first limit step env env' out ↔
      ∃ index', Loop (Behavior.round ops x B lim st) (index, env) (index', env') out := by
  simp only [Behavior.numericLoop, h]

lemma Rounds.numericLoop {T : Nat} (hlo : d.Computes ops f (Loads names first limit step) d1)
    (hpr : ∀ ρ m, d1.At f ρ m →
      m.Step ops f ⟨head, prepared ops names.length ρ⟩)
    (hr : ∀ ρ0 lim st, Rounds ops f (Behavior.round ops x B lim st)
      (Controls names ρ0 lim st) head d') :
    d.Behaves ops f (.numericLoop ops x B first limit step) names [] T d' := by
  have hh : ∀ ρ : Regs, ∃ index lim st ρ1,
      ops.prepare (first (ρ.env names)) (limit (ρ.env names)) (step (ρ.env names)) =
        (index, lim, st) ∧ Controls names ρ lim st (index, ρ.env names) ρ1 ∧
          ∀ m : Machine, m.Arrives ops f d ρ → m.Moves ops f ⟨head, ρ1⟩ := by
    intro ρ
    obtain ⟨ρ1, hg, hl⟩ := hlo ρ
    exact ⟨_, _, _, _, rfl, hl.controls rfl, fun m hm =>
      (hm.trans hg).moves fun m1 hat1 => .single (hpr ρ1 m1 hat1)⟩
  constructor
  · intro ρ env hB
    obtain ⟨index, lim, st, ρ1, hp, hc, hmo⟩ := hh ρ
    obtain ⟨index', hl⟩ := (numericLoop_iff hp).mp hB
    obtain ⟨ρ', hR, ha⟩ := (hr ρ lim st).leaves hl hc
    exact ⟨ρ', hR.shows.1, hR.shows.2, fun m hat => ha.of_runs (hmo m hat).to_reflTransGen⟩
  · intro ρ env hB
    obtain ⟨index', hl⟩ := (numericLoop_iff rfl).mp hB
    exact absurd rfl hl.ne_broke
  · intro ρ env values hB m hat
    obtain ⟨index, lim, st, ρ1, hp, hc, hmo⟩ := hh ρ
    obtain ⟨index', hl⟩ := (numericLoop_iff hp).mp hB
    exact .of_runs (hmo m hat).to_reflTransGen ((hr ρ lim st).returns hl hc)
  · intro ρ m hat ht
    obtain ⟨index, lim, st, ρ1, hp, hc, hmo⟩ := hh ρ
    obtain ⟨⟨index', env⟩, out, hl⟩ := (hr ρ lim st).finishes hc
      (ht.runs (hmo m hat).to_reflTransGen)
    exact ⟨env, out, (numericLoop_iff hp).mpr ⟨index', hl⟩⟩

structure Counts (ops : Operators) (f : Prototype) (n : Nat) (d0 d d1 d' : Draft) (head : Nat) :
    Prop where
  starts : ∀ (ρ : Regs) (m : Machine), d0.At f ρ m → m.Step ops f ⟨head, prepared ops n ρ⟩
  next : ∀ (ρ : Regs) (v : Value), ops.advance (ρ n) (ρ (n + 1)) (ρ (n + 2)) = some v →
    Step ops f ⟨head, ρ⟩ ⟨d.code.size, counting n v ρ⟩
  last : ∀ ρ : Regs, ops.advance (ρ n) (ρ (n + 1)) (ρ (n + 2)) = none → Arrives ops f ⟨head, ρ⟩ d' ρ
  back : ∀ (ρ : Regs) (m : Machine), m.Arrives ops f d1 ρ → m.Runs ops f ⟨head, ρ⟩

lemma Fixes.jump {js : List Nat} {op : OpCode} (h : Fixes f d js target) (hpc : pc ∈ js)
    (hi : d.code[pc]? = some i) (hx : i.IsAsBx op n 0) :
    ∃ j, f.code[pc]? = some j ∧ j.IsAsBx op n (target - (pc + 1)) := by
  obtain ⟨i', j, hi', hj, op', hop, -, hx'⟩ := h pc hpc
  cases hi.symm.trans hi'
  cases hx.op.symm.trans hop
  rw [hx.argA] at hx'
  exact ⟨j, hj, hx'⟩

lemma Counts.of_code {d0 d3 : Draft} (hst : ∀ ρ m, d0.At f ρ m → m = ⟨pc, ρ⟩)
    (hp : ∃ j, f.code[pc]? = some j ∧ j.IsAsBx .forPrep n (d2.code.size - (pc + 1)))
    (hsi : d.code.size = pc + 1) (hb : d1.Idles ops f d2)
    (hh : ∀ ρ m, d2.At f ρ m → m = ⟨d2.code.size, ρ⟩)
    (hl : ∃ j, f.code[d2.code.size]? = some j ∧
      j.IsAsBx .forLoop n ((pc + 1 : Nat) - (d2.code.size + 1)))
    (he : d3.code.size = d2.code.size + 1) (hn : d3.lastNil? = none)
    (ho : d3.Idles ops f d') : Counts ops f n d0 d d1 d' d2.code.size := by
  obtain ⟨i, hi, hp⟩ := hp
  obtain ⟨j, hj, hl⟩ := hl
  refine ⟨fun ρ m hat => ?_, fun ρ v hv => ?_, fun ρ hv => ?_, fun ρ m hm => ?_⟩
  · rw [hst ρ m hat]
    exact step_forPrep hi hp
  · rw [hsi]
    exact step_forLoop hj hl hv
  · have hs := step_forLoop_last hj hl hv
    rw [← he] at hs
    exact (ho ρ _ (at_of_lastNil? hn ρ)).of_runs (.single hs)
  · cases hm.trans (hb ρ) with
    | falls hr hat =>
      rw [hh ρ _ hat] at hr
      exact hr
    | jumps hju =>
      -- A machine is not taken on: what comes next is no jump.
      obtain ⟨j', hj', hop, -⟩ := hju
      cases hj.symm.trans hj'
      cases hl.op.symm.trans hop

end Draft

namespace Gen

variable {ops : Operators} {f : Prototype} {g : Generator} {B : Behavior} {x : Bytes} {m r : Nat}
  {names new : Names} {v : Env → Value}

lemma evaluates_loopStep {step : Option ExprCode} (hs : ∀ e, step = some e → e.Means ops f names v)
    (hn : step = none → ∀ env, v env = .integer 1) (h : g.Stands m names .plain r) :
    Meets True g (loopStep step) fun _ =>
      g.Computes ops f (Finds names v none r r) m (r + 1) := by
  cases step with
  | some e => exact (hs e rfl).pushes h
  | none =>
    refine (evaluates_constant ops f h (.integer 1)).bind ?_
    rintro k g1 ⟨hk, h1⟩
    have hs1 := h1.stands h
    refine (evaluates_reserve ops f hs1 1).bind ?_
    rintro _ g2 ⟨rfl, h2⟩
    have hk2 := Nat.lt_of_lt_of_le hk h2.frame.bounds.constants
    refine (evaluates_loadConstant ops f (h2.stands hs1) (Nat.lt_succ_self _) hk2).mono
      fun _ g3 h3 => (h1.bind (h2.bind h3)).mono ?_
    rintro ⟨⟨hi1, hk⟩, hi2, hl⟩ ρ
    refine ⟨_, hi1.goes (hi2.goes (hl _ ρ hk)), ?_, agrees_set_of_le .refl _⟩
    rw [set_self, hn rfl]

lemma Declared.silent {ns : List Bytes} (h : g.Declared ns d) :
    g.Silent { g with toDraft := d } := by
  rw [h.eq]
  exact ⟨rfl, rfl, rfl, rfl, .refl _⟩

lemma reserve_books (n : Nat) : Meets True g (reserve n) fun _ g' =>
    g'.names = g.names ∧ g'.breaks = g.breaks := by
  refine (meets_reserve_eq n).mono ?_
  rintro _ _ ⟨-, s, rfl, -⟩
  exact ⟨names_congr rfl rfl, rfl⟩

lemma loopBody_means (hx : isHidden x = false) (hb : BodyMeans ops f B (some x :: names) new body)
    (hw : g.Waits names) (h : g.Passes 255 .plain g.active.size g) :
    Meets True g (loopBody [x] body) fun _ g' => g'.active = g.active ∧
      g.active.size + 1 ≤ g'.bounds.stack ∧
      ∀ T, g.Walks f (aim (g'.breaksFrom g.breaks.size) T) g.active.size .plain g.active.size g'
        (g.Behaves ops f (.block B) (some x :: names) [] T g'.toDraft) := by
  refine meets_update_bind ?_
  have hin := hw.enter false
  refine (meets_declareAll (g.entered false) [x]).bind ?_
  rintro - _ ⟨d, rfl, hd⟩
  refine ((meets_reserve_declared (h.enter false) hd).and
    ((silent_reserve 1).and (reserve_books 1))).discard_bind ?_
  rintro - g1 ⟨⟨hp1, ha1⟩, hs, hn1, hb1⟩
  have hs1 := (Declared.silent hd).trans hs
  have hwa1 : (g.entered false).Walks f [] 255 .plain (g.active.size + 1) g1
      ((g.entered false).toDraft.Idles ops f g1.toDraft) :=
    ⟨hp1, hs1.blocks, .nil, (traces_silent hs1 hp1.frame).mono And.left⟩
  have hsi1 : g1.active.size = g.active.size + 1 := by
    rw [ha1, hd.size]
    rfl
  have hn : g1.names = some x :: names := by
    rw [hn1, hd.names hin.rests.ready.sound, hin.names, List.map_singleton, shown_eq_some hx]
    rfl
  have hw1 := hwa1.waits hin (Nat.le_trans hp1.active_le (by omega)) hsi1 hn
  refine (block_means hb hw1).bind fun _ g2 h2 => ?_
  have hle : g.active.size ≤ g2.active.size := Nat.le_trans (by omega) h2.passes.level_le
  refine (Meets.forall fun T =>
    walks_leaveBlock ops hw (hwa1.bind (h2.walks T)) hle).mono fun _ g3 h3 => ?_
  obtain ⟨ha3, hsa, hst, -⟩ := h3 0
  refine ⟨ha3, ?_, fun T => ?_⟩
  · have hle1 := hp1.reaches.le_stack
    have hle2 := h2.passes.frame.bounds.stack
    rw [hst.bounds]
    exact Nat.le_trans hle1 hle2
  · have hbr : g1.breaks = g.breaks := by
      rw [hb1, hd.eq]
      rfl
    rw [hsa, ← hbr]
    refine (h3 T).2.2.2.mono ?_
    rintro ⟨⟨he, hde, hB⟩, hl⟩
    exact (hB.before (he.trans hde).here).after hl.here

lemma traces_numeric {g8 g9 : Generator} {j : Instruction} {o : Aims} {P Q : Prop} (ops : Operators)
    (S : Nat) (h5 : g.Traces f [] g5.toDraft P) (he : g5.Emits i g6) (hi : i.isJump = true)
    (hp5 : g5.Pends) (h7 : g6.Traces f o g7.toDraft Q) (hp7 : g7.Pends)
    (hd : g5.code.size ∉ o.places) (hs : Generator.Silent
      { g7 with toDraft := g7.patchToHere [g5.code.size] } g8)
    (hfr : (g7.patchToHere [g5.code.size]).Frame n g8.toDraft) (he' : g8.Emits j g9)
    (hj : j.isJump = true) (hp8 : g8.Pends) : g.Traces f (aim [g8.code.size] S ++ o) g9.toDraft
      (P ∧ Q ∧ (∀ ρ m, g5.At f ρ m → m = ⟨g5.code.size, ρ⟩) ∧ g7.toDraft.Idles ops f g8.toDraft ∧
        (∀ ρ m, g8.At f ρ m → m = ⟨g8.code.size, ρ⟩) ∧
        Fixes f g8.toDraft g8.pending g8.code.size) := by
  have ho : ∀ T, g.Traces f (aim [g5.code.size] T ++ o) g7.toDraft _ := fun T =>
    (h5.bind (he.traces_open hi hp5)).bind h7
  have hp := Traces.patchToHere ops ho hp7 fun pc hpc => by
    rw [List.mem_singleton.mp hpc]
    exact hd
  have hli : (g7.patchToHere [g5.code.size]).Traces f [] g8.toDraft
      ((g7.patchToHere [g5.code.size]).Idles ops f g8.toDraft) :=
    (traces_silent hs hfr).mono And.left
  have ha := (hp.bind hli).bind (he'.traces_open (T := S) hj hp8)
  refine (ha.reorder fun p => ?_).mono ?_
  · simp only [List.mem_append, List.append_nil]
    exact Or.comm
  · rintro ⟨⟨⟨T, ⟨⟨hP, hst, -⟩, hQ⟩, hl⟩, hid⟩, hh, hf⟩
    exact ⟨hP, hQ, hst, fun ρ => (hl.falls ρ).trans (hid ρ), hh, hf⟩

lemma closes_numeric {P : Prop} {Q : Nat → Prop} (ops : Operators) (line : Int)
    (h5 : g.Walks f [] m .plain r g5 P) (he : g5.Emits i g6) (hi : i.IsAsBx .forPrep n 0)
    (h6 : g5.Reaches 255 .plain g5.firstFree g6)
    (h7 : ∀ T, g6.Walks f (aim (g7.breaksFrom g6.breaks.size) T)
      g6.active.size .plain g6.active.size g7 (Q T)) (hn : n + 4 ≤ g7.bounds.stack)
    (hk : ∀ g', g'.active = g7.active → g'.breaks = g7.breaks →
      (∀ T, g.Walks f (aim (g7.breaksFrom g6.breaks.size) T) 255 .plain
        g7.firstFree g' (P ∧ Q T ∧ ∃ head,
          Counts ops f n g5.toDraft g6.toDraft g7.toDraft g'.toDraft head)) → Meets True g' k R) :
    Meets True g7 (do
      patchToHere [g5.code.size]
      setLine line
      let loop ← emitAsBx .forLoop n 0
      patchTo [loop] (g5.code.size + 1)
      k) R := by
  have hp6 := h5.toPasses.step h6
  have hp7 := hp6.trans (h7 0).toPasses
  have hpr : g.Loose g5.code.size := .inr h5.frame.size
  have hju : i.isJump = true := by
    rw [Instruction.isJump_of_op hi.op]
    rfl
  have hi7 : g7.code[g5.code.size]? = some i :=
    (h7 0).frame.kept he.getElem? (by simp [he.pending]) (by simp [hi.op])
  rw [← bind_assoc]
  refine (meets_rejoins line hp7 hpr hi7 hju).bind ?_
  rintro - g9 h9
  have hle : g.active.size ≤ 255 :=
    Nat.le_trans hp7.level_le (Nat.le_trans hp7.active_le (by omega))
  have hst9 : g7.bounds.stack ≤ g9.bounds.stack := h9.alters.frame.bounds.stack
  have hm9 : g9.bounds.stack ≤ 254 := h9.steady.sound.stack
  refine (meets_emitAsBx .forLoop n h9.steady h9.pends rfl (by omega)
    (OpCode.fits_forLoop (by omega)) rfl).bind ?_
  rintro _ g10 ⟨rfl, h10, j, hj, he10⟩
  have hju' : j.isJump = true := by
    rw [Instruction.isJump_of_op hj.op]
    rfl
  have hp10 : g.Passes 255 .plain g9.firstFree g10 :=
    ⟨h9.past.alter { h10.toAlters with frame := h10.frame.weaken h9.past.frame.pending } hle,
      h10.ready, h10.top⟩
  have hlt : g5.code.size + 1 < g10.code.size := by
    have h1 := lt_size hi7
    rw [he10.size, h9.code]
    omega
  have hb10 : g10.blocks = g.blocks := by
    rw [he10.blocks, h9.silent.blocks]
    exact (h7 0).blocks.trans (he.blocks.trans h5.blocks)
  have hh := (h7 0).holds
  rw [places_aim] at hh
  have ha : ∀ pc ∈ g7.breaksFrom g6.breaks.size, g5.code.size ≠ pc ∧ g9.code.size ≠ pc := by
    intro pc hpc
    obtain ⟨j', hj', -⟩ := hh.closable pc hpc
    have hlt' := lt_size hj'
    rcases hh.loose pc hpc with hp | hle'
    · rw [he.pending] at hp
      cases hp
    · rw [he.size] at hle'
      rw [h9.code]
      omega
  have hle6 : g.active.size ≤ g6.active.size := hp6.level_le
  have hho : Holds g.active.size g.toDraft g10.toDraft (g7.breaksFrom g6.breaks.size) := by
    refine ⟨fun pc hpc => ?_, fun pc hpc => ?_, fun pc _ => by simp [he10.pending]⟩
    · refine he10.frame.closable _ pc .refl ?_
      rw [h9.code]
      exact (hh.closable pc hpc).mono hle6
    · exact hp6.frame.loose (hh.loose pc hpc)
  have hpa : ∀ T, Meets True g10 (patchTo [g9.code.size] (g5.code.size + 1)) _ := fun T => by
      refine meets_read ?_
      rw [if_neg (Nat.ne_of_lt hlt)]
      exact walks_fixJumps ops hp10 hb10 (fun pc hpc => by
          rw [List.mem_singleton.mp hpc]
          exact ⟨.inr h9.past.frame.size, j, he10.getElem?, hju'⟩) (Nat.le_of_lt hlt)
        (by rw [places_aim]; exact hho)
        (traces_numeric ops _ h5.traces he hju h5.ready.settled.pends (h7 T).traces
          hp7.ready.settled.pends (by
            rw [places_aim]
            exact fun hpc => (ha _ hpc).1 rfl) h9.silent h9.frame he10 hju' h9.pends)
        fun pc hpc hpc' => by
          rw [List.mem_singleton.mp hpc, places_aim] at hpc'
          exact (ha _ hpc').2 rfl
  refine (Meets.forall hpa).bind fun _ g11 h11 => ?_
  have ha11 := (h11 0).1
  refine hk g11 ?_ ?_ fun T => ?_
  · rw [ha11.active, h10.active, h9.alters.active]
  · rw [ha11.breaks, h10.breaks, h9.alters.breaks]
  · rw [← h9.top]
    refine (h11 T).2.mono ?_
    rintro ⟨⟨hP, hQ, hs, hid, hhe, hf⟩, hfi, ho⟩
    have hm : g5.code.size ∈ g9.pending := by
      rw [h9.pending]
      simp
    have hi9 : g9.code[g5.code.size]? = some i := by
      rw [h9.code]
      exact hi7
    exact ⟨hP, hQ, _, Counts.of_code hs (hf.jump hm hi9 hi) he.size hid hhe
      (hfi.jump (List.mem_singleton_self _) he10.getElem? hj) he10.size
      (he10.lastNil? (by simp [hj.op])) ho⟩

section NumericFor

variable {first limit : ExprCode} {step : Option ExprCode} {v1 v2 v3 : Env → Value}

lemma evaluates_controls (line : Int) (hf : first.Means ops f names v1)
    (hli : limit.Means ops f names v2) (hs : ∀ e, step = some e → e.Means ops f names v3)
    (hno : step = none → ∀ env, v3 env = .integer 1) (hw : g.Waits names)
    (hk : ∀ g', g'.names = none :: none :: none :: names →
      g.Walks f [] g.active.size .plain (g.active.size + 3) g'
        (g.toDraft.Computes ops f (Loads names v1 v2 v3) g'.toDraft) →
      g'.breaks = g.breaks → Meets True g' k R) : Meets True g (do
      discard first.nextReg
      discard limit.nextReg
      loopStep step
      declareAll ["(for index)", "(for limit)", "(for step)"]
      setLine line
      k) R := by
  have hn := hw.size
  refine (hf.nextReg hw.stands).discard_bind ?_
  rintro - g1 ⟨-, h1⟩
  have hs1 := h1.stands hw.stands
  refine (hli.nextReg hs1).discard_bind ?_
  rintro - g2 ⟨-, h2⟩
  have hs2 := h2.stands hs1
  refine (evaluates_loopStep hs hno hs2).bind fun _ g3 h3 => ?_
  have hl : g.Computes ops f (Loads names v1 v2 v3) g.active.size (g.active.size + 3) g3 := by
    refine (h1.bind (h2.bind h3)).mono ?_
    rintro ⟨hc1, hc2, hc3⟩ ρ
    rw [hn] at hc1 hc2 hc3
    obtain ⟨ρ1, hg1, hv1, ha1⟩ := hc1 ρ
    obtain ⟨ρ2, hg2, hv2, ha2⟩ := hc2 ρ1
    obtain ⟨ρ3, hg3, hv3, ha3⟩ := hc3 ρ2
    have ha12 := ha1.trans (ha2.mono (Nat.le_add_right _ 1))
    have ha13 := ha12.trans (ha3.mono (Nat.le_add_right _ 2))
    refine ⟨ρ3, hg1.trans (hg2.trans hg3), ?_, ?_, ?_, ha13⟩
    · rw [ha3.eq (by omega), ha2.eq (by omega), hv1]
    · rw [ha3.eq (by omega), hv2, agrees_env ha1]
    · rw [hv3, agrees_env ha12]
  refine (meets_declareAll g3 _).bind ?_
  rintro - _ ⟨d, rfl, hd⟩
  have hp : g.Passes g.active.size .plain (g.active.size + 3)
      { g3 with toDraft := d } :=
    (Passes.step hw.rests hl.toReaches).declared hd (Nat.le_of_eq (by rw [hl.active]; rfl))
  have hb : d.blocks = g3.blocks ∧ d.breaks = g3.breaks := by
    rw [hd.eq]
    exact ⟨rfl, rfl⟩
  have hwa := (hw.walks hl .refl).still ops hd.still hp hb.1
  have hs4 : Generator.Stands g.active.size d.names .plain (g.active.size + 3)
      { g3 with toDraft := d } := ⟨hp.ready, hp.top, rfl⟩
  refine (evaluates_setLine ops f hs4 line).bind fun _ g5 h5 => ?_
  refine hk g5 ?_ ?_ ?_
  · rw [h5.names]
    rw [hd.names hl.ready.sound, hl.names, hw.names]
    rfl
  · refine (hwa.step h5 .refl).mono ?_
    rintro ⟨⟨hc, hde⟩, hline⟩
    exact (hc.idle hde).idle hline
  · rw [h5.breaks]
    exact hb.2.trans hl.breaks

lemma numericFor_means (start : Position) (hx : isHidden x = false)
    (hf : first.Means ops f names v1) (hli : limit.Means ops f names v2)
    (hs : ∀ e, step = some e → e.Means ops f names v3)
    (hn : step = none → ∀ env, v3 env = .integer 1)
    (hb : BodyMeans ops f B (counted x names) new body) :
    StatementMeans ops f (.numericLoop ops x B v1 v2 v3) names []
      (numericFor start x first limit step body) := by
  intro g hw
  refine meets_update_bind (meets_read ?_)
  rw [show (g.enterBlock true).firstFree = g.active.size from hw.rests.top]
  refine evaluates_controls start.line hf hli hs hn (hw.enter true) fun g5 hn5 h5 hb5 => ?_
  have hs5 : g.active.size + 3 ≤ g5.bounds.stack := h5.toPasses.reaches.le_stack
  have hm5 : g5.bounds.stack ≤ 254 := h5.toPasses.reaches.stack_le
  refine (meets_emitAsBx .forPrep g.active.size h5.ready.toSteady
    h5.ready.settled.pends rfl (by omega) (OpCode.fits_forPrep (by omega)) rfl).bind ?_
  rintro prep g6 ⟨rfl, h6, i, hi, he⟩
  have hp6 := h5.toPasses.step h6
  have hn6 := h6.names.trans hn5
  have hs6 : g6.active.size = g.active.size + 3 := by
    rw [← length_names, hn6, hw.size]
    rfl
  have ht6 : g6.active.size = g5.firstFree := hs6.trans h5.top.symm
  have hr6 : g6.Rests g6 := (hp6.rests (by omega) ht6).restart
  have hb6 : g6.blocks = (g.entered true).blocks := he.blocks.trans h5.blocks
  have hw6 : g6.Waits (none :: none :: none :: names) :=
    ⟨hr6, hn6, by rw [hb6]; exact (hw.enter true).uncaptured⟩
  refine (loopBody_means hx hb hw6 (by rw [ht6]; exact hp6.restart)).bind ?_
  rintro - g7 ⟨ha7, hs7, h7⟩
  refine closes_numeric ops start.line h5 he hi h6 h7 (by omega) fun g8 ha8 hb8 h8 => ?_
  have hbr6 : g6.breaks = g.breaks := h6.breaks.trans hb5
  have hloop : ∀ T, (g.entered true).Walks f
      (aim (g8.breaksFrom g.breaks.size) T ++ []) 255 .plain g7.firstFree g8
      _ := fun T => by
    rw [breaksFrom_congr (congrArg _ hb8), ← hbr6, List.append_nil]
    exact h8 T
  refine (walks_leaveLoop ops hw hloop (by simp) (by omega)).mono ?_
  rintro - g9 ⟨ha9, hb9, h9⟩
  refine ⟨g.active.size, fun T => ?_, hw.names_of_passes h9.toPasses ha9⟩
  rw [hb9, ha9]
  refine h9.mono ?_
  rintro ⟨hen, hl⟩
  rw [hw.size] at hl
  obtain ⟨_, hlo, -, head, hc⟩ := hl.exists
  have hbo := (hl.acts fun _ hT => hT.2.1).after hc.back
  exact (Rounds.numericLoop hlo hc.starts (.of_counting (he.lastNil? (by simp [hi.op]))
    hc.next (fun ρ hv => (hc.last ρ hv).trans (hl.falls ρ)) hbo)).before hen.here

end NumericFor

end Gen

end

end LuaBytecode
