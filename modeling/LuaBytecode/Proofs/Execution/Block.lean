import LuaBytecode.Proofs.Execution.Expression
import LuaBytecode.Proofs.Generator.Statement
import LuaBytecode.Proofs.Trace.Step

namespace LuaBytecode

open Gen Generator

variable {ρ ρ' : Regs} {bs : Array PendingBreak} {s : Gen Unit} {P : Nat → Prop} {b : Block}
  {o : Aims}

section

lemma Env.leave_leave {env : Env} {a b : Nat} (h : b ≤ a) :
    (env.leave a).leave b = env.leave b := by
  simp only [Env.leave, List.length_drop, List.drop_drop]
  congr 1
  omega

lemma Regs.env_eq_leave {names new : Names} {env : Env}
    (h : ρ.env (new ++ names) = env) : ρ.env names = env.leave names.reduceOption.length := by
  rw [← h, Regs.leave_env rfl]

lemma length_reduceOption_le (names new : Names) :
    names.reduceOption.length ≤ (new ++ names).reduceOption.length := by
  rw [List.reduceOption_append, List.length_append]
  exact Nat.le_add_left _ _

lemma agrees_env {names : Names} (h : ρ.Agrees none names.length ρ') : ρ'.env names = ρ.env names :=
  h.env .refl (by simp)

lemma agrees_keepsHidden {names : Names} (h : ρ.Agrees none names.length ρ') :
    ρ.KeepsHidden ρ' names :=
  Regs.keepsHidden_of_lt fun _ hk => h.eq hk

abbrev Place := Regs → Machine → Prop

abbrev Place.here (ops : Operators) (f : Prototype) (d : Draft) : Place :=
  fun ρ m => m.Arrives ops f d ρ

abbrev Place.target (ops : Operators) (f : Prototype) (T : Nat) : Place :=
  fun ρ m => m.Moves ops f ⟨T, ρ⟩

open Place

structure Acts (ops : Operators) (f : Prototype) (B : Behavior) (names new : Names)
    (P N K : Place) : Prop where
  normal : ∀ ρ env, B (ρ.env names) env .normal → ∃ ρ' : Regs,
    ρ'.env (new ++ names) = env ∧ ρ.KeepsHidden ρ' names ∧ ∀ m, P ρ m → N ρ' m
  broke : ∀ ρ env, B (ρ.env names) env .broke → ∃ ρ' : Regs,
    ρ'.env names = env.leave names.reduceOption.length ∧ ρ.KeepsHidden ρ' names ∧
      ∀ m, P ρ m → K ρ' m
  returned : ∀ ρ env (values : List Value),
    B (ρ.env names) env (.returned values) → ∀ m, P ρ m → m.Returns ops f values
  ends : ∀ ρ m, P ρ m → m.Terminates ops f → ∃ env out, B (ρ.env names) env out

section Acts

variable {ops : Operators} {f : Prototype} {B B' : Behavior} {names new new' : Names}
  {P P' N N' K K' : Place} {T : Nat} {d d' : Draft}

lemma Acts.before (h : Acts ops f B names new P N K) (hP : ∀ ρ m, P' ρ m → P ρ m) :
    Acts ops f B names new P' N K where
  normal ρ env hB := by
    obtain ⟨ρ', he, hk, hN⟩ := h.normal ρ env hB
    exact ⟨ρ', he, hk, fun m hm => hN m (hP ρ m hm)⟩
  broke ρ env hB := by
    obtain ⟨ρ', he, hk, hK⟩ := h.broke ρ env hB
    exact ⟨ρ', he, hk, fun m hm => hK m (hP ρ m hm)⟩
  returned ρ env values hB m hm := h.returned ρ env values hB m (hP ρ m hm)
  ends ρ m hm := h.ends ρ m (hP ρ m hm)

lemma Acts.after (h : Acts ops f B names new P N K) (hN : ∀ ρ m, N ρ m → N' ρ m) :
    Acts ops f B names new P N' K :=
  { h with
    normal := fun ρ env hB => by
      obtain ⟨ρ', he, hk, hm⟩ := h.normal ρ env hB
      exact ⟨ρ', he, hk, fun m hP => hN ρ' m (hm m hP)⟩ }

lemma Acts.leaving (h : Acts ops f B names new P N K) (hK : ∀ ρ m, K ρ m → K' ρ m) :
    Acts ops f B names new P N K' :=
  { h with
    broke := fun ρ env hB => by
      obtain ⟨ρ', he, hk, hm⟩ := h.broke ρ env hB
      exact ⟨ρ', he, hk, fun m hP => hK ρ' m (hm m hP)⟩ }

lemma acts_of_forall (h : ∀ T, Acts ops f B names new P N (target ops f T)) :
    Acts ops f B names new P N K :=
  { h 0 with
    broke := fun ρ env hB => by
      obtain ⟨ρ', he, hk, -⟩ := (h 0).broke ρ env hB
      refine ⟨ρ', he, hk, fun m hm => ?_⟩
      have hmo : ∀ T, ∃ ρ', m.Moves ops f ⟨T, ρ'⟩ := by
        intro T
        obtain ⟨ρ', -, -, hmo⟩ := (h T).broke ρ env hB
        exact ⟨ρ', hmo m hm⟩
      exact (Machine.not_moves_everywhere hmo).elim }

lemma acts_becomes : Acts ops f (.becomes id) names [] P P K where
  normal ρ env hB := ⟨ρ, hB.1.symm, .refl, fun _ hm => hm⟩
  broke _ _ hB := absurd hB.2 (by simp)
  returned _ _ _ hB := absurd hB.2 (by simp)
  ends ρ _ _ _ := ⟨ρ.env names, .normal, rfl, rfl⟩

lemma acts_breaks : Acts ops f .breaks names [] P N P where
  normal _ _ hB := absurd hB.2 (by simp)
  broke ρ env hB := ⟨ρ, by rw [hB.1, Regs.leave_env_self], .refl, fun _ hm => hm⟩
  returned _ _ _ hB := absurd hB.2 (by simp)
  ends ρ _ _ _ := ⟨ρ.env names, .broke, rfl, rfl⟩

lemma Acts.seq (h : Acts ops f B names new P N K) (h' : Acts ops f B' (new ++ names) new' N N' K) :
    Acts ops f (.seq B B') names (new' ++ new) P N' K where
  normal ρ env hB := by
    rcases hB with ⟨env1, hB1, hB2⟩ | ⟨hne, -⟩
    · obtain ⟨ρ1, rfl, hk1, hN1⟩ := h.normal ρ env1 hB1
      obtain ⟨ρ2, he2, hk2, hN2⟩ := h'.normal ρ1 env hB2
      rw [← List.append_assoc] at he2
      exact ⟨ρ2, he2, hk1.trans hk2.outer, fun m hm => hN2 m (hN1 m hm)⟩
    · exact absurd rfl hne
  broke ρ env hB := by
    rcases hB with ⟨env1, hB1, hB2⟩ | ⟨-, hB1⟩
    · obtain ⟨ρ1, rfl, hk1, hN1⟩ := h.normal ρ env1 hB1
      obtain ⟨ρ2, he2, hk2, hK2⟩ := h'.broke ρ1 env hB2
      refine ⟨ρ2, ?_, hk1.trans hk2.outer, fun m hm => hK2 m (hN1 m hm)⟩
      rw [Regs.env_eq_leave he2, Env.leave_leave (length_reduceOption_le names new)]
    · exact h.broke ρ env hB1
  returned ρ env values hB m hm := by
    rcases hB with ⟨env1, hB1, hB2⟩ | ⟨-, hB1⟩
    · obtain ⟨ρ1, rfl, -, hN1⟩ := h.normal ρ env1 hB1
      exact h'.returned ρ1 env values hB2 m (hN1 m hm)
    · exact h.returned ρ env values hB1 m hm
  ends ρ m hm ht := by
    obtain ⟨env1, out, hB1⟩ := h.ends ρ m hm ht
    by_cases ho : out = .normal
    · subst ho
      obtain ⟨ρ1, rfl, -, hN1⟩ := h.normal ρ env1 hB1
      obtain ⟨env2, out2, hB2⟩ := h'.ends ρ1 m (hN1 m hm) ht
      exact ⟨env2, out2, .inl ⟨_, hB1, hB2⟩⟩
    · exact ⟨env1, out, .inr ⟨ho, hB1⟩⟩

lemma Acts.block (h : Acts ops f B names new P N K) : Acts ops f (.block B) names [] P N K where
  normal ρ env hB := by
    obtain ⟨inner, hB, rfl⟩ := hB
    obtain ⟨ρ', he, hk, hm⟩ := h.normal ρ inner hB
    refine ⟨ρ', ?_, hk, hm⟩
    rw [List.nil_append, Regs.env_eq_leave he, Regs.length_env]
  broke ρ env hB := by
    obtain ⟨inner, hB, rfl⟩ := hB
    obtain ⟨ρ', he, hk, hm⟩ := h.broke ρ inner hB
    refine ⟨ρ', ?_, hk, hm⟩
    rw [he, Regs.length_env, Env.leave_leave .refl]
  returned ρ env values hB := by
    obtain ⟨inner, hB, -⟩ := hB
    exact h.returned ρ inner values hB
  ends ρ m hm ht := by
    obtain ⟨inner, out, hB⟩ := h.ends ρ m hm ht
    exact ⟨_, out, inner, hB, rfl⟩

lemma acts_of_agrees (h : ∀ ρ : Regs, ∃ ρ1 B1 Q, ρ.Agrees none names.length ρ1 ∧
      (∀ m, P ρ m → Q ρ1 m) ∧ Acts ops f B1 names new Q N K ∧
      B (ρ.env names) = B1 (ρ1.env names)) : Acts ops f B names new P N K where
  normal ρ env hB := by
    obtain ⟨ρ1, B1, Q, ha, hQ, h1, heq⟩ := h ρ
    rw [heq] at hB
    obtain ⟨ρ', he, hk, hN⟩ := h1.normal ρ1 env hB
    exact ⟨ρ', he, (agrees_keepsHidden ha).trans hk, fun m hm => hN m (hQ m hm)⟩
  broke ρ env hB := by
    obtain ⟨ρ1, B1, Q, ha, hQ, h1, heq⟩ := h ρ
    rw [heq] at hB
    obtain ⟨ρ', he, hk, hK⟩ := h1.broke ρ1 env hB
    exact ⟨ρ', he, (agrees_keepsHidden ha).trans hk, fun m hm => hK m (hQ m hm)⟩
  returned ρ env values hB m hm := by
    obtain ⟨ρ1, B1, Q, -, hQ, h1, heq⟩ := h ρ
    rw [heq] at hB
    exact h1.returned ρ1 env values hB m (hQ m hm)
  ends ρ m hm ht := by
    obtain ⟨ρ1, B1, Q, -, hQ, h1, heq⟩ := h ρ
    rw [heq]
    exact h1.ends ρ1 m (hQ m hm) ht

lemma Draft.Branches.acts {c : Env → Bool} {b : Bool} {S : Nat}
    (h : d.Branches ops f (fun ρ => c (ρ.env names) == b) (Regs.Agrees none names.length) S d')
    (hj : Acts ops f (bif b then B else B') names new (target ops f S) N K)
    (hfa : Acts ops f (bif b then B' else B) names new (here ops f d') N K) :
    Acts ops f (.branch c B B') names new (here ops f d) N K := by
  refine acts_of_agrees fun ρ => ?_
  obtain ⟨ρ1, ha, hf⟩ := h ρ
  by_cases hc : c (ρ.env names) = b
  · refine ⟨ρ1, _, _, ha, fun m hm => hm.moves (hf.jumps (by simp [hc])), hj, ?_⟩
    cases b <;> simp [Behavior.branch, hc, agrees_env ha]
  · refine ⟨ρ1, _, _, ha, fun m hm => hm.trans (hf.falls (by simp [hc])), hfa, ?_⟩
    cases b <;> simp_all [Behavior.branch, agrees_env ha]

end Acts

namespace Draft

variable {ops : Operators} {f : Prototype} {B : Behavior} {names new : Names}
  {T : Nat} {d d' : Draft}

abbrev Behaves (ops : Operators) (f : Prototype) (B : Behavior) (names new : Names)
    (T : Nat) (d d' : Draft) : Prop :=
  Acts ops f B names new (here ops f d) (here ops f d') (target ops f T)

lemma Computes.behaves {next : Env → Env} (h : d.Computes ops f (fun ρ ρ' =>
      ρ'.env (new ++ names) = next (ρ.env names) ∧ ρ.KeepsHidden ρ' names) d') :
    d.Behaves ops f (.becomes next) names new T d' where
  normal ρ env hB := by
    obtain ⟨ρ', hg, he, hk⟩ := h ρ
    exact ⟨ρ', he.trans hB.1.symm, hk, fun m hm => hm.trans hg⟩
  broke _ _ hB := absurd hB.2 (by simp)
  returned _ _ _ hB := absurd hB.2 (by simp)
  ends ρ _ _ _ := ⟨next (ρ.env names), .normal, rfl, rfl⟩

lemma Idles.here (h : d.Idles ops f d') (ρ : Regs) (m : Machine)
    (hm : m.Arrives ops f d ρ) : m.Arrives ops f d' ρ := hm.trans (h ρ)

end Draft

end

namespace Draft

variable {ops : Operators} {f : Prototype} {d d' d'' : Draft} {n : Nat}

def breaksFrom (d : Draft) (n : Nat) : List Nat := (d.breaks.toList.drop n).flatMap (·.jumps)

lemma breaksFrom_congr (h : d'.breaks.map (·.jumps) = d.breaks.map (·.jumps)) :
    d'.breaksFrom n = d.breaksFrom n := by
  have hl : d'.breaks.toList.map (·.jumps) = d.breaks.toList.map (·.jumps) := by
    simpa using congrArg Array.toList h
  simp only [breaksFrom, List.flatMap_def, List.map_drop, hl]

lemma breaksFrom_of_eq (h : d.breaks = bs) : d.breaksFrom bs.size = [] := by
  rw [breaksFrom, h, List.drop_eq_nil_of_le (by simp)]
  rfl

lemma breaksFrom_of_append {more : Array PendingBreak} (h : d.breaks = bs ++ more) :
    d.breaksFrom bs.size = more.toList.flatMap (·.jumps) := by
  simp [breaksFrom, h]

lemma breaksFrom_trans (h : ∃ more, d'.breaks = d.breaks ++ more)
    (h' : ∃ more, d''.breaks = d'.breaks ++ more) :
    d''.breaksFrom d.breaks.size =
      d'.breaksFrom d.breaks.size ++ d''.breaksFrom d'.breaks.size := by
  obtain ⟨more, h⟩ := h
  obtain ⟨more', h'⟩ := h'
  rw [breaksFrom_of_append h, breaksFrom_of_append h',
    breaksFrom_of_append (h'.trans (by rw [h, Array.append_assoc]))]
  simp

def Still (d d' : Draft) : Prop := ∃ vars blocks breaks active top released, d' = { d with
    localVariables := vars, blocks := blocks, breaks := breaks, active := active
    firstFree := top, released := released }

lemma Still.traces (ops : Operators) (f : Prototype) (h : d.Still d') :
    d.Traces f [] d' (d.Idles ops f d') := by
  obtain ⟨vars, blocks, breaks, active, top, released, rfl⟩ := h
  refine ⟨{ Frame.refl d with }, .nil, fun H _ hs _ => ?_⟩
  exact ⟨⟨hs.nil.code, hs.jumps, hs.constants, hs.lands⟩, goes_congr rfl rfl⟩

lemma Still.symm (h : d.Still d') : d'.Still d := by
  obtain ⟨vars, blocks, breaks, active, top, released, rfl⟩ := h
  exact ⟨d.localVariables, d.blocks, d.breaks, d.active, d.firstFree, d.released, rfl⟩

lemma Still.code (h : d.Still d') : d'.code = d.code := by
  obtain ⟨vars, blocks, breaks, active, top, released, rfl⟩ := h
  rfl

lemma Still.bounds (h : d.Still d') : d'.bounds = d.bounds := by
  obtain ⟨vars, blocks, breaks, active, top, released, rfl⟩ := h
  rfl

lemma still_enterBlock (isLoop : Bool) : d.Still (d.enterBlock isLoop) := ⟨_, _, _, _, _, _, rfl⟩

lemma Declared.still {ns : List Bytes} (h : Declared ns d d') : d.Still d' := by
  rw [h.eq]
  exact ⟨_, _, _, _, _, _, rfl⟩

end Draft

namespace Generator

open Draft

variable {ops : Operators} {f : Prototype} {g g1 g2 : Generator} {o' : Aims} {l l' : Link}
  {m m' r r' : Nat} {P Q : Prop} {B : Behavior} {names new : Names}

structure Walks (f : Prototype) (o : Aims) (m : Nat) (l : Link) (r : Nat) (g g' : Generator)
    (P : Prop) : Prop extends g.Passes m l r g' where
  blocks : g'.blocks = g.blocks
  holds : Holds g.active.size g.toDraft g'.toDraft o.places
  traces : g.Traces f o g'.toDraft P

section

variable (h : g.Walks f o m l r g1 P)
include h

lemma Walks.mono (hPQ : P → Q) : g.Walks f o m l r g1 Q :=
  { h with traces := h.traces.mono hPQ }

lemma Walks.reorder (ho : ∀ p, p ∈ o' ↔ p ∈ o) :
    g.Walks f o' m l r g1 P := by
  have hp : ∀ pc, pc ∈ o'.places → pc ∈ o.places := by simp [Aims.places, ho]
  refine { h with holds := ⟨fun pc hpc => ?_, fun pc hpc => ?_, fun pc hpc => ?_⟩
                  traces := h.traces.reorder ho }
  · exact h.holds.closable pc (hp pc hpc)
  · exact h.holds.loose pc (hp pc hpc)
  · exact h.holds.apart pc (hp pc hpc)

lemma Walks.bind (h' : g1.Walks f o' m' l' r' g2 Q) : g.Walks f (o ++ o') m' l' r' g2 (P ∧ Q) where
  toPasses := h.toPasses.trans h'.toPasses
  blocks := h'.blocks.trans h.blocks
  holds := by
    rw [places_append]
    exact (h.holds.frame h'.frame h.level_le).append ((h'.holds.mono h.level_le).since h.frame)
  traces := h.traces.bind h'.traces

lemma Walks.step (h' : g1.Evaluates f o' m' l' r' g2 Q)
    (hm : g.active.size ≤ m') : g.Walks f (o ++ o') m' l' r' g2 (P ∧ Q) where
  toPasses := h.toPasses.step h'.toReaches
  blocks := h'.blocks.trans h.blocks
  holds := by
    have hl := h'.ready.level
    rw [places_append]
    exact (h.holds.frame h'.frame (by omega)).append
      ((h'.holds.mono hm).since h.frame)
  traces := h.traces.bind h'.traces

end

lemma Walks.still (ops : Operators) (h : g.Walks f o m l r g1 P) (hs : g1.Still g2.toDraft)
    (hp : g.Passes m' l' r' g2) (hb : g2.blocks = g1.blocks) :
    g.Walks f o m' l' r' g2 (P ∧ g1.toDraft.Idles ops f g2.toDraft) := by
  refine ⟨hp, hb.trans h.blocks, ?_, ?_⟩
  · obtain ⟨_, _, _, _, _, _, heq⟩ := hs
    rw [heq]
    exact ⟨h.holds.closable, h.holds.loose, h.holds.apart⟩
  · have ht := h.traces.bind (hs.traces ops f)
    rwa [List.append_nil] at ht

structure Waits (names : Names) (g : Generator) : Prop where
  rests : g.Rests g
  names : g.names = names
  uncaptured : ∀ b ∈ g.blocks, b.isCaptured = false

lemma Waits.stands (h : g.Waits names) : g.Stands g.active.size names .plain g.active.size :=
  ⟨h.rests.ready, h.rests.top, h.names⟩

lemma Waits.size (h : g.Waits names) : g.active.size = names.length := by
  rw [← h.names, length_names]

lemma Waits.walks (h : g.Waits names) (h' : g.Evaluates f o m l r g1 P)
    (hm : g.active.size ≤ m) : g.Walks f o m l r g1 P :=
  ⟨Passes.step h.rests h'.toReaches, h'.blocks, h'.holds.mono hm, h'.traces⟩

lemma Waits.evaluates (h : g.Waits names)
    (h' : g.Evaluates f o g.active.size .plain g.active.size g1 P) :
    g1.Waits names := by
  have ha := h'.active
  refine ⟨?_, h'.names.trans h.names, by rw [h'.blocks]; exact h.uncaptured⟩
  unfold Rests
  rw [ha]
  exact ⟨.refl (Passes.step h.rests h'.toReaches).inBlock', h'.ready, h'.top⟩

lemma Walks.waits {names' : Names} (h : g.Walks f o m .plain r g1 P)
    (hw : g.Waits names) (hm : g1.active.size ≤ m) (hr : g1.active.size = r)
    (hn : g1.names = names') : g1.Waits names' :=
  ⟨(h.rests hm hr).restart, hn, by rw [h.blocks]; exact hw.uncaptured⟩

structure Executes (ops : Operators) (f : Prototype) (B : Behavior)
    (names new : Names) (m : Nat) (l : Link) (r : Nat) (g g' : Generator) :
    Prop where
  walks : ∀ T, g.Walks f (aim (g'.breaksFrom g.breaks.size) T) m l r g'
    (g.Behaves ops f B names new T g'.toDraft)
  names : g'.names = new ++ names

lemma Executes.passes (h : g.Executes ops f B names new m l r g1) : g.Passes m l r g1 :=
  (h.walks 0).toPasses

lemma Executes.breaks (h : g.Executes ops f B names new m l r g1) :
    ∃ more, g1.breaks = g.breaks ++ more := by
  obtain ⟨more, heq, -⟩ := h.passes.breaks
  exact ⟨more, heq⟩

lemma Executes.waits (h : g.Executes ops f B names new g1.active.size .plain
    g1.active.size g1) (hw : g.Waits names) : g1.Waits (new ++ names) :=
  (h.walks 0).waits hw .refl rfl h.names

lemma Executes.active (h : g.Executes ops f B names [] m l r g1) (hw : g.Waits names) :
    g1.active = g.active := by
  obtain ⟨more, hm⟩ := h.passes.active
  have hs := congrArg List.length h.names
  rw [length_names, List.nil_append, ← hw.size, hm, Array.size_append] at hs
  have he : more = #[] := Array.eq_empty_of_size_eq_zero (by omega)
  rw [hm, he, Array.append_empty]

lemma Executes.before (h' : g1.Executes ops f B names new m' l' r' g2) (hw : g.Waits names)
    (h : g.Idles ops f m l r g1)
    (hm : g.active.size ≤ m) : g.Executes ops f B names new m' l' r' g2 := by
  refine ⟨fun T => ?_, h'.names⟩
  rw [← h.breaks]
  exact ((hw.walks h hm).bind (h'.walks T)).mono fun hP => hP.2.before hP.1.here

lemma Executes.after (h : g.Executes ops f B names new m l r g1) (h' : g1.Idles ops f m' l' r' g2)
    (hm : g.active.size ≤ m') : g.Executes ops f B names new m' l' r' g2 := by
  refine ⟨fun T => ?_, h'.names.trans h.names⟩
  rw [breaksFrom_congr (congrArg _ h'.breaks)]
  have hw := (h.walks T).step h' hm
  rw [List.append_nil] at hw
  exact hw.mono fun hP => hP.1.after hP.2.here

lemma Waits.executes (hw : g.Waits names) (h : g.Evaluates f [] m l r g1 P) (hm : g.active.size ≤ m)
    (hP : P → ∀ T, g.Behaves ops f B names [] T g1.toDraft) :
    g.Executes ops f B names [] m l r g1 := by
  refine ⟨fun T => ?_, h.names.trans hw.names⟩
  rw [breaksFrom_of_eq h.breaks]
  exact (hw.walks h hm).mono fun h => hP h T

end Generator

namespace Gen

open Draft

variable (ops : Operators) (f : Prototype) (B : Behavior) (names new : Names)

def StatementMeans (s : Gen Unit) : Prop :=
  ∀ ⦃g : Generator⦄, g.Waits names → Meets True g s fun _ g' => ∃ r,
    g.Executes ops f B names new g'.active.size .plain r g'

def BodyMeans (body : Gen Unit) : Prop :=
  ∀ ⦃g : Generator⦄, g.Waits names → Meets True g body fun _ g' =>
    g.Executes ops f B names new g'.active.size .plain g'.active.size g'

variable {ops f B names new} {B' : Behavior} {new' : Names} {g : Generator}

lemma BodyMeans.statement (h : BodyMeans ops f B names new s) :
    StatementMeans ops f B names new s := fun _ hw => (h hw).mono fun _ _ h' => ⟨_, h'⟩

lemma statement_means (start : Position) (hs : StatementMeans ops f B names new s) :
    BodyMeans ops f B names new (statement start s) := by
  intro g hw
  refine (evaluates_setPos ops f hw.stands start).bind fun _ g1 h1 => ?_
  refine (hs (hw.evaluates h1)).bind ?_
  rintro - g2 ⟨r, h2⟩
  have hr := h2.passes.ready
  have hc : (decide (g2.firstFree ≤ g2.maxStackSize) &&
      decide (g2.active.size ≤ g2.firstFree)) = true := by
    simp [hr.sound.top, hr.top]
  refine meets_read ?_
  simp only [hc, Bool.not_true, Bool.false_eq_true, if_false]
  have hs2 : g2.Stands g2.active.size (new ++ names) .plain r := ⟨hr, h2.passes.top, h2.names⟩
  have hle : g.active.size ≤ g2.active.size :=
    Nat.le_trans (Nat.le_of_eq (by rw [h1.active])) h2.passes.level_le
  have hl : Meets True g2 (setFirstFree g2.active.size) fun _ g' =>
      g.Executes ops f B names new g'.active.size .plain g'.active.size g' := by
    refine (evaluates_setFirstFree ops f hs2 (Nat.le_of_eq hs2.active.symm) ?_).mono
      fun _ g3 h3 => ?_
    · exact Nat.le_trans hr.top hr.sound.top
    · rw [h3.active]
      exact (h2.before hw h1 .refl).after h3 hle
  exact meets_update hl

lemma bodyMeans_nil : BodyMeans ops f (.becomes id) names [] (pure ()) := by
  intro g hw
  have hs : g.Evaluates f [] g.active.size .plain g.active.size g True :=
    hw.stands.evaluates trivial
  refine meets_pure (hw.executes hs .refl fun _ T => ?_)
  exact Computes.behaves fun ρ => ⟨ρ, fun m hm => .falls .refl hm, rfl, .refl⟩

lemma BodyMeans.cons {rest : Gen Unit} (hs : BodyMeans ops f B names new s)
    (hr : BodyMeans ops f B' (new ++ names) new' rest) :
    BodyMeans ops f (.seq B B') names (new' ++ new) (do s; rest) := by
  intro g hw
  refine (hs hw).bind fun _ g1 h1 => (hr (h1.waits hw)).mono fun _ g2 h2 => ?_
  refine ⟨fun T => ?_, by rw [h2.names, List.append_assoc]⟩
  rw [breaksFrom_trans h1.breaks h2.breaks, aim_append]
  exact ((h1.walks T).bind (h2.walks T)).mono fun hP => hP.1.seq hP.2

end Gen

namespace Draft

variable {ops : Operators} {f : Prototype} {d d' d'' : Draft} {n : Nat}

lemma Still.trans (h : d.Still d') (h' : d'.Still d'') : d.Still d'' := by
  obtain ⟨_, _, _, _, _, _, rfl⟩ := h
  obtain ⟨_, _, _, _, _, _, rfl⟩ := h'
  exact ⟨_, _, _, _, _, _, rfl⟩

lemma Left.still (h : d.Left b outer d') (hc : b.isCaptured = false) :
    ∃ d1, (if b.isLoop then d.patchBreaks b.firstBreak = .ok d1 else d1 = d) ∧ d1.Still d' ∧
      d'.blocks = outer ∧ d'.breaks.map (·.jumps) = d1.breaks.map (·.jumps) := by
  obtain ⟨d0, d1, d2, hs, hl, hu, hb⟩ := h
  have hd : d0 = d := by simpa [ScopeClosed, hc] using hs
  subst hd
  refine ⟨d1, hl, ?_⟩
  obtain ⟨-, -, rfl⟩ := undeclare_ok hu
  split at hb
  · subst hb
    exact ⟨⟨_, _, _, _, _, _, rfl⟩, rfl, rfl⟩
  · obtain ⟨l, code, breaks, hcl, rfl⟩ := closeBreaks_ok hb
    have hr := hcl.code
    rw [hcl.kept hc] at hr
    obtain rfl : code = d1.code := Array.ext_getElem? fun pc => hr.kept pc (by simp)
    refine ⟨⟨_, _, _, _, _, _, rfl⟩, rfl, Array.ext_getElem? fun i => ?_⟩
    rw [Array.getElem?_map, Array.getElem?_map, hcl.breaks]
    split <;> simp [PendingBreak.lower, setFirstFree, Function.comp_def]

lemma patchBreaks_still {more : Array PendingBreak} (h : d.breaks = bs ++ more) :
    ∃ d', d.patchBreaks bs.size = .ok d' ∧ d'.breaks = bs ∧
      ((d.breaksFrom bs.size = [] ∧ d.Still d') ∨
        (d.patchToHere (d.breaksFrom bs.size)).Still d') := by
  refine ⟨_, patchBreaks_eq_ok more.toList h, rfl, ?_⟩
  rw [breaksFrom_of_append h]
  by_cases hn : more.toList = []
  · simp only [hn, if_true, List.flatMap_nil, List.append_nil]
    exact .inl ⟨trivial, _, _, _, _, _, _, rfl⟩
  · simp only [hn, if_false]
    exact .inr ⟨_, _, _, _, _, _, rfl⟩

lemma Traces.forall (h : ∀ T, d.Traces f o d' (P T)) : d.Traces f o d' (∀ T, P T) :=
  ⟨(h 0).frame, (h 0).opens, fun H hH hs ht => ⟨((h 0).simulates H hH hs ht).1,
    fun T => ((h T).simulates H hH hs ht).2⟩⟩

structure Leaves (ops : Operators) (f : Prototype) (P : Nat → Prop) (d d' : Draft) : Prop where
  falls : d.Idles ops f d'
  breaks : (∃ T, P T ∧ ∀ (ρ : Regs) (m : Machine), m.Moves ops f ⟨T, ρ⟩ →
    m.Arrives ops f d' ρ) ∨ ∀ T, P T

lemma Leaves.after (h : Leaves ops f P d d') (hi : d'.Idles ops f d'') : Leaves ops f P d d'' := by
  refine ⟨h.falls.trans hi, h.breaks.imp_left ?_⟩
  rintro ⟨T, hT, ha⟩
  exact ⟨T, hT, fun ρ m hm => (ha ρ m hm).trans (hi ρ)⟩

end Draft

namespace Generator

variable {g g' : Generator} {names : Names} {m r : Nat} {l : Link}

lemma Waits.enter (h : g.Waits names) (isLoop : Bool) : (g.entered isLoop).Waits names := by
  have hn : (g.entered isLoop).names = g.names := Draft.names_congr rfl rfl
  exact ⟨Passes.enter h.rests isLoop, hn.trans h.names,
    List.forall_mem_cons.mpr ⟨rfl, h.uncaptured⟩⟩

lemma Waits.names_of_passes (h : g.Waits names) (hp : g.Passes m l r g')
    (ha : g'.active = g.active) : g'.names = names := by
  rw [← h.names, Draft.names, ha]
  exact Draft.namesBelow_congr hp.active hp.names h.rests.ready.sound.slots .refl

end Generator

namespace Gen

open Draft

variable {ops : Operators} {f : Prototype} {g g0 : Generator} {m r : Nat} {l : Link}
  {outer : List Block}

lemma Meets.forall {α ι : Type} {x : Gen α} {Q : ι → α → Generator → Prop}
    (h : ∀ i, Meets True g x (Q i)) : Meets True g x fun a g' => ∀ i, Q i a g' := by
  cases hx : x g with
  | ok r => simpa [Meets, hx] using h
  | error e => cases e <;> simp [Meets, hx]

lemma walks_leaveBlock {P : Prop} {names : Names} (ops : Operators)
    (hw : g.Waits names) (h : (g.entered false).Walks f o m .plain r g0 P)
    (hm : g.active.size ≤ m) :
    Meets True g0 leaveBlock fun _ g' => g'.active = g.active ∧
      (∀ n, g'.breaksFrom n = g0.breaksFrom n) ∧
      g0.Still g'.toDraft ∧
      g.Walks f o g.active.size .plain g.active.size g'
        ((g.toDraft.Idles ops f (g.entered false).toDraft ∧ P) ∧
          g0.toDraft.Idles ops f g'.toDraft) := by
  have hb : g0.blocks = ⟨g.breaks.size, g.active.size, false, false⟩ :: g.blocks := h.blocks
  refine ((meets_leaveBlock hw.rests.inBlock h.toPasses hm).and (meets_leaveBlock_of hb)).mono ?_
  rintro - g' ⟨⟨hp, ha, -⟩, -, hle⟩
  obtain ⟨_, rfl, hs, hb, hma⟩ := hle.still rfl
  refine ⟨ha, fun n => breaksFrom_congr hma, hs, hp, hb, ?_, ?_⟩
  · obtain ⟨_, _, _, _, _, _, heq⟩ := hs
    rw [heq]
    exact ⟨h.holds.closable, h.holds.loose, h.holds.apart⟩
  · have ht := (((still_enterBlock false).traces ops f).bind h.traces).bind (hs.traces ops f)
    rwa [List.append_nil] at ht

lemma walks_leaveLoop {names : Names} (ops : Operators) (hw : g.Waits names)
    (h : ∀ T, (g.entered true).Walks f
      (aim (g0.breaksFrom g.breaks.size) T ++ o) m .plain r g0 (P T))
    (hd : ∀ pc ∈ g0.breaksFrom g.breaks.size, pc ∉ o.places) (hm : g.active.size ≤ m) :
    Meets True g0 leaveBlock fun _ g' => g'.active = g.active ∧ g'.breaksFrom g.breaks.size = [] ∧
      g.Walks f o g.active.size .plain g.active.size g'
        (g.toDraft.Idles ops f (g.entered true).toDraft ∧
          Leaves ops f P g0.toDraft g'.toDraft) := by
  obtain ⟨more, hmo, -⟩ := (h 0).breaks
  replace hmo : g0.breaks = g.breaks ++ more := hmo
  obtain ⟨d, hok, hbr, hp⟩ := patchBreaks_still hmo
  have hb : g0.blocks = ⟨g.breaks.size, g.active.size, false, true⟩ :: g.blocks := (h 0).blocks
  refine ((meets_leaveBlock hw.rests.inBlock (h 0).toPasses hm).and
    (meets_leaveBlock_of hb)).mono ?_
  rintro - g' ⟨⟨hpa, ha, -⟩, -, hle⟩
  obtain ⟨d', hok', hs, hbl, hma⟩ := hle.still rfl
  cases hok.symm.trans hok'
  have hh := (h 0).holds
  rw [places_append, holds_append] at hh
  have hl : Holds g.active.size (g.entered true).toDraft g'.toDraft o.places ∧
      (g.entered true).Traces f o g'.toDraft (Leaves ops f P g0.toDraft g'.toDraft) := by
    rcases hp with ⟨hn, hs0⟩ | hs0
    · have hb := hs0.trans hs
      have hal : (g.entered true).Traces f o g0.toDraft (∀ T, P T) := Traces.forall fun T => by
          have ht := (h T).traces
          rwa [hn] at ht
      have ht := hal.bind (hb.traces ops f)
      rw [List.append_nil] at ht
      refine ⟨?_, ht.mono fun hP => ⟨hP.2, .inr hP.1⟩⟩
      obtain ⟨_, _, _, _, _, _, heq⟩ := hb
      rw [heq]
      exact ⟨hh.2.closable, hh.2.loose, hh.2.apart⟩
    · have hb := hs0.trans hs
      have ht := (Traces.patchToHere ops (fun T => (h T).traces)
        (h 0).ready.settled.pends hd).bind (hb.traces ops f)
      rw [List.append_nil] at ht
      refine ⟨?_, ht.mono ?_⟩
      · have hk := hh.2.patchToHere hd
        obtain ⟨_, _, _, _, _, _, heq⟩ := hb
        rw [heq]
        exact ⟨hk.closable, hk.loose, hk.apart⟩
      · rintro ⟨⟨T, hP, hla⟩, hi⟩
        exact Leaves.after ⟨hla.falls, .inl ⟨T, hP, hla.jumps⟩⟩ hi
  refine ⟨ha, ?_, hpa, hbl, ?_, ?_⟩
  · rw [breaksFrom_congr hma, breaksFrom_of_eq hbr]
  · exact ⟨hl.1.closable, hl.1.loose, hl.1.apart⟩
  · exact ((still_enterBlock true).traces ops f).bind hl.2

lemma block_means {B : Behavior} {names new : Names} {body : Gen Unit}
    (hb : BodyMeans ops f B names new body) :
    BodyMeans ops f (.block B) names [] (block body) := by
  intro g hw
  refine meets_update_bind ((hb (hw.enter false)).bind fun _ g1 h1 => ?_)
  refine (Meets.forall fun T =>
    walks_leaveBlock ops hw (h1.walks T) h1.passes.level_le).mono fun _ g2 h2 => ?_
  obtain ⟨ha, hbr, -, hwa⟩ := h2 0
  refine ⟨fun T => ?_, hw.names_of_passes hwa.toPasses ha⟩
  rw [hbr, ha]
  exact (h2 T).2.2.2.mono fun hP => (hP.1.2.block.before hP.1.1.here).after hP.2.here

end Gen

end LuaBytecode
