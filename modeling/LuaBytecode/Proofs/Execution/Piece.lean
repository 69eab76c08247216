import LuaBytecode.Proofs.Execution.Machine
import LuaBytecode.Proofs.Execution.Primitive
import LuaBytecode.Proofs.Generator.Operand
import LuaBytecode.Proofs.Generator.Scope
import LuaBytecode.Proofs.Tree.Children
import Mathlib.Data.List.ReduceOption

namespace LuaBytecode

section

-- The names of the variables in the registers, the last one first; hidden variables have none.
abbrev Names := List (Option Bytes)

variable {x : Bytes} {n : Nat}

def slotOf (x : Bytes) : Names → Nat
  | [] => 0
  | y :: outer => if y = some x then outer.length else slotOf x outer

lemma slotOf_lt {names : Names} (h : some x ∈ names) : slotOf x names < names.length := by
  induction names with
  | nil => cases h
  | cons y outer ih =>
    rw [slotOf]
    split
    · exact Nat.lt_succ_self _
    · next hne => exact Nat.lt_succ_of_lt (ih ((List.mem_cons.mp h).resolve_left (Ne.symm hne)))

namespace Regs

variable {ρ ρ' ρ'' : Regs} {w : Value} {names new : Names}

def env (ρ : Regs) : Names → Env
  | [] => []
  | none :: outer => ρ.env outer
  | some x :: outer => (x, ρ outer.length) :: ρ.env outer

lemma env_congr (h : ∀ k < names.length, ρ' k = ρ k) : ρ'.env names = ρ.env names := by
  induction names with
  | nil => rfl
  | cons y outer ih =>
    have ho := ih fun k hk => h k (Nat.lt_succ_of_lt hk)
    cases y with
    | none => exact ho
    | some y => rw [env, env, ho, h _ (Nat.lt_succ_self _)]

lemma lookup_env (h : some x ∈ names) : (ρ.env names).lookup x = ρ (slotOf x names) := by
  induction names with
  | nil => cases h
  | cons y outer ih =>
    cases y with
    | none => simpa [env, slotOf] using ih (by simpa using h)
    | some y =>
      by_cases hxy : y = x
      · simp [env, slotOf, Env.lookup, hxy]
      · simpa [env, slotOf, Env.lookup, hxy] using ih (by simpa [Ne.symm hxy] using h)

lemma env_assign (h : some x ∈ names) (hw : ρ' (slotOf x names) = w)
    (hk : ∀ k < names.length, k ≠ slotOf x names → ρ' k = ρ k) :
    ρ'.env names = (ρ.env names).assign x w := by
  induction names with
  | nil => cases h
  | cons y outer ih =>
    by_cases hxy : y = some x
    · subst hxy
      rw [slotOf, if_pos rfl] at hw hk
      have ho : ρ'.env outer = ρ.env outer :=
        env_congr fun k hlt => hk k (Nat.lt_succ_of_lt hlt) (Nat.ne_of_lt hlt)
      simp [env, Env.assign, ho, hw]
    · have hm : some x ∈ outer := (List.mem_cons.mp h).resolve_left (Ne.symm hxy)
      rw [slotOf, if_neg hxy] at hw hk
      have ho := ih hm hw fun k hlt => hk k (Nat.lt_succ_of_lt hlt)
      cases y with
      | none => exact ho
      | some y =>
        have hy : y ≠ x := fun heq => hxy (by rw [heq])
        have hl := hk outer.length (Nat.lt_succ_self _) (Nat.ne_of_gt (slotOf_lt hm))
        simp [env, Env.assign, hy, ho, hl]

@[simp] lemma length_env : (ρ.env names).length = names.reduceOption.length := by
  induction names with
  | nil => rfl
  | cons y outer ih => cases y <;> simp [env, ih]

lemma env_suffix : ρ.env names <:+ ρ.env (new ++ names) := by
  induction new with
  | nil => exact List.suffix_refl _
  | cons y new ih =>
    cases y with
    | none => exact ih
    | some y => exact ih.trans (List.suffix_cons _ _)

lemma leave_env (h : n = names.reduceOption.length) :
    (ρ.env (new ++ names)).leave n = ρ.env names := by
  rw [h, ← length_env (ρ := ρ)]
  exact (List.suffix_iff_eq_drop.mp env_suffix).symm

lemma leave_env_self : (ρ.env names).leave names.reduceOption.length = ρ.env names :=
  show (ρ.env ([] ++ names)).leave _ = _ from leave_env rfl

def KeepsHidden (ρ ρ' : Regs) : Names → Prop
  | [] => True
  | none :: outer => ρ' outer.length = ρ outer.length ∧ KeepsHidden ρ ρ' outer
  | some _ :: outer => KeepsHidden ρ ρ' outer

lemma keepsHidden_of_lt (h : ∀ k < names.length, ρ' k = ρ k) : ρ.KeepsHidden ρ' names := by
  induction names with
  | nil => trivial
  | cons y outer ih =>
    have ho := ih fun k hk => h k (Nat.lt_succ_of_lt hk)
    cases y with
    | none => exact ⟨h _ (Nat.lt_succ_self _), ho⟩
    | some y => exact ho

lemma KeepsHidden.refl : ρ.KeepsHidden ρ names := keepsHidden_of_lt fun _ _ => rfl

lemma KeepsHidden.trans (h : ρ.KeepsHidden ρ' names) (h' : ρ'.KeepsHidden ρ'' names) :
    ρ.KeepsHidden ρ'' names := by
  induction names with
  | nil => trivial
  | cons y outer ih =>
    cases y with
    | none => exact ⟨h'.1.trans h.1, ih h.2 h'.2⟩
    | some y => exact ih h h'

lemma KeepsHidden.outer (h : ρ.KeepsHidden ρ' (new ++ names)) : ρ.KeepsHidden ρ' names := by
  induction new with
  | nil => exact h
  | cons y new ih =>
    cases y with
    | none => exact ih h.2
    | some y => exact ih h

lemma keepsHidden_of_ne (h : some x ∈ names)
    (hk : ∀ k < names.length, k ≠ slotOf x names → ρ' k = ρ k) : ρ.KeepsHidden ρ' names := by
  induction names with
  | nil => trivial
  | cons y outer ih =>
    by_cases hxy : y = some x
    · subst hxy
      rw [slotOf, if_pos rfl] at hk
      have ho : ρ.KeepsHidden ρ' outer :=
        keepsHidden_of_lt fun k hlt => hk k (Nat.lt_succ_of_lt hlt) (Nat.ne_of_lt hlt)
      exact ho
    · have hm : some x ∈ outer := (List.mem_cons.mp h).resolve_left (Ne.symm hxy)
      rw [slotOf, if_neg hxy] at hk
      have ho := ih hm fun k hlt => hk k (Nat.lt_succ_of_lt hlt)
      cases y with
      | none =>
        exact ⟨hk outer.length (Nat.lt_succ_self _) (Nat.ne_of_gt (slotOf_lt hm)), ho⟩
      | some y => exact ho

end Regs

namespace Draft

variable {d d' : Draft} {r : Nat}

def nameAt (d : Draft) (r : Nat) : Option Bytes := (d.variableAt r).map (·.name)

lemma nameAt_eq : d.nameAt r =
    (d.active[r]?).bind fun slot => (d.localVariables.map (·.name))[slot]? := by
  simp [nameAt, variableAt, Option.map_bind]

def namesBelow (d : Draft) : Nat → Names
  | 0 => []
  | n + 1 => (d.nameAt n).filter (!isHidden ·) :: d.namesBelow n

def names (d : Draft) : Names := d.namesBelow d.active.size

@[simp] lemma length_namesBelow : (d.namesBelow n).length = n := by
  induction n with
  | zero => rfl
  | succ n ih => rw [namesBelow, List.length_cons, ih]

@[simp] lemma length_names : d.names.length = d.active.size := length_namesBelow

lemma not_isHidden_of_mem (h : some x ∈ d.namesBelow n) : (!isHidden x) = true := by
  induction n with
  | zero => cases h
  | succ n ih =>
    rcases List.mem_cons.mp h with h | h
    · exact (Option.filter_eq_some_iff.mp h.symm).2
    · exact ih h

lemma lastNamed_eq (hs : ∀ slot ∈ d.active, slot < d.localVariables.size)
    (hn : n ≤ d.active.size) (hx : some x ∈ d.namesBelow n) :
    d.lastNamed x n = .ok (some (slotOf x (d.namesBelow n))) := by
  induction n with
  | zero => cases hx
  | succ n ih =>
    have hlt : d.active[n] < d.localVariables.size := hs _ (Array.getElem_mem _)
    have hv : d.variableAt n = some d.localVariables[d.active[n]] := by
      rw [variableAt, Array.getElem?_eq_getElem (by omega), Option.bind_some,
        Array.getElem?_eq_getElem hlt]
    have hna := not_isHidden_of_mem hx
    have hat : (d.nameAt n).filter (!isHidden ·) = some x ↔
        d.localVariables[d.active[n]].name = x := by
      rw [Option.filter_eq_some_iff, nameAt, hv, Option.map_some, Option.some.injEq]
      exact ⟨And.left, fun h => ⟨h, hna⟩⟩
    rw [lastNamed, hv, namesBelow, slotOf]
    by_cases heq : d.localVariables[d.active[n]].name = x
    · simp [hat.mpr heq, heq]
    · have hr : some x ∈ d.namesBelow n :=
        (List.mem_cons.mp hx).resolve_left fun h => heq (hat.mp h.symm)
      simpa [mt hat.mp heq, heq] using ih (by omega) hr

lemma Sound.register_eq (h : d.Sound) (hx : some x ∈ d.names) :
    d.register x = .ok (some (slotOf x d.names)) :=
  lastNamed_eq h.slots .refl hx

lemma names_congr (ha : d'.active = d.active) (hv : d'.localVariables = d.localVariables) :
    d'.names = d.names := by
  have hat : ∀ n, d'.namesBelow n = d.namesBelow n := by
    intro n
    induction n with
    | zero => rfl
    | succ n ih => rw [namesBelow, namesBelow, ih, nameAt_eq, nameAt_eq, ha, hv]
  rw [names, hat, ha]
  rfl

lemma namesBelow_congr (ha : ∃ more, d'.active = d.active ++ more)
    (hv : ∃ more, d'.localVariables.map (·.name) = d.localVariables.map (·.name) ++ more)
    (hs : ∀ slot ∈ d.active, slot < d.localVariables.size) (hn : n ≤ d.active.size) :
    d'.namesBelow n = d.namesBelow n := by
  obtain ⟨more, ha⟩ := ha
  obtain ⟨more', hv⟩ := hv
  induction n with
  | zero => rfl
  | succ n ih =>
    have hat : d'.nameAt n = d.nameAt n := by
      have hlt : d.active[n] < d.localVariables.size := hs _ (Array.getElem_mem _)
      rw [nameAt_eq, nameAt_eq, ha, hv, Array.getElem?_append_left hn,
        Array.getElem?_eq_getElem hn, Option.bind_some, Option.bind_some,
        Array.getElem?_append_left (by simpa using hlt)]
    rw [namesBelow, namesBelow, hat, ih (by omega)]

def shown (x : Bytes) : Option Bytes := (some x).filter (!isHidden ·)

lemma shown_eq_some (h : isHidden x = false) : shown x = some x := by
  simp [shown, h]

lemma Declared.names {ns : List Bytes} (h : Declared ns d d') (hs : d.Sound) :
    d'.names = (ns.map shown).reverse ++ d.names := by
  have hold : d'.namesBelow d.active.size = d.names :=
    namesBelow_congr ⟨_, h.active⟩ ⟨_, h.named⟩ hs.slots .refl
  have hn : ∀ k ≤ ns.length, d'.namesBelow (d.active.size + k) =
      ((ns.take k).map shown).reverse ++ d.names := by
    intro k hk
    induction k with
    | zero => simpa using hold
    | succ k ih =>
      have hat : d'.nameAt (d.active.size + k) = some ns[k] := by
        rw [nameAt_eq, h.active, h.named, Array.getElem?_append_right (Nat.le_add_right _ _),
          Nat.add_sub_cancel_left, List.getElem?_toArray, List.getElem?_range' hk,
          Option.bind_some, Array.getElem?_append_right (by simp)]
        simp [List.getElem?_eq_getElem hk]
      rw [← Nat.add_assoc, namesBelow, ih (by omega), hat, List.take_add_one,
        List.getElem?_eq_getElem hk, List.map_append, List.reverse_append]
      rfl
  have ha := hn ns.length .refl
  rw [List.take_length, ← h.size] at ha
  exact ha

end Draft

lemma Generator.Alters.names {S : Nat → Prop} {g g' : Generator} (h : g.Alters S g') :
    g'.names = g.names := Draft.names_congr h.active h.localVariables

end

namespace Regs

variable {ρ ρ' ρ'' : Regs} {kept : Option Nat} {r r' : Nat}

def Agrees (kept : Option Nat) (r : Nat) (ρ ρ' : Regs) : Prop := ∀ k < r, kept ≠ some k → ρ' k = ρ k

lemma Agrees.refl : Agrees kept r ρ ρ := fun _ _ _ => rfl

lemma Agrees.trans (h : Agrees kept r ρ ρ') (h' : Agrees kept r ρ' ρ'') :
    Agrees kept r ρ ρ'' := fun k hk hne => (h' k hk hne).trans (h k hk hne)

lemma Agrees.mono (h : Agrees kept r' ρ ρ') (hr : r ≤ r') : Agrees kept r ρ ρ' :=
  fun k hk => h k (Nat.lt_of_lt_of_le hk hr)

lemma Agrees.keep (h : Agrees none r ρ ρ') : Agrees kept r ρ ρ' := fun k hk _ => h k hk (by simp)

lemma Agrees.eq (h : Agrees none r ρ ρ') {k : Nat} (hk : k < r) : ρ' k = ρ k := h k hk (by simp)

lemma agrees_set (v : Value) : Agrees (some r') r ρ (ρ.set r' v) :=
  fun k _ hne => set_of_ne fun heq => hne (by rw [heq])

lemma agrees_set_of_le (h : r ≤ r') (v : Value) : Agrees none r ρ (ρ.set r' v) :=
  fun k hk _ => set_of_ne (by omega)

lemma Agrees.env {names : Names} (h : Agrees kept r ρ ρ') (hn : names.length ≤ r)
    (hk : ∀ k, kept = some k → names.length ≤ k) : ρ'.env names = ρ.env names :=
  env_congr fun k hlt => h k (by omega) fun heq => by
    have := hk k heq
    omega

end Regs

namespace Draft

variable {ops : Operators} {f : Prototype} {d d' d'' : Draft} {T : Nat}
  {R R' : Regs → Regs → Prop} {c : Regs → Bool}

def Idles (ops : Operators) (f : Prototype) (d d' : Draft) : Prop := ∀ ρ, d.Goes ops f ρ d' ρ

def Computes (ops : Operators) (f : Prototype) (R : Regs → Regs → Prop) (d d' : Draft) :
    Prop :=
  ∀ ρ, ∃ ρ', d.Goes ops f ρ d' ρ' ∧ R ρ ρ'

lemma Computes.then (h : d.Computes ops f R d')
    (h' : ∀ ρ ρ', R ρ ρ' → ∃ ρ'', d'.Goes ops f ρ' d'' ρ'' ∧ R' ρ ρ'') :
    d.Computes ops f R' d'' := by
  intro ρ
  obtain ⟨ρ', hg, hR⟩ := h ρ
  obtain ⟨ρ'', hg', hR'⟩ := h' ρ ρ' hR
  exact ⟨ρ'', hg.trans hg', hR'⟩

lemma Computes.idle (h : d.Computes ops f R d') (h' : d'.Idles ops f d'') :
    d.Computes ops f R d'' := h.then fun _ ρ' hR => ⟨ρ', h' ρ', hR⟩

lemma Computes.mono (h : d.Computes ops f R d') (hR : ∀ ρ ρ', R ρ ρ' → R' ρ ρ') :
    d.Computes ops f R' d' := fun ρ => (h ρ).imp fun ρ' hρ' => ⟨hρ'.1, hR ρ ρ' hρ'.2⟩

lemma Idles.trans (h : d.Idles ops f d') (h' : d'.Idles ops f d'') : d.Idles ops f d'' :=
  fun ρ => (h ρ).trans (h' ρ)

lemma Idles.computes (h : d.Idles ops f d') (hR : ∀ ρ, R ρ ρ) : d.Computes ops f R d' :=
  fun ρ => ⟨ρ, h ρ, hR ρ⟩

lemma Idles.goes (h : d.Idles ops f d') {ρ ρ' : Regs} (h' : d'.Goes ops f ρ d'' ρ') :
    d.Goes ops f ρ d'' ρ' := (h ρ).trans h'

def Branches (ops : Operators) (f : Prototype) (c : Regs → Bool)
    (R : Regs → Regs → Prop) (T : Nat) (d d' : Draft) : Prop :=
  ∀ ρ, ∃ ρ', R ρ ρ' ∧ Forks ops f d d' ρ ρ' T (c ρ)

lemma Computes.branch (h : d.Computes ops f R d')
    (h' : ∀ ρ ρ', R ρ ρ' → ∃ ρ'', R' ρ ρ'' ∧ Forks ops f d' d'' ρ' ρ'' T (c ρ)) :
    d.Branches ops f c R' T d'' := by
  intro ρ
  obtain ⟨ρ', hg, hρ'⟩ := h ρ
  exact (h' ρ ρ' hρ').imp fun ρ'' hρ'' => ⟨hρ''.1, hg.forks hρ''.2⟩

lemma Idles.branches (h : d.Idles ops f d') (h' : d'.Branches ops f c R T d'') :
    d.Branches ops f c R T d'' :=
  fun ρ => (h' ρ).imp fun _ hρ' => ⟨hρ'.1, (h ρ).forks hρ'.2⟩

lemma Idles.skips {ρ ρ' : Regs} {taken : Bool} (h : d.Idles ops f d')
    (h' : Skips ops f d' d'' ρ ρ' taken) : Skips ops f d d'' ρ ρ' taken :=
  fun T d1 hj => (h ρ).forks (h' T d1 hj)

end Draft

namespace Generator

open Draft

variable {f : Prototype} {g g1 g2 : Generator} {o o' : Aims} {l l' l0 : Link} {m r r' r0 : Nat}
  {P Q : Prop} {names : Names}

structure Stands (m : Nat) (names : Names) (l : Link) (r : Nat) (g : Generator) :
    Prop where
  ready : g.Ready m l
  top : g.firstFree = r
  names : g.names = names

section

variable (h : g.Stands m names l r)
include h

lemma Stands.reaches : g.Reaches m l r g := ⟨.refl g, h.ready, h.top⟩

lemma Stands.active : g.active.size = names.length := by
  rw [← h.names, length_names]

lemma Stands.le : names.length ≤ r := by
  rw [← h.active]
  exact h.reaches.active_le

lemma Stands.pends : g.Pends := h.ready.settled.pends

lemma Stands.settled : g.Settled 0 := fun pc hpc => (h.ready.settled pc hpc).mono (Nat.zero_le _)

end

structure Evaluates (f : Prototype) (o : Aims) (m : Nat) (l : Link) (r : Nat) (g g' : Generator)
    (P : Prop) : Prop extends g.Reaches m l r g' where
  blocks : g'.blocks = g.blocks
  holds : Holds m g.toDraft g'.toDraft o.places
  traces : g.Traces f o g'.toDraft P

abbrev Idles (ops : Operators) (f : Prototype) (g : Generator) (m : Nat) (l : Link) (r : Nat)
    (g' : Generator) : Prop := g.Evaluates f [] m l r g' (g.toDraft.Idles ops f g'.toDraft)

abbrev Computes (ops : Operators) (f : Prototype) (g : Generator)
    (R : Regs → Regs → Prop) (m r : Nat) (g' : Generator) : Prop :=
  g.Evaluates f [] m .plain r g' (g.toDraft.Computes ops f R g'.toDraft)

lemma Evaluates.mono (h : g.Evaluates f o m l r g1 P) (hPQ : P → Q) :
    g.Evaluates f o m l r g1 Q := { h with traces := h.traces.mono hPQ }

lemma Evaluates.bind (h : g.Evaluates f o m l r g1 P) (h' : g1.Evaluates f o' m l' r' g2 Q) :
    g.Evaluates f (o ++ o') m l' r' g2 (P ∧ Q) :=
  ⟨h.toReaches.trans h'.toReaches, h'.blocks.trans h.blocks, by
    rw [places_append]
    exact (h.holds.frame h'.frame h.ready.level).append
      (h'.holds.since h.frame), h.traces.bind h'.traces⟩

lemma Evaluates.stands (h : g.Evaluates f o m l r g1 P) (hs : g.Stands m names l0 r0) :
    g1.Stands m names l r :=
  ⟨h.ready, h.top, h.names.trans hs.names⟩

lemma Stands.evaluates (h : g.Stands m names l r) (hP : P) : g.Evaluates f [] m l r g P :=
  ⟨h.reaches, rfl, .nil, traces_refl hP⟩

lemma Silent.evaluates {ops : Operators} (hs : g.Silent g1) (hr : g.Reaches m l r g1) :
    g.Evaluates f [] m l r g1 (g.toDraft.Idles ops f g1.toDraft ∧
      ∀ (k : Nat) (v : Value), g1.constants.values[k]? = some v → f.constants[k]? = some v) :=
  ⟨hr, hs.blocks, .nil, traces_silent hs hr.frame⟩

end Generator

namespace Gen

open Generator Draft Operand

variable {ops : Operators} {f : Prototype} {g : Generator} {l : Link} {m r r' arg dst : Nat}
  {names : Names} {α : Type} {ρ : Regs} {top : Nat} {v : Value}

lemma Meets.idles {x : Gen α} {p : α → Prop} (hs : Meets True g x fun _ => g.Silent)
    (hr : Meets True g x fun a g' => p a ∧ g.Reaches m l r g') :
    Meets True g x fun a g' => p a ∧ g.Idles ops f m l r g' :=
  (hs.and hr).mono fun _ _ h => ⟨h.2.1, (h.1.evaluates h.2.2).mono And.left⟩

lemma Meets.idles' {x : Gen α}
    (h : Meets True g x fun _ g' => g.Reaches m l r g' ∧ g.Silent g') :
    Meets True g x fun _ => g.Idles ops f m l r :=
  h.mono fun _ _ h => (h.2.evaluates h.1).mono And.left

variable (ops f)

lemma evaluates_setPos (h : g.Stands m names l r) (p : Position) :
    Meets True g (setPos p) fun _ => g.Idles ops f m l r :=
  ((meets_setPos h.reaches p).and (silent_setPos p)).idles'

lemma evaluates_setLine (h : g.Stands m names l r) (line : Int) :
    Meets True g (setLine line) fun _ => g.Idles ops f m l r :=
  ((meets_setLine h.reaches line).and (silent_setLine line)).idles'

lemma evaluates_reserve (h : g.Stands m names l r) (n : Nat) :
    Meets True g (reserve n) fun base g' => base = r ∧ g.Idles ops f m l (r + n) g' :=
  (silent_reserve n).idles (meets_reserve h.reaches n)

lemma evaluates_allocate (h : g.Stands m names l r) :
    Meets True g allocate fun base g' => base = r ∧ g.Idles ops f m l (r + 1) g' := by
  refine meets_read ?_
  rw [h.ready.sound.released]
  exact evaluates_reserve ops f h 1

lemma evaluates_setFirstFree (h : g.Stands m names l r) (hn : names.length ≤ r')
    (hr : r' ≤ g.bounds.stack) :
    Meets True g (setFirstFree r') fun _ => g.Idles ops f m l r' :=
  ((meets_setFirstFree h.reaches (by rw [h.active]; exact hn) hr).and
    (silent_setFirstFree r')).idles'

lemma evaluates_free (h : g.Stands m names l r')
    (hp : Placed none names.length r arg r') (hlt : arg < r') (hr : names.length ≤ r) :
    Meets True g (free arg) fun _ => g.Idles ops f m l r := by
  rw [← h.active] at hp hr
  exact (meets_lower h.reaches hr hp.le fun hl => free_placed_eq hl hp hlt hr).idles'

lemma evaluates_freeUnless {fresh : Bool} (h : g.Stands m names l r')
    (hp : Placed (keptReg dst fresh) names.length r arg r') (ha : arg < r') (hd : dst < r)
    (hr : names.length ≤ r) :
    Meets True g (freeUnless dst arg) fun _ => g.Idles ops f m l r := by
  rw [← h.active] at hp hr
  exact (meets_lower h.reaches hr hp.le fun hl => freeUnless_eq hl hp ha hd hr).idles'

lemma evaluates_freeOperands {kept : Option Nat} {x y b c r1 r2 : Nat}
    (h : g.Stands m names l r2) (hx : Placed kept names.length r x r1)
    (hy : Placed kept names.length r1 y r2) (hbc : (b = x ∧ c = y) ∨ (b = y ∧ c = x))
    (hk : ∀ dst, kept = some dst → dst < r) (hr : names.length ≤ r) :
    Meets True g (freeOperands kept b c) fun _ => g.Idles ops f m l r := by
  rw [← h.active] at hx hy hr
  exact (meets_freeOperands h.reaches hx hy hbc hk hr).idles'

lemma silent_constant (v : Value) : Meets True g (constant v) fun _ => g.Silent := by
  refine meets_read ?_
  cases hk : g.constants.find? v with
  | some k => exact meets_pure (.refl g)
  | none =>
    refine meets_read ?_
    split
    · exact meets_fail_bind nofun
    · refine meets_update_bind (meets_pure ⟨rfl, rfl, rfl, rfl, ?_⟩)
      exact ⟨.refl, by simp [Draft.bounds, ConstantTable.size,
        ConstantTable.values_insert hk], .refl, .refl⟩

lemma evaluates_constant (h : g.Stands m names l r) (v : Value) :
    Meets True g (constant v) fun k g' => k < g'.constants.size ∧ g.Evaluates f [] m l r g'
        (g.toDraft.Idles ops f g'.toDraft ∧ f.constants[k]? = some v) := by
  refine ((silent_constant v).and (meets_constant h.reaches v)).mono ?_
  rintro k g' ⟨hs, hr, hk⟩
  exact ⟨(lt_size hk), (hs.evaluates hr).mono fun hP => ⟨hP.1, hP.2 k v hk⟩⟩

variable {f} in
lemma Emits.evaluates {i : Instruction} {g' : Generator} (he : g.Emits i g')
    (hop : i.op? ≠ some .loadNil) (h : g.Stands m names l0 r0) (hr : g.Reaches 255 l r g') :
    g.Evaluates f [] m l r g' (Performs f g.toDraft g'.toDraft i) := by
  exact ⟨hr.mono h.ready.level, he.blocks, .nil, he.traces hop h.pends⟩

lemma evaluates_emitABC (f : Prototype) (op : OpCode) (a b c : Nat) (h : g.Stands m names l r)
    (hm : op.mode = .abc) (ha : a < 256) (hb : b ≤ 511) (hc : c ≤ 511)
    (hf : op.Fits g.bounds a b c 0) (ht : op.Takes b l) (hop : op ≠ .loadNil) :
    Meets True g (emitABC op a b c) fun _ g' => g.Evaluates f [] m (op.after b c) r g'
      (∃ i, i.IsABC op a b c ∧ Performs f g.toDraft g'.toDraft i) := by
  refine (meets_emitABC op a b c h.reaches hm ha hb hc hf ht).mono ?_
  rintro - g' ⟨hr, -, i, hi, he⟩
  exact (Emits.evaluates he (by simp [hi.op, hop]) h hr).mono fun hP => ⟨i, hi, hP⟩

lemma evaluates_jump (h : g.Stands m names l r) (hl : l = .plain ∨ l = .jump) :
    Meets True g jump fun js g' => g'.code.size = g.code.size + 1 ∧
      ∀ T, g.Evaluates f (aim js T) m .plain r g' (Escapes ops f g.toDraft g'.toDraft T) := by
  have hr : Meets True g jump _ := meets_jump h.reaches hl
  obtain ⟨i, hi, heq⟩ := jump_eq g
  unfold Meets at hr ⊢
  rw [heq] at hr ⊢
  refine ⟨by simp [emitted], fun T => ⟨hr.1.mono h.ready.level, rfl, ?_, traces_jump hi h.settled⟩⟩
  rw [places_aim]
  exact hr.2

lemma evaluates_label (h : g.Stands m names l r) : Meets True g label fun k g' => k = g.code.size ∧
      g'.code.size = g.code.size ∧ g'.lastNil? = none ∧
      g.Idles ops f m l r g' := by
  have hr : Meets True g label _ := meets_label h.reaches
  unfold Meets at hr ⊢
  exact ⟨rfl, rfl, lastNil?_eq_none_of_not_mergeable not_mergeable_label, hr.1, rfl, .nil,
    traces_label h.pends⟩

lemma holds_append {m : Nat} {d d' : Draft} {js js' : List Nat} :
    Holds m d d' (js ++ js') ↔ Holds m d d' js ∧ Holds m d d' js' := by
  refine ⟨fun h => ⟨⟨fun pc hpc => ?_, fun pc hpc => ?_, fun pc hpc => ?_⟩,
    fun pc hpc => ?_, fun pc hpc => ?_, fun pc hpc => ?_⟩, fun h => h.1.append h.2⟩
  · exact h.closable pc (List.mem_append_left _ hpc)
  · exact h.loose pc (List.mem_append_left _ hpc)
  · exact h.apart pc (List.mem_append_left _ hpc)
  · exact h.closable pc (List.mem_append_right _ hpc)
  · exact h.loose pc (List.mem_append_right _ hpc)
  · exact h.apart pc (List.mem_append_right _ hpc)

variable {f} in
lemma Evaluates.patchToHere {g0 : Generator} {js : List Nat} {o : Aims} {P : Nat → Prop}
    (h : ∀ T, g0.Evaluates f (aim js T ++ o) m l r g (P T))
    (hd : ∀ pc ∈ js, pc ∉ o.places) :
    g0.Evaluates f o m l r { g with toDraft := g.patchToHere js }
      (∃ T, P T ∧ Lands ops f g.toDraft (g.patchToHere js) T) := by
  have hh := (h 0).holds
  rw [places_append, places_aim, holds_append] at hh
  have hr : Meets True g (Gen.patchToHere js) _ := meets_patchToHere (h 0).toReaches hh.1
  exact ⟨hr.of_ok (a := ()) rfl, (h 0).blocks, hh.2.patchToHere hd,
    Traces.patchToHere ops (fun T => (h T).traces) (h 0).ready.settled.pends hd⟩

variable {f} in
lemma evaluates_patchTo_here {g0 : Generator} {js : List Nat} {k : Nat} {P : Nat → Prop}
    (h : ∀ T, g0.Evaluates f (aim js T ++ []) m l r g (P T))
    (hk : k = g.code.size) :
    Meets True g (patchTo js k) fun _ g' => g'.code = g.code ∧
      g0.Evaluates f [] m l r g' (∃ T, P T ∧ Lands ops f g.toDraft g'.toDraft T) := by
  refine meets_read ?_
  rw [if_pos hk]
  exact meets_update ⟨rfl, Evaluates.patchToHere ops h (by simp)⟩

lemma evaluates_loadConstant {k : Nat} (h : g.Stands m names .plain r) (hd : dst < r)
    (hk : k < g.constants.size) :
    Meets True g (loadConstant dst k) fun _ g' => g.Evaluates f [] m .plain r g'
      (∀ v ρ, f.constants[k]? = some v → g.Goes ops f ρ g'.toDraft (ρ.set dst v)) := by
  have hs := h.reaches.stack_le
  have hd : dst < g.bounds.stack := Nat.lt_of_lt_of_le hd h.reaches.le_stack
  unfold loadConstant
  split
  · next hle =>
    refine (meets_emitABx .loadK dst k h.reaches rfl (by omega) hle ?_ rfl).discard ?_
    · constructor <;> simp [hd]
      exact hk
    · rintro - g' ⟨hr, -, i, hi, he⟩
      refine (Emits.evaluates he (by simp [hi.op]) h hr).mono fun hP v ρ hv => ?_
      exact hP.goes hi.op (by simp [Machine.execute, Machine.write, hi.argA, hi.argBx, hv])
  · have hma := h.ready.sound.constants
    refine (meets_emitABx .loadKX dst 0 h.reaches rfl (by omega) (Nat.zero_le _) ?_
      rfl).discard_bind ?_
    · constructor <;> simp [hd]
    · rintro - g1 ⟨hr1, -, i, hi, he1⟩
      have h1 := Emits.evaluates (f := f) he1 (by simp [hi.op]) h hr1
      have hk1 : k < g1.constants.size := by
        obtain ⟨code, -, rfl⟩ := he1
        exact hk
      refine (meets_extraArgument hr1.restart (by omega) (.inr ⟨rfl, hk1⟩)).discard ?_
      rintro - g2 ⟨hr2, j, hj, hax, he2⟩
      have h2 := Emits.evaluates (f := f) he2 (by simp [hj]) (h1.stands h) hr2
      refine (h1.bind h2).mono fun hP v ρ hv m hm => ?_
      obtain ⟨hP1, hP2⟩ := hP
      cases hP1.start ρ m hm
      have hc := hP2.code
      rw [hP1.size] at hc
      have hst : Machine.Step ops f ⟨g.code.size, ρ⟩ ⟨g2.code.size, ρ.set dst v⟩ :=
        Machine.step_of hP1.code hi.op (by
          simp [Machine.execute, hi.argA, hc, hax, hv, hj, hP2.size, hP1.size])
      exact .falls (.single hst) (at_of_lastNil? hP2.last _)

lemma clear_self : ρ.clear dst (dst + 1 - 1) = ρ.set dst .nil := by
  funext k
  unfold Regs.clear Regs.set
  by_cases hk : k = dst
  · simp [hk]
  · rw [if_neg (by omega), if_neg hk]

lemma evaluates_loadNil {first n : Nat} (h : g.Stands m names .plain r) (hn : 0 < n)
    (hs : first + n ≤ r) :
    Meets True g (loadNil first n) fun _ g' => g.Evaluates f [] m .plain r g'
      (∀ ρ, g.Goes ops f ρ g'.toDraft (ρ.clear first (first + n - 1))) := by
  refine (meets_loadNil h.reaches hn hs).mono ?_
  rintro - g' ⟨hr, hl⟩
  refine ⟨hr.mono h.ready.level, ?_, .nil, hl.traces hn h.pends hr.frame⟩
  cases hl with
  | new i hi he => exact he.blocks
  | widened i j hm hi hw hf hla hg he =>
    subst he
    rfl

lemma evaluates_loadValue (h : g.Stands m names .plain r) (hd : dst < r) (v : Value) :
    Meets True g (loadValue dst v) fun _ g' => g.Evaluates f [] m .plain r g'
      (∀ ρ, g.Goes ops f ρ g'.toDraft (ρ.set dst v)) := by
  have hs := h.reaches.stack_le
  have hc : Meets True g (do loadConstant dst (← constant v)) fun _ g' =>
      g.Evaluates f [] m .plain r g' (∀ ρ, g.Goes ops f ρ g'.toDraft (ρ.set dst v)) := by
    refine (evaluates_constant ops f h v).bind ?_
    rintro k g1 ⟨hk, h1⟩
    refine (evaluates_loadConstant ops f (h1.stands h) hd hk).mono fun _ g2 h2 => ?_
    exact (h1.bind h2).mono fun hP ρ => hP.1.1.goes (hP.2 v ρ hP.1.2)
  cases v with
  | nil =>
    refine (evaluates_loadNil ops f h Nat.one_pos hd).mono fun _ _ h' => h'.mono fun hP ρ => ?_
    rw [← clear_self]
    exact hP ρ
  | bool b =>
    have hd' := Nat.lt_of_lt_of_le hd h.reaches.le_stack
    refine (evaluates_emitABC f .loadBool dst b.toNat 0 h rfl (by omega) ?_ (Nat.zero_le _) ?_
      rfl (by simp)).discard fun _ _ h' => h'.mono ?_
    · cases b <;> decide
    · constructor <;> simp [hd']
    · rintro ⟨i, hi, hP⟩ ρ
      refine hP.goes hi.op ?_
      cases b <;> simp [Machine.execute, hi.argA, hi.argB, hi.argC]
  | integer i => exact hc
  | float x => exact hc
  | string s => exact hc

variable {f}

lemma operand?_of_register (h : arg < 256) : f.operand? ρ arg = some (ρ arg) := by
  simp [Prototype.operand?, isConstant_eq_false h]

def OperandIs (f : Prototype) (top arg : Nat) (v : Value) (ρ : Regs) : Prop :=
  ∀ ρ', Regs.Agrees none top ρ ρ' → f.operand? ρ' arg = some v

lemma OperandIs.agrees {ρ ρ' : Regs} (h : OperandIs f top arg v ρ)
    (ha : Regs.Agrees none top ρ ρ') : OperandIs f top arg v ρ' :=
  fun ρ'' ha' => h ρ'' (ha.trans ha')

lemma OperandIs.mono {top top' : Nat} (h : OperandIs f top arg v ρ) (hle : top ≤ top') :
    OperandIs f top' arg v ρ := fun ρ' ha => h ρ' (ha.mono hle)

lemma OperandIs.self (h : OperandIs f top arg v ρ) : f.operand? ρ arg = some v := h ρ .refl

lemma operandIs_register (h : arg < top) (h' : arg < 256) :
    OperandIs f top arg (ρ arg) ρ := fun ρ' ha => by rw [operand?_of_register h', ha.eq h]

variable (f) in
lemma evaluates_operandOfValue (h : g.Stands m names .plain r) (v : Value) :
    Meets True g (operandOfValue v) fun arg g' => ∃ r',
      Placed none names.length r arg r' ∧ Fits g'.bounds arg ∧
      g.Computes ops f (fun ρ ρ' => OperandIs f r' arg v ρ' ∧ ρ.Agrees none r ρ') m r' g' := by
  refine (evaluates_constant ops f h v).bind ?_
  rintro k g1 ⟨hk, h1⟩
  split
  · next hle =>
    simp only [ofConstant_eq hle]
    refine meets_pure ⟨r, .constant (isConstant_add hle), fits_constant hle hk, h1.mono ?_⟩
    rintro ⟨hi, hv⟩
    refine hi.computes fun ρ => ⟨fun ρ' _ => ?_, .refl⟩
    simp [Prototype.operand?, isConstant_add hle, constantIndex_add hle, hv]
  · have hs1 := h1.stands h
    refine (evaluates_allocate ops f hs1).bind ?_
    rintro base g2 ⟨rfl, h2⟩
    have hs2 := h2.stands hs1
    have hk2 := Nat.lt_of_lt_of_le hk h2.frame.bounds.constants
    refine (evaluates_loadConstant ops f hs2 (Nat.lt_succ_self _) hk2).bind fun _ g3 h3 => ?_
    have hlt := Nat.lt_of_succ_le h3.le_stack
    have hm := h3.stack_le
    refine meets_pure ⟨base + 1, .temporary, fits_register hlt hm, (h1.bind (h2.bind h3)).mono ?_⟩
    rintro ⟨⟨hi1, hv⟩, hi2, hl⟩ ρ
    refine ⟨ρ.set base v, hi1.goes (hi2.goes (hl v ρ hv)), fun ρ' ha => ?_,
      Regs.agrees_set_of_le .refl v⟩
    rw [operand?_of_register (by omega), ha.eq (Nat.lt_succ_self _), Regs.set_self]

end Gen

end LuaBytecode
