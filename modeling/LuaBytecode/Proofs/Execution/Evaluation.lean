import LuaBytecode.Proofs.Execution.Expression
import LuaBytecode.Proofs.Generator.Tree
import LuaBytecode.Proofs.Trace.Step
import Mathlib

namespace LuaBytecode

open Generator Gen

namespace Draft

variable {d d' : Draft} {f : Prototype} {ops : Operators} {T : Nat} {js : List Nat} {ρ : Regs}

/-- The function as it can be run: jumps go to a target, and the pending ones behind the code. -/
def completed (T : Nat) (js : List Nat) (d : Draft) : Except GenerateError Draft :=
  (fixJumps T js d).bind (fixJumps d.code.size d.pending)

def entry (d : Draft) : Nat := if d.lastNil?.isSome then d.code.size - 1 else d.code.size

def behind (d : Draft) (ρ : Regs) : Regs := d.lastNil?.elim ρ fun range => ρ.clear range.1 range.2

lemma Settles.exists_at (h : d.Settles (fun _ => False) f) (ops : Operators) (ρ : Regs) :
    ∃ m, Machine.Runs ops f ⟨d.entry, ρ⟩ m ∧ d.At f (d.behind ρ) m := by
  cases hl : d.lastNil? with
  | none =>
    refine ⟨⟨d.code.size, ρ⟩, ?_, ?_⟩
    · simp only [entry, hl]
      exact .refl
    · simp only [behind, hl]
      exact at_of_lastNil? hl ρ
  | some range =>
    obtain ⟨hm, i, hi, hop, hf, he⟩ := lastNil?_eq_some (p := range.1) (q := range.2) hl
    have hs : d.code.size - 1 + 1 = d.code.size := by
      have := hm.1
      omega
    obtain ⟨j, hj, hw⟩ : ∃ j, f.code[d.code.size - 1]? = some j ∧ i.WidensTo j := by
      rcases h.code _ i hi id (by simp [hm.2]) with hk | ⟨-, -, hj⟩
      · exact ⟨i, hk, hop, hop, .refl, .refl⟩
      · exact hj
    have hlo := hw.first
    have hh := hw.last
    refine ⟨⟨d.code.size - 1 + 1, ρ.clear j.argA (j.argA + j.argB)⟩, ?_, hs,
      .cleared hl (fun k hk hk' => ?_) hj ?_⟩
    · simp only [entry, hl]
      exact .single (step_loadNil hj hw.op')
    · simp only [behind, hl]
      exact Regs.clear_of_mem hk hk'
    · simp only [behind, hl]
      exact (Regs.clear_clear (by omega) (by omega)).symm

structure Completes (T : Nat) (js : List Nat) (d d' : Draft) : Prop where
  settles : d.Settles (· ∈ js) d'.prototype
  aims : ∀ pc ∈ js, d'.prototype.Target T pc
  size : d'.code.size = d.code.size
  kept : ∀ (pc : Nat) (i : Instruction), d.code[pc]? = some i → i.isJump = false →
    d'.prototype.code[pc]? = some i

lemma completes (hjs : Apart (· ∈ js) d) (hp : d.Pends) (h : d.completed T js = .ok d') :
    Completes T js d d' := by
  obtain ⟨d1, h1, h2⟩ : ∃ d1, d.fixJumps T js = .ok d1 ∧
      d1.fixJumps d.code.size d.pending = .ok d' := by
    cases h1 : d.fixJumps T js with
    | error e => simp [completed, h1, Except.bind] at h
    | ok d1 => exact ⟨d1, rfl, by simpa [completed, h1, Except.bind] using h⟩
  obtain ⟨code1, hc1, rfl⟩ := fixJumps_ok h1
  have hk1 : ∀ pc ∈ d.pending, code1[pc]? = d.code[pc]? :=
    fun pc hpc => hc1.kept pc fun hpc' => (hjs pc hpc').2 hpc
  have hp1 : ∀ pc ∈ d.pending, ∃ i, code1[pc]? = some i ∧ i.isJump = true := fun pc hpc => by
      rw [hk1 pc hpc]
      exact hp pc hpc
  obtain ⟨code2, hc2, rfl⟩ := fixJumps_ok h2
  have hc : ∀ pc, ({ d with code := code2 } : Draft).prototype.code[pc]? = code2[pc]? :=
    fun _ => Array.getElem?_toList
  have hk : ∀ {pc : Nat}, pc ∉ js → pc ∉ d.pending →
      ({ d with code := code2 } : Draft).prototype.code[pc]? = d.code[pc]? := by
    intro pc hpc hpc'
    rw [hc, hc2.kept pc hpc']
    exact hc1.kept pc hpc
  have hai : ∀ {pc target : Nat} {i j : Instruction}, code2[pc]? = some j →
      Aimed target pc i j → ({ d with code := code2 } : Draft).prototype.Target target pc := by
    rintro pc target i j hj ⟨op, -, -, hx⟩
    exact ⟨j, (hc pc).trans hj, by rw [hx.argSBx]; omega⟩
  refine ⟨⟨?_, ?_, ?_, d.code.size, .inl rfl, ?_⟩, ?_, hc2.size.trans hc1.size, ?_⟩
  · exact fun pc i hi hpc hpc' => .inl ((hk hpc hpc').trans hi)
  · intro pc hcl
    obtain ⟨i, hi, hop, -⟩ := hc2.closable (hc1.closable hcl)
    exact ⟨i, (hc pc).trans hi, hop⟩
  · exact fun k v hv => Array.getElem?_toList.trans hv
  · intro pc hpc
    obtain ⟨i, hi, -⟩ := hp1 pc hpc
    obtain ⟨j, hj, ha⟩ := hc2.made pc hpc i hi
    exact hai hj ha
  · intro pc hpc
    obtain ⟨⟨i, hi, -⟩, hpc'⟩ := hjs pc hpc
    obtain ⟨j, hj, ha⟩ := hc1.made pc hpc i hi
    exact hai ((hc2.kept pc hpc').trans hj) ha
  · exact fun pc i hi hj => (hk (hjs.not_plain hi hj) (hp.not_plain hi hj)).trans hi

lemma fixJumps_lastTarget (T t : Nat) (js : List Nat) (d : Draft) :
    fixJumps T js { d with lastTarget := t } =
      (fixJumps T js d).map ({ · with lastTarget := t }) := by
  induction js generalizing d with
  | nil => rfl
  | cons pc rest ih =>
    have hfirst : fixJump { d with lastTarget := t } T pc =
        (d.fixJump T pc).map ({ · with lastTarget := t }) := by
      unfold fixJump
      dsimp only
      split
      · rfl
      · split <;> rfl
    rw [fixJumps, fixJumps, hfirst]
    cases d.fixJump T pc with
    | error e => rfl
    | ok d1 => exact ih d1

lemma completed_lastTarget (h : d.completed T js = .ok d') (t : Nat) :
    completed T js { d with lastTarget := t } = .ok { d' with lastTarget := t } := by
  rw [completed, fixJumps_lastTarget]
  rw [completed] at h
  cases hjs : fixJumps T js d with
  | error e =>
    rw [hjs] at h
    cases h
  | ok d1 =>
    rw [hjs] at h
    change fixJumps d.code.size d.pending { d1 with lastTarget := t } = _
    rw [fixJumps_lastTarget, show fixJumps d.code.size d.pending d1 = .ok d' from h]
    rfl

lemma Completes.runs (h : Completes T js d d') {m : Machine}
    (ha : m.Arrives ops d'.prototype d ρ) : m.Runs ops d'.prototype ⟨d'.code.size, ρ⟩ := by
  cases ha with
  | falls hr hat =>
    rw [h.size, ← hat.eq fun i hi hop => h.kept _ i hi (isJump_of_loadNil hop)]
    exact hr
  | jumps hj =>
    obtain ⟨i, hi, -⟩ := hj
    have hlt := (List.getElem?_eq_some_iff.mp hi).1
    have hs := h.size
    simp only [prototype, Array.length_toList] at hlt
    omega

end Draft

namespace Generator

variable {ops : Operators} {g g' : Generator} {d : Draft} {e : Expr} {js : List Nat}

lemma Ready.stands (h : g.Ready g.active.size .plain) :
    g.Stands g.active.size g.names .plain g.firstFree :=
  ⟨h, rfl, rfl⟩

/-- The state behind a label, where a `LOADNIL` before it cannot be widened. -/
def labelled (g : Generator) : Generator := { g with toDraft := g.label }

/-- The code of `x` merges with no `LOADNIL` before it: it is the same behind a label. -/
def Unmerged {α : Type} (x : Gen α) (a : α) (g g' : Generator) : Prop :=
  ∃ t, x g.labelled = .ok (a, { g' with lastTarget := t })

lemma Ready.labelled {m : Nat} {l : Link} (h : g.Ready m l) : g.labelled.Ready m l := by
  have hla : Gen.Meets True g Gen.label _ := meets_label h.refl
  exact (hla.of_ok (a := g.code.size) rfl).1.ready

lemma names_labelled (g : Generator) : g.labelled.names = g.names := Draft.names_congr rfl rfl

lemma lastNil?_labelled (g : Generator) : g.labelled.lastNil? = none := by
  simp [Draft.lastNil?, labelled, Draft.label]

lemma entry_labelled (g : Generator) : g.labelled.entry = g.code.size := by
  rw [Draft.entry, lastNil?_labelled]
  rfl

lemma behind_labelled (g : Generator) (ρ : Regs) : g.labelled.behind ρ = ρ := by
  rw [Draft.behind, lastNil?_labelled]
  rfl

lemma Evaluates.completed {m r T : Nat} {l : Link} {P : Prop} (ops : Operators)
    (h : g.Evaluates d.prototype (aim js T) m l r g' P) (hd : g'.completed T js = .ok d) :
    Draft.Completes T js g'.toDraft d ∧ P ∧ ∀ ρ, ∃ m, Machine.Runs ops d.prototype ⟨g.entry, ρ⟩ m ∧
        g.At d.prototype (g.behind ρ) m := by
  have ho := h.traces.opens.apart
  rw [places_aim] at ho
  have hc := Draft.completes ho h.ready.settled.pends hd
  obtain ⟨hs, hP⟩ := h.traces.simulates (fun _ => False) (fun _ hx => hx.elim)
    (hc.settles.congr (by simp)) (forall_mem_aim.mpr hc.aims)
  exact ⟨hc, hP, hs.exists_at ops⟩

def stateBehind {α : Type} (g : Generator) (x : Gen α) : Generator :=
  match x g with
  | .ok (_, g') => g'
  | .error _ => g

def nilDeclared : Stmt := .declare (.at .first) [⟨.at .first, "a"⟩] []

def besideNil : Generator :=
  (start []).stateBehind (Gen.statement nilDeclared.span.start nilDeclared.code)

lemma occurs_besideNil : besideNil.Occurs :=
  .statement nilDeclared (.start []) rfl rfl

def negated : Expr :=
  let a : Expr := .ident ⟨.at .first, "a"⟩
  .binary (.at .first) .or (.unary (.at .first) .not a) (.binary (.at .first) .eq a a)

lemma runs_toReg_entry {dst : Nat} {fresh : Bool} (hops : ops.Folds)
    (hg : g.Ready g.active.size .plain) (he : e.isSimple g.names.reduceOption = true)
    (hd : Dest g.active.size g.firstFree dst fresh)
    (hrun : e.code.toReg dst fresh g = .ok ((), g')) (hdone : g'.completed 0 [] = .ok d)
    (ρ : Regs) :
    ∃ ρ' : Regs, Machine.Runs ops d.prototype ⟨g.entry, ρ⟩ ⟨d.code.size, ρ'⟩ ∧
      ρ' dst = e.eval ops ((g.behind ρ).env g.names) ∧
      ∀ k < g.active.size, k ≠ dst → ρ' k = g.behind ρ k := by
  have hs := hg.stands
  have hmeans := (Expr.code_means (f := d.prototype) hops e he).toReg hs
    (by rw [← hs.active]; exact hd)
  obtain ⟨hc, hcomputes, hstart⟩ := (hmeans.of_ok hrun).completed (T := 0) ops hdone
  obtain ⟨m, hm, hat⟩ := hstart ρ
  obtain ⟨ρ', hgoes, hdst, hagrees⟩ := hcomputes (g.behind ρ)
  refine ⟨ρ', hm.trans (hc.runs (hgoes m hat)), hdst, fun k hk hne => hagrees k ?_ ?_⟩
  · exact Nat.lt_of_lt_of_le hk hg.top
  · exact fun heq => hne (Option.some.inj heq).symm

/-- The code of an expression brings its value into a register, whatever the registers hold. This is
so wherever the invariant of the generator holds, as behind statements (`Occurs.passes`). If the
code may rely on a `LOADNIL` before it, the run starts there. -/
theorem runs_toReg {dst : Nat} {fresh : Bool} (hops : ops.Folds)
    (hg : g.Ready g.active.size .plain) (he : e.isSimple g.names.reduceOption = true)
    (hd : Dest g.active.size g.firstFree dst fresh)
    (hrun : e.code.toReg dst fresh g = .ok ((), g')) (hdone : g'.completed 0 [] = .ok d)
    (ρ : Regs) :
    (∃ ρ' : Regs, Machine.Runs ops d.prototype ⟨g.entry, ρ⟩ ⟨d.code.size, ρ'⟩ ∧
      ρ' dst = e.eval ops ((g.behind ρ).env g.names) ∧
      ∀ k < g.active.size, k ≠ dst → ρ' k = g.behind ρ k) ∧
    (Unmerged (e.code.toReg dst fresh) () g g' →
      ∃ ρ' : Regs, Machine.Runs ops d.prototype ⟨g.code.size, ρ⟩ ⟨d.code.size, ρ'⟩ ∧
        ρ' dst = e.eval ops (ρ.env g.names) ∧ ∀ k < g.active.size, k ≠ dst → ρ' k = ρ k) := by
  refine ⟨runs_toReg_entry hops hg he hd hrun hdone ρ, ?_⟩
  rintro ⟨t, hlabelled⟩
  rw [← names_labelled] at he
  have hruns := runs_toReg_entry hops hg.labelled he hd hlabelled
    (Draft.completed_lastTarget hdone t) ρ
  rw [entry_labelled, behind_labelled, names_labelled] at hruns
  exact hruns

section OwnValue

def negatedState : Generator := besideNil.stateBehind (negated.code.toReg 0 false)

def negatedDraft : Draft := (negatedState.completed 0 []).toOption.getD negatedState.toDraft

/-- A variable gets a value that it occurs in. The `LOADNIL` that it has its own value from is not
merged with. -/
theorem runs_toReg_negated :
    (∃ ρ' : Regs, Machine.Runs .folding negatedDraft.prototype ⟨0, fun _ => .bool false⟩
      ⟨negatedDraft.code.size, ρ'⟩ ∧ ρ' 0 = .bool true) ∧
    ∃ ρ' : Regs, Machine.Runs .folding negatedDraft.prototype ⟨1, fun _ => .bool false⟩
      ⟨negatedDraft.code.size, ρ'⟩ ∧ ρ' 0 = .bool true := by
  have hd : Dest besideNil.active.size besideNil.firstFree 0 false := Nat.one_pos
  have hrun : negated.code.toReg 0 false besideNil = .ok ((), negatedState) := rfl
  have hdone : negatedState.completed 0 [] = .ok negatedDraft := rfl
  have hunmerged : Unmerged (negated.code.toReg 0 false) () besideNil negatedState := ⟨8, by cbv⟩
  obtain ⟨⟨ρ', hruns, hvalue, -⟩, happended⟩ := runs_toReg Operators.folds_folding
    occurs_besideNil.passes.ready rfl hd hrun hdone fun _ => .bool false
  obtain ⟨ρ'', hruns', hvalue', -⟩ := happended hunmerged
  exact ⟨⟨ρ', hruns, hvalue⟩, ρ'', hruns', hvalue'⟩

end OwnValue

section NothingAdded

def secondWanted : Generator := besideNil.stateBehind (Gen.reserve 1)

lemma occurs_secondWanted : secondWanted.Occurs := .reserve 1 occurs_besideNil (r := 1) rfl

def nilExpr : Expr := .nil (.at .first)

/-- Nil next to nil takes no instruction of its own, so that what is added to the code does not set
the register. -/
theorem toReg_adds_nothing : ∃ (g g' : Generator) (e : Expr) (ρ : Regs), g.Occurs ∧
    e.isSimple g.names.reduceOption = true ∧
    Dest g.active.size g.firstFree 1 true ∧
    e.code.toReg 1 true g = .ok ((), g') ∧ g'.completed 0 [] = .ok g'.toDraft ∧
    ∀ ops : Operators, ¬ ∃ ρ' : Regs,
      Machine.Runs ops g'.prototype ⟨g.code.size, ρ⟩ ⟨g'.code.size, ρ'⟩ ∧
        ρ' 1 = e.eval ops (ρ.env g.names) := by
  refine ⟨secondWanted, secondWanted.stateBehind (nilExpr.code.toReg 1 true), nilExpr,
    fun _ => .bool true, occurs_secondWanted, rfl, ⟨rfl, Nat.le_refl 1⟩, rfl, rfl, ?_⟩
  rintro ops ⟨ρ', hrun, hnil⟩
  have hend : (secondWanted.stateBehind
      (nilExpr.code.toReg 1 true)).prototype.code.length ≤ secondWanted.code.size :=
    Nat.le_refl 1
  rcases Relation.ReflTransGen.cases_head hrun with heq | ⟨m, hstep, -⟩
  · cases congrArg Machine.registers heq
    cases hnil
  · exact Machine.not_step_of_le hend hstep

end NothingAdded

lemma runs_jumpIf_entry {T : Nat} {wanted : Bool} (hops : ops.Folds)
    (hg : g.Ready g.active.size .plain) (he : e.isSimple g.names.reduceOption = true)
    (hrun : e.code.jumpIf wanted g = .ok (js, g')) (hdone : g'.completed T js = .ok d)
    (ρ : Regs) :
    ∃ ρ' : Regs, Machine.Runs ops d.prototype ⟨g.entry, ρ⟩
        ⟨if (e.eval ops ((g.behind ρ).env g.names)).isTruthy = wanted then T
          else d.code.size, ρ'⟩ ∧
      ∀ k < g.active.size, ρ' k = g.behind ρ k := by
  have hmeans := (Expr.code_means (f := d.prototype) hops e he).jumpIf wanted hg.stands
  obtain ⟨hc, hbranches, hstart⟩ := ((hmeans.of_ok hrun).2 T).completed ops hdone
  obtain ⟨m, hm, hat⟩ := hstart ρ
  obtain ⟨ρ', hagrees, hforks⟩ := hbranches (g.behind ρ)
  refine ⟨ρ', ?_, fun k hk => hagrees.eq (Nat.lt_of_lt_of_le hk hg.top)⟩
  split
  · next htrue =>
    exact hm.trans (hforks.jumps (by simpa using htrue) m hat).to_reflTransGen
  · next hfalse => exact hm.trans (hc.runs (hforks.falls (by simpa using hfalse) m hat))

/-- The code of a condition goes to the target of its jumps if the condition is as wanted, and else
to the next instruction. If it may rely on a `LOADNIL` before it, the run starts there. -/
theorem runs_jumpIf {T : Nat} {wanted : Bool} (hops : ops.Folds)
    (hg : g.Ready g.active.size .plain) (he : e.isSimple g.names.reduceOption = true)
    (hrun : e.code.jumpIf wanted g = .ok (js, g')) (hdone : g'.completed T js = .ok d)
    (ρ : Regs) :
    (∃ ρ' : Regs, Machine.Runs ops d.prototype ⟨g.entry, ρ⟩
        ⟨if (e.eval ops ((g.behind ρ).env g.names)).isTruthy = wanted then T
          else d.code.size, ρ'⟩ ∧
      ∀ k < g.active.size, ρ' k = g.behind ρ k) ∧
    (Unmerged (e.code.jumpIf wanted) js g g' →
      ∃ ρ' : Regs, Machine.Runs ops d.prototype ⟨g.code.size, ρ⟩
          ⟨if (e.eval ops (ρ.env g.names)).isTruthy = wanted then T else d.code.size, ρ'⟩ ∧
        ∀ k < g.active.size, ρ' k = ρ k) := by
  refine ⟨runs_jumpIf_entry hops hg he hrun hdone ρ, ?_⟩
  rintro ⟨t, hlabelled⟩
  rw [← names_labelled] at he
  have hruns := runs_jumpIf_entry hops hg.labelled he hlabelled
    (Draft.completed_lastTarget hdone t) ρ
  rw [entry_labelled, behind_labelled, names_labelled] at hruns
  exact hruns

section Negation

def negationTested : Generator := besideNil.stateBehind (negated.code.jumpIf false)

def negationDraft : Draft := (negationTested.completed 100 [4]).toOption.getD negationTested.toDraft

theorem runs_jumpIf_negated :
    (∃ ρ' : Regs, Machine.Runs .folding negationDraft.prototype ⟨0, fun _ => .bool true⟩
      ⟨negationDraft.code.size, ρ'⟩ ∧ ρ' 0 = .nil) ∧
    ∃ ρ' : Regs, Machine.Runs .folding negationDraft.prototype ⟨1, fun _ => .bool true⟩
      ⟨negationDraft.code.size, ρ'⟩ ∧ ρ' 0 = .bool true := by
  have hrun : negated.code.jumpIf false besideNil = .ok ([4], negationTested) := rfl
  have hdone : negationTested.completed 100 [4] = .ok negationDraft := rfl
  have hunmerged : Unmerged (negated.code.jumpIf false) [4] besideNil negationTested := ⟨5, by cbv⟩
  obtain ⟨⟨ρ', hruns, hkept⟩, happended⟩ := runs_jumpIf Operators.folds_folding
    occurs_besideNil.passes.ready rfl hrun hdone fun _ => .bool true
  obtain ⟨ρ'', hruns', hkept'⟩ := happended hunmerged
  exact ⟨⟨ρ', hruns, hkept 0 Nat.one_pos⟩, ρ'', hruns', hkept' 0 Nat.one_pos⟩

end Negation

section OtherTested

def lengthOfNil : Expr := .unary (.at .first) .len nilExpr

def lengthTested : Generator := besideNil.stateBehind (lengthOfNil.code.jumpIf true)

def lengthDraft : Draft := (lengthTested.completed 100 [3]).toOption.getD lengthTested.toDraft

/-- An operand that is nil next to nil takes no instruction of its own, so that what is added to the
code may test another value. -/
theorem jumpIf_tests_other : ∃ (ops : Operators) (g g' : Generator) (d : Draft) (js : List Nat)
    (e : Expr) (ρ : Regs), ops.Folds ∧ g.Occurs ∧
    e.isSimple g.names.reduceOption = true ∧ e.code.jumpIf true g = .ok (js, g') ∧
    g'.completed 100 js = .ok d ∧
    (e.eval ops (ρ.env g.names)).isTruthy = false ∧
    ¬ ∃ ρ' : Regs, Machine.Runs ops d.prototype ⟨g.code.size, ρ⟩ ⟨d.code.size, ρ'⟩ := by
  refine ⟨.counting, besideNil, lengthTested, lengthDraft, [3], lengthOfNil, fun _ => .bool true,
    Operators.folds_counting, occurs_besideNil, rfl, rfl, rfl, rfl, ?_⟩
  rintro ⟨ρ', hrun⟩
  have htarget : ∃ ρ1 : Regs, Machine.Runs .counting lengthDraft.prototype
      ⟨besideNil.code.size, fun _ => .bool true⟩ ⟨100, ρ1⟩ :=
    ⟨_, .head rfl (.head rfl (.single rfl))⟩
  obtain ⟨ρ1, htarget⟩ := htarget
  have hlength : lengthDraft.prototype.code.length = 4 := rfl
  have hsize : lengthDraft.code.size = 4 := rfl
  have heq := Machine.Runs.eq_of_le hrun htarget (Nat.le_of_eq (hlength.trans hsize.symm))
    (Nat.le_trans (Nat.le_of_eq hlength) (show 4 ≤ 100 by decide))
  have hpc : lengthDraft.code.size = 100 := congrArg Machine.pc heq
  rw [hsize] at hpc
  cases hpc

end OtherTested

end Generator

end LuaBytecode
