import LuaBytecode.Folding
import LuaBytecode.Prototype
import LuaBytecode.Tree
import Mathlib.Logic.Relation

namespace LuaBytecode

structure Operators where
  binary : OpCode → Value → Value → Value
  unary : OpCode → Value → Value
  concat : Value → Value → Value
  compare : OpCode → Value → Value → Bool
  prepare : (index limit step : Value) → Value × Value × Value
  advance : (index limit step : Value) → Option Value

structure Operators.Folds (ops : Operators) : Prop where
  binary : ∀ (op : BinaryOp) (code : OpCode) (v w r : Value), op.arithmetic? = some code →
    fold code v w = .ok (some r) → ops.binary code v w = r
  unary : ∀ (op : UnaryOp) (v r : Value), op = .neg ∨ op = .bnot →
    fold op.opCode v .nil = .ok (some r) → ops.unary op.opCode v = r

namespace Operators

def folding : Operators where
  binary code v w := ((fold code v w).toOption.bind id).getD .nil
  unary code v := ((fold code v .nil).toOption.bind id).getD .nil
  concat v _ := v
  compare _ _ _ := true
  prepare index limit step := (index, limit, step)
  advance _ _ _ := none

lemma folds_folding : folding.Folds where
  binary _ _ _ _ _ _ h := by simp [folding, h, Except.toOption]
  unary _ _ _ _ h := by simp [folding, h, Except.toOption]

def counting : Operators :=
  { folding with
    unary := fun code v => if code = .len then .bool v.isTruthy else folding.unary code v }

lemma folds_counting : counting.Folds where
  binary := folds_folding.binary
  unary op v r hop h := by
    have hne : op.opCode ≠ .len := by
      rcases hop with rfl | rfl <;> simp [UnaryOp.opCode]
    rw [← folds_folding.unary op v r hop h]
    exact if_neg hne

end Operators

def Operators.join (ops : Operators) : List Value → Value
  | [] => .nil
  | [v] => v
  | v :: rest => ops.concat v (ops.join rest)

abbrev Regs := Nat → Value

namespace Regs

def set (ρ : Regs) (r : Nat) (v : Value) : Regs := fun k => if k = r then v else ρ k

def clear (ρ : Regs) (first last : Nat) : Regs :=
  fun k => if first ≤ k ∧ k ≤ last then .nil else ρ k

def range (ρ : Regs) (first n : Nat) : List Value := (List.range' first n).map ρ

variable {ρ ρ' : Regs} {r k first last n : Nat} {v : Value}

@[simp] lemma set_self : ρ.set r v r = v := by simp [set]

@[simp] lemma set_of_ne (h : k ≠ r) : ρ.set r v k = ρ k := by simp [set, h]

lemma set_eq_self : ρ.set r (ρ r) = ρ := by
  funext k
  by_cases hk : k = r <;> simp [set, hk]

lemma clear_of_mem (h : first ≤ k) (h' : k ≤ last) : ρ.clear first last k = .nil := by
  simp [clear, h, h']

lemma clear_of_lt (h : k < first ∨ last < k) : ρ.clear first last k = ρ k := by
  rw [clear, if_neg (by omega)]

lemma clear_eq_self (h : ∀ k, first ≤ k → k ≤ last → ρ k = .nil) : ρ.clear first last = ρ := by
  funext k
  change (if first ≤ k ∧ k ≤ last then .nil else ρ k) = ρ k
  split
  · next hm => exact (h k hm.1 hm.2).symm
  · rfl

lemma clear_clear {first' last' : Nat} (h : first' ≤ first) (h' : last ≤ last') :
    (ρ.clear first last).clear first' last' = ρ.clear first' last' := by
  funext k
  change (if first' ≤ k ∧ k ≤ last' then .nil else ρ.clear first last k) =
    if first' ≤ k ∧ k ≤ last' then .nil else ρ k
  split
  · rfl
  · rw [clear_of_lt (by omega)]

lemma range_congr (h : ∀ k, first ≤ k → k < first + n → ρ' k = ρ k) :
    ρ'.range first n = ρ.range first n := by
  apply List.map_congr_left
  intro k hk
  rw [List.mem_range'_1] at hk
  exact h k hk.1 hk.2

end Regs

def Prototype.operand? (f : Prototype) (ρ : Regs) (arg : Nat) : Option Value :=
  if Operand.isConstant arg then f.constants[Operand.constantIndex arg]? else some (ρ arg)

structure Machine where
  pc : Nat
  registers : Regs

namespace Machine

def write (m : Machine) (r : Nat) (v : Value) : Machine := ⟨m.pc + 1, m.registers.set r v⟩

def takes (m : Machine) (taken : Bool) : Machine := ⟨m.pc + if taken then 1 else 2, m.registers⟩

def jump (m : Machine) (offset : Int) : Option Machine :=
  (m.pc + 1 + offset).toNat?.map fun pc => ⟨pc, m.registers⟩

section

variable (ops : Operators) (f : Prototype)

def execute (m : Machine) (i : Instruction) (op : OpCode) :
    Option Machine :=
  match op with
  | .move => some (m.write i.argA (m.registers i.argB))
  | .loadK => (f.constants[i.argBx]?).map (m.write i.argA)
  | .loadKX => do
      let extra ← f.code[m.pc + 1]?
      let v ← f.constants[extra.argAx]?
      if extra.op? = some .extraArg then some ⟨m.pc + 2, m.registers.set i.argA v⟩ else none
  | .loadBool =>
    some ⟨m.pc + if i.argC = 0 then 1 else 2, m.registers.set i.argA (.bool (i.argB ≠ 0))⟩
  | .loadNil => some ⟨m.pc + 1, m.registers.clear i.argA (i.argA + i.argB)⟩
  | .add | .sub | .mul | .mod | .pow | .div | .idiv | .band | .bor | .bxor | .shl | .shr => do
      let v ← f.operand? m.registers i.argB
      let w ← f.operand? m.registers i.argC
      some (m.write i.argA (ops.binary op v w))
  | .unm | .bnot | .len => some (m.write i.argA (ops.unary op (m.registers i.argB)))
  | .not => some (m.write i.argA (.bool !(m.registers i.argB).isTruthy))
  | .concat =>
    some (m.write i.argA (ops.join (m.registers.range i.argB (i.argC + 1 - i.argB))))
  | .jmp => m.jump i.argSBx
  | .eq | .lt | .le => do
      let v ← f.operand? m.registers i.argB
      let w ← f.operand? m.registers i.argC
      some (m.takes (ops.compare op v w = decide (i.argA ≠ 0)))
  | .test => some (m.takes ((m.registers i.argA).isTruthy = decide (i.argC ≠ 0)))
  | .testSet =>
    if (m.registers i.argB).isTruthy = decide (i.argC ≠ 0) then
      some (m.write i.argA (m.registers i.argB))
    else some (m.takes false)
  | .forPrep =>
    let (index, limit, step) := ops.prepare (m.registers i.argA) (m.registers (i.argA + 1))
      (m.registers (i.argA + 2))
    jump ⟨m.pc, ((m.registers.set i.argA index).set (i.argA + 1) limit).set (i.argA + 2) step⟩
      i.argSBx
  | .forLoop =>
    match ops.advance (m.registers i.argA) (m.registers (i.argA + 1))
      (m.registers (i.argA + 2)) with
    | some v => jump ⟨m.pc, (m.registers.set i.argA v).set (i.argA + 3) v⟩ i.argSBx
    | none => some ⟨m.pc + 1, m.registers⟩
  | _ => none

def next? (m : Machine) : Option Machine :=
  (f.code[m.pc]?).bind fun i => i.op?.bind (m.execute ops f i)

def results? (m : Machine) : Option (List Value) := (f.code[m.pc]?).bind fun i =>
    if i.op? = some .return ∧ i.argB ≠ 0 then some (m.registers.range i.argA (i.argB - 1)) else none

def start (ρ : Regs) : Machine := ⟨0, ρ⟩

def Step (m m' : Machine) : Prop := m.next? ops f = some m'

abbrev Runs : Machine → Machine → Prop := Relation.ReflTransGen (Step ops f)

abbrev Moves : Machine → Machine → Prop := Relation.TransGen (Step ops f)

def Returns (m : Machine) (values : List Value) : Prop :=
  ∃ m', m.Runs ops f m' ∧ m'.results? f = some values

def Diverges (m : Machine) : Prop := ∀ m', m.Runs ops f m' → ∃ m'', m'.Step ops f m''

def Terminates (m : Machine) : Prop := Acc (fun m' m'' => m''.Step ops f m') m

end

variable {ops : Operators} {f : Prototype} {m m' m'' : Machine} {values : List Value}

lemma Step.unique (h : m.Step ops f m') (h' : m.Step ops f m'') : m'' = m' :=
  Option.some.inj (h'.symm.trans h)

lemma step_of {i : Instruction} {op : OpCode} (hi : f.code[m.pc]? = some i)
    (hop : i.op? = some op) (h : m.execute ops f i op = some m') : m.Step ops f m' := by
  simp [Step, next?, hi, hop, h]

lemma Moves.tail_of_step (h : m.Moves ops f m'') (hs : m.Step ops f m') : m'.Runs ops f m'' := by
  obtain ⟨m1, h1, hr⟩ := Relation.TransGen.head'_iff.mp h
  cases hs.unique h1
  exact hr

lemma not_step_of_results (h : m.results? f = some values) : ¬ m.Step ops f m' := by
  intro hs
  obtain ⟨i, hi, hr⟩ := Option.bind_eq_some_iff.mp h
  split at hr
  · next hre => simp [Step, next?, hi, hre.1, execute] at hs
  · cases hr

lemma Returns.of_runs (h : m.Runs ops f m') (hr : m'.Returns ops f values) :
    m.Returns ops f values := by
  obtain ⟨m1, h1, hv⟩ := hr
  exact ⟨m1, h.trans h1, hv⟩

lemma Returns.step (h : m.Returns ops f values) (hs : m.Step ops f m') :
    m'.Returns ops f values := by
  obtain ⟨m1, h1, hv⟩ := h
  rcases Relation.ReflTransGen.cases_head h1 with rfl | ⟨m2, h2, hr⟩
  · exact absurd hs (not_step_of_results hv)
  · cases hs.unique h2
    exact ⟨m1, hr, hv⟩

lemma Returns.unique {values' : List Value} (h : m.Returns ops f values)
    (h' : m.Returns ops f values') : values' = values := by
  obtain ⟨m1, h1, hv⟩ := h
  induction h1 using Relation.ReflTransGen.head_induction_on with
  | refl =>
    obtain ⟨m2, h2, hv'⟩ := h'
    rcases Relation.ReflTransGen.cases_head h2 with rfl | ⟨m3, h3, -⟩
    · exact Option.some.inj (hv'.symm.trans hv)
    · exact absurd h3 (not_step_of_results hv)
  | head hs _ ih => exact ih (h'.step hs)

lemma Terminates.of_step (hs : m.Step ops f m') (h : m'.Terminates ops f) :
    m.Terminates ops f := by
  refine Acc.intro m fun m1 h1 => ?_
  cases hs.unique h1
  exact h

lemma Terminates.runs (h : m.Terminates ops f) (hr : m.Runs ops f m') :
    m'.Terminates ops f := by
  induction hr with
  | refl => exact h
  | tail _ hs ih => exact ih.inv hs

lemma terminates_of_not_diverges (h : ¬ m.Diverges ops f) : m.Terminates ops f := by
  obtain ⟨m', hr, he⟩ : ∃ m', m.Runs ops f m' ∧ ∀ m'', ¬ m'.Step ops f m'' := by
    simpa [Diverges] using h
  clear h
  induction hr using Relation.ReflTransGen.head_induction_on with
  | refl => exact Acc.intro m' fun m1 h1 => absurd h1 (he m1)
  | head hs _ ih => exact ih.of_step hs

lemma Returns.not_diverges (h : m.Returns ops f values) : ¬ m.Diverges ops f := by
  intro hd
  obtain ⟨m', hr, hv⟩ := h
  obtain ⟨m'', hs⟩ := hd m' hr
  exact not_step_of_results hv hs

lemma not_step_of_le (h : f.code.length ≤ m.pc) : ¬ m.Step ops f m' := by
  simp [Step, next?, List.getElem?_eq_none h]

lemma Runs.eq_of_le {m1 m2 : Machine} (h1 : m.Runs ops f m1) (h2 : m.Runs ops f m2)
    (he1 : f.code.length ≤ m1.pc) (he2 : f.code.length ≤ m2.pc) : m1 = m2 := by
  have hu : Relator.RightUnique (Step ops f) := fun _ _ _ h h' => h'.unique h
  rcases Relation.ReflTransGen.total_of_right_unique hu h1 h2 with hr | hr
  · rcases Relation.ReflTransGen.cases_head hr with heq | ⟨m3, hs, -⟩
    · exact heq
    · exact absurd hs (not_step_of_le he1)
  · rcases Relation.ReflTransGen.cases_head hr with heq | ⟨m3, hs, -⟩
    · exact heq.symm
    · exact absurd hs (not_step_of_le he2)

lemma not_moves_everywhere (h : ∀ T, ∃ ρ, m.Moves ops f ⟨T, ρ⟩) : False := by
  obtain ⟨ρ, hρ⟩ := h f.code.length
  obtain ⟨ρ', hρ'⟩ := h (f.code.length + 1)
  have heq := Runs.eq_of_le hρ.to_reflTransGen hρ'.to_reflTransGen .refl (Nat.le_succ _)
  exact absurd (congrArg Machine.pc heq) (Nat.ne_of_lt (Nat.lt_succ_self _))

end Machine

abbrev Env := List (Bytes × Value)

namespace Env

def lookup (x : Bytes) : Env → Value
  | [] => .nil
  | (y, v) :: outer => if y = x then v else lookup x outer

def assign (x : Bytes) (w : Value) : Env → Env
  | [] => []
  | (y, v) :: outer => if y = x then (y, w) :: outer else (y, v) :: assign x w outer

def declare (env : Env) (names : List Bytes) (values : List Value) : Env :=
  (names.zip values).reverse ++ env

def leave (n : Nat) (env : Env) : Env := env.drop (env.length - n)

end Env

def adjust (n : Nat) (values : List Value) : List Value :=
  (values ++ List.replicate n Value.nil).take n

namespace Operators

def applyBinary (ops : Operators) (op : BinaryOp) (v w : Value) : Value :=
  match op with
  | .and => if v.isTruthy then w else v
  | .or => if v.isTruthy then v else w
  | .concat => ops.concat v w
  | .eq => .bool (ops.compare .eq v w)
  | .ne => .bool !(ops.compare .eq v w)
  | .lt => .bool (ops.compare .lt v w)
  | .le => .bool (ops.compare .le v w)
  | .gt => .bool (ops.compare .lt w v)
  | .ge => .bool (ops.compare .le w v)
  | op => (op.arithmetic?.map fun code => ops.binary code v w).getD .nil

def applyUnary (ops : Operators) (op : UnaryOp) (v : Value) : Value :=
  match op with
  | .not => .bool !v.isTruthy
  | op => ops.unary op.opCode v

end Operators

def Expr.eval (ops : Operators) (env : Env) : Expr → Value
  | .ident id => env.lookup id.name
  | .bool _ b => .bool b
  | .number _ raw => ((parseNumeral? raw).map Value.ofNumber).getD .nil
  | .string _ raw long => ((stringValue raw long).toOption.map Value.string).getD .nil
  | .binary _ op left right => ops.applyBinary op (left.eval ops env) (right.eval ops env)
  | .unary _ op operand => ops.applyUnary op (operand.eval ops env)
  | .paren _ inner => inner.eval ops env
  | _ => .nil

inductive Outcome where
  | normal
  | broke
  | returned (values : List Value)

abbrev Behavior := Env → Env → Outcome → Prop

inductive Loop {σ : Type} (round : σ → σ → Outcome → Prop) : σ → σ → Outcome → Prop
  | again {s s1 s' : σ} {out : Outcome} (h : round s s1 .normal) (h' : Loop round s1 s' out) :
      Loop round s s' out
  | stop {s s' : σ} (h : round s s' .broke) : Loop round s s' .normal
  | return {s s' : σ} {values : List Value} (h : round s s' (.returned values)) :
      Loop round s s' (.returned values)

namespace Behavior

def becomes (next : Env → Env) : Behavior := fun env env' out => env' = next env ∧ out = .normal

def breaks : Behavior := fun env env' out => env' = env ∧ out = .broke

def returns (values : Env → List Value) : Behavior :=
  fun env env' out => env' = env ∧ out = .returned (values env)

def seq (first second : Behavior) : Behavior := fun env env' out =>
  (∃ env1, first env env1 .normal ∧ second env1 env' out) ∨ (out ≠ .normal ∧ first env env' out)

def block (body : Behavior) : Behavior := fun env env' out =>
  ∃ inner, body env inner out ∧ env' = inner.leave env.length

def branch (cond : Env → Bool) (yes no : Behavior) : Behavior := fun env =>
  if cond env then yes env else no env

def whileLoop (cond : Env → Bool) (body : Behavior) : Behavior := Loop (branch cond body breaks)

def repeatLoop (body : Behavior) (cond : Env → Bool) : Behavior :=
  Loop (block (seq body (branch cond breaks (becomes id))))

def round (ops : Operators) (name : Bytes) (body : Behavior) (limit step : Value) :
    Value × Env → Value × Env → Outcome → Prop := fun (index, env) (index', env') out =>
  match ops.advance index limit step with
  | some v => index' = v ∧ block (fun outer => body ((name, v) :: outer)) env env' out
  | none => index' = index ∧ env' = env ∧ out = .broke

def numericLoop (ops : Operators) (name : Bytes) (body : Behavior)
    (first limit step : Env → Value) : Behavior := fun env env' out =>
  let (index, limit, step) := ops.prepare (first env) (limit env) (step env)
  ∃ index', Loop (round ops name body limit step) (index, env) (index', env') out

end Behavior

def Expr.assigned : Expr → Bytes
  | .ident id => id.name
  | _ => []

def Env.assignAll (env : Env) : List Bytes → List Value → Env
  | x :: xs, v :: vs => (env.assignAll xs vs).assign x v
  | _, _ => env

mutual

def Stmt.behavior (ops : Operators) : Stmt → Behavior
  | .assign _ targets values => .becomes fun env =>
    env.assignAll (targets.map Expr.assigned)
      (adjust targets.length (values.map (Expr.eval ops env)))
  | .declare _ names values => .becomes fun env =>
    env.declare (names.map (·.name)) (adjust names.length (values.map (Expr.eval ops env)))
  | .scope _ body => .block (Stmt.behaviorAll ops body)
  | .while _ cond body => .whileLoop (fun env => (cond.eval ops env).isTruthy)
      (.block (Stmt.behaviorAll ops body))
  | .repeat _ body cond =>
    .repeatLoop (Stmt.behaviorAll ops body) fun env => (cond.eval ops env).isTruthy
  | .cond _ test body otherwise =>
    .branch (fun env => (test.eval ops env).isTruthy) (.block (Stmt.behaviorAll ops body))
      (otherwise.behavior ops)
  | .numericFor _ name first limit step body =>
    .numericLoop ops name.name (Stmt.behaviorAll ops body) (first.eval ops ·) (limit.eval ops ·)
      fun env => (step.map (Expr.eval ops env)).getD (.integer 1)
  | .return _ values => .returns fun env => values.map (Expr.eval ops env)
  | .break _ => .breaks
  | _ => fun _ _ _ => False

def Stmt.behaviorAll (ops : Operators) : List Stmt → Behavior
  | [] => .becomes id
  | s :: rest => .seq (s.behavior ops) (Stmt.behaviorAll ops rest)

def Otherwise.behavior (ops : Operators) : Otherwise → Behavior
  | .none => .becomes id
  | .elseIf _ test body otherwise =>
    .branch (fun env => (test.eval ops env).isTruthy) (.block (Stmt.behaviorAll ops body))
      (otherwise.behavior ops)
  | .block _ body => .block (Stmt.behaviorAll ops body)

end

/-- The values that a program returns, which are none if it runs off its end. -/
def SourceTree.Yields (ops : Operators) (tree : SourceTree) (values : List Value) : Prop :=
  ∃ env, Stmt.behaviorAll ops tree.body [] env (.returned values) ∨
    (Stmt.behaviorAll ops tree.body [] env .normal ∧ values = [])

def Expr.isSimple (scope : List Bytes) : Expr → Bool
  | .ident id => scope.contains id.name
  | .nil _ | .bool .. | .number .. | .string .. => true
  | .binary _ _ left right => left.isSimple scope && right.isSimple scope
  | .unary _ _ operand => operand.isSimple scope
  | .paren _ inner => inner.isSimple scope
  | _ => false

def Expr.isVariable (scope : List Bytes) : Expr → Bool
  | .ident id => scope.contains id.name
  | _ => false

def Stmt.scopeBehind (scope : List Bytes) : Stmt → List Bytes
  | .declare _ names _ => (names.map (·.name)).reverse ++ scope
  | _ => scope

mutual

def Stmt.isStructured (scope : List Bytes) : Stmt → Bool
  | .assign _ targets values =>
    targets.all (·.isVariable scope) && values.all (·.isSimple scope)
  | .declare _ _ values => values.all (·.isSimple scope)
  | .scope _ body => Stmt.areStructured scope body
  | .while _ cond body => cond.isSimple scope && Stmt.areStructured scope body
  | .repeat _ body cond =>
    Stmt.areStructured scope body && cond.isSimple (body.foldl Stmt.scopeBehind scope)
  | .cond _ test body otherwise =>
    test.isSimple scope && Stmt.areStructured scope body && otherwise.isStructured scope
  | .numericFor _ name first limit step body =>
    first.isSimple scope && limit.isSimple scope && step.all (·.isSimple scope) &&
      Stmt.areStructured (name.name :: scope) body
  | .return _ values => values.all (·.isSimple scope)
  | .break _ => true
  | _ => false

def Stmt.areStructured (scope : List Bytes) : List Stmt → Bool
  | [] => true
  | s :: rest => s.isStructured scope && Stmt.areStructured (s.scopeBehind scope) rest

def Otherwise.isStructured (scope : List Bytes) : Otherwise → Bool
  | .none => true
  | .elseIf _ test body otherwise =>
    test.isSimple scope && Stmt.areStructured scope body && otherwise.isStructured scope
  | .block _ body => Stmt.areStructured scope body

end

end LuaBytecode
