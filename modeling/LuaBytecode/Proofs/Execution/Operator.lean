import LuaBytecode.Compile
import LuaBytecode.Proofs.Execution.Piece
import LuaBytecode.Proofs.Generator.Expression

namespace LuaBytecode

open Generator Draft Gen Operand Regs Machine OpCode

variable {ρ' ρ : Regs} {x y r' m r dst : Nat} {op : BinaryOp} {w : Value} {l : Link}
  {ops : Operators} {f : Prototype} {names : Names} {v a b : Env → Value} {g : Generator}
  {fresh : Bool}

def Regs.Gets (names : Names) (v : Env → Value) (dst r : Nat) (ρ ρ' : Regs) : Prop :=
  ρ' dst = v (ρ.env names) ∧ ρ.Agrees (some dst) r ρ'

def Regs.Finds (names : Names) (v : Env → Value) (kept : Option Nat) (arg r : Nat)
    (ρ ρ' : Regs) : Prop :=
  ρ' arg = v (ρ.env names) ∧ ρ.Agrees kept r ρ'

def Regs.Offers (f : Prototype) (names : Names) (v : Env → Value)
    (kept : Option Nat) (arg r r' : Nat) (ρ ρ' : Regs) : Prop :=
  OperandIs f r' arg (v (ρ.env names)) ρ' ∧ ρ.Agrees kept r ρ'

section Means

variable (ops : Operators) (f : Prototype) (names : Names)

def Gen.Pushes (v : Env → Value) (piece : Gen Unit) : Prop :=
  ∀ {g : Generator} {m r : Nat}, g.Stands m names .plain r →
    Meets True g piece fun _ => g.Computes ops f (Finds names v none r r) m (r + 1)

def Gen.Tests (v : Env → Value) (branch : Bool → Gen (List Nat)) : Prop :=
  ∀ {g : Generator} {m r : Nat} (wanted : Bool), g.Stands m names .plain r →
    Meets True g (branch wanted) fun js g' =>
      (js ≠ [] → g.code.size < g'.code.size) ∧
      ∀ T, g.Evaluates f (aim js T) m .plain r g'
        (g.Branches ops f (fun ρ => (v (ρ.env names)).isTruthy == wanted)
          (Agrees none r) T g'.toDraft)

structure ExprCode.Means (v : Env → Value) (e : ExprCode) : Prop where
  constant : ∀ w, e.constant = some w → ∀ env, v env = w
  numeral : ∀ w, e.numeral = some w → ∀ env, v env = w
  name : ∀ x, e.name = some x → some x ∈ names ∧ ∀ env, v env = env.lookup x
  body : e.constant = none → ∀ {g : Generator} {m r dst : Nat} {fresh : Bool},
    g.Stands m names .plain r → Dest names.length r dst fresh →
    Meets True g (e.body dst fresh) fun _ => g.Computes ops f (Gets names v dst r) m r
  branch : e.constant = none → ∀ branch, e.branch = some branch → Tests ops f names v branch
  results : e.results = none
  chain : e.chain = [] ∨ ∃ vs : List (Env → Value),
    List.Forall₂ (fun piece w => Pushes ops f names w piece) e.chain vs ∧
      ∀ env, v env = ops.join (vs.map (· env))

end Means

namespace ExprCode

variable {e : ExprCode}

section

variable (he : e.Means ops f names v)
include he

lemma Means.toReg (h : g.Stands m names .plain r) (hd : Dest names.length r dst fresh) :
    Meets True g (e.toReg dst fresh) fun _ =>
      g.Computes ops f (Gets names v dst r) m r := by
  refine (evaluates_setPos ops f h e.start).bind fun _ g1 h1 => ?_
  have hs1 := h1.stands h
  cases hc : e.constant with
  | some w =>
    refine (evaluates_loadValue ops f hs1 (hd.lt h.le) w).mono fun _ g2 h2 => ?_
    refine (h1.bind h2).mono fun ⟨hi, hl⟩ ρ => ?_
    refine ⟨ρ.set dst w, hi.goes (hl ρ), ?_, agrees_set w⟩
    rw [set_self, he.constant w hc]
  | none =>
    refine (he.body hc hs1 hd).mono fun _ g2 h2 => ?_
    exact (h1.bind h2).mono fun ⟨hi, hb⟩ ρ => (hb ρ).imp fun ρ' hρ' =>
      ⟨hi.goes hρ'.1, hρ'.2⟩

lemma Means.toTop (h : g.Stands m names .plain (r + 1)) (hr : names.length ≤ r) :
    Meets True g (e.toReg r true) fun _ =>
      g.Computes ops f (Finds names v none r r) m (r + 1) := by
  have hd : Dest names.length (r + 1) r true := ⟨rfl, hr⟩
  refine (he.toReg h hd).mono fun _ g' h' => h'.mono fun hP => hP.mono fun ρ ρ' hρ' =>
    ⟨hρ'.1, fun k hk _ => hρ'.2 k (Nat.lt_succ_of_lt hk) ?_⟩
  rintro ⟨⟩
  exact Nat.lt_irrefl _ hk

lemma Means.nextReg (h : g.Stands m names .plain r) : Meets True g e.nextReg fun k g' => k = r ∧
      g.Computes ops f (Finds names v none r r) m (r + 1) g' := by
  refine (evaluates_reserve ops f h 1).bind ?_
  rintro k g1 ⟨rfl, h1⟩
  refine (he.toTop (h1.stands h) h.le).bind fun _ g2 h2 => ?_
  refine meets_pure ⟨rfl, (h1.bind h2).mono fun ⟨hi, hP⟩ ρ => ?_⟩
  exact (hP ρ).imp fun ρ' hρ' => ⟨hi.goes hρ'.1, hρ'.2⟩

lemma Means.pushes : Pushes ops f names v (discard e.nextReg) :=
  fun h => (he.nextReg h).discard fun _ _ h' => h'.2

lemma Means.local? (h : g.Stands m names .plain r) :
    Meets True g e.local? fun o g' => g' = g ∧ ∀ k, o = some k → k < names.length ∧
      ∀ ρ : Regs, ρ k = v (ρ.env names) := by
  unfold ExprCode.local?
  split
  · next x hx =>
    obtain ⟨hm, hv⟩ := he.name x hx
    have hr := h.ready.sound.register_eq (by rw [h.names]; exact hm)
    rw [h.names] at hr
    simp only [Meets, Gen.register, hr]
    refine ⟨trivial, ?_⟩
    rintro _ ⟨⟩
    exact ⟨slotOf_lt hm, fun ρ => by rw [hv, lookup_env hm]⟩
  · exact meets_pure ⟨rfl, by simp⟩

lemma Means.anyReg (h : g.Stands m names .plain r) :
    Meets True g e.anyReg fun arg g' => ∃ r', Placed none names.length r arg r' ∧ arg < r' ∧
      g.Computes ops f (Finds names v none arg r) m r' g' := by
  refine (he.local? h).bind ?_
  rintro o _ ⟨rfl, ho⟩
  cases o with
  | some k =>
    obtain ⟨hk, hv⟩ := ho k rfl
    exact meets_pure ⟨r, .variable hk, Nat.lt_of_lt_of_le hk h.le,
      h.evaluates fun ρ => ⟨ρ, fun m hm => .falls .refl hm, hv ρ, .refl⟩⟩
  | none =>
    refine (evaluates_allocate ops f h).bind ?_
    rintro k g1 ⟨rfl, h1⟩
    refine (he.toTop (h1.stands h) h.le).bind fun _ g2 h2 => ?_
    refine meets_pure ⟨k + 1, .temporary, Nat.lt_succ_self k,
      (h1.bind h2).mono fun ⟨hi, hP⟩ ρ => ?_⟩
    exact (hP ρ).imp fun ρ' hρ' => ⟨hi.goes hρ'.1, hρ'.2⟩

lemma Means.operandReg (h : g.Stands m names .plain r)
    (hd : fresh = true → dst + 1 = r ∧ names.length ≤ dst) :
    Meets True g (e.operandReg dst fresh) fun arg g' => ∃ r',
      Placed (keptReg dst fresh) names.length r arg r' ∧ arg < r' ∧
      g.Computes ops f (Finds names v (keptReg dst fresh) arg r) m r' g' := by
  refine (he.local? h).bind ?_
  rintro o _ ⟨rfl, ho⟩
  cases o with
  | some k =>
    obtain ⟨hk, hv⟩ := ho k rfl
    exact meets_pure ⟨r, .variable hk, Nat.lt_of_lt_of_le hk h.le,
      h.evaluates fun ρ => ⟨ρ, fun m hm => .falls .refl hm, hv ρ, .refl⟩⟩
  | none =>
    cases fresh with
    | true =>
      have hds : Dest names.length r dst true := hd rfl
      exact (he.toReg h hds).bind fun _ g2 h2 =>
        meets_pure ⟨r, .kept rfl, hds.lt h.le, h2⟩
    | false =>
      refine (he.anyReg h).mono ?_
      rintro arg g2 ⟨r', hp, hlt, h2⟩
      exact ⟨r', Placed.weaken hp, hlt, h2⟩

end

lemma lt_of_evaluates {arg r' : Nat} {g' : Generator} {P : Prop} {o : Aims} {l : Link}
    (h : g.Evaluates f o m l r' g' P) (hlt : arg < r') : arg < 254 :=
  Nat.lt_of_lt_of_le (Nat.lt_of_lt_of_le hlt h.le_stack) h.stack_le

lemma offers_of_finds {kept : Option Nat} {arg r' : Nat} {ρ ρ' : Regs} (hlt : arg < r')
    (h256 : arg < 256) (h : ρ.Finds names v kept arg r ρ') :
    ρ.Offers f names v kept arg r r' ρ' :=
  ⟨by rw [← h.1]; exact operandIs_register hlt h256, h.2⟩

lemma Means.operand (he : e.Means ops f names v) (h : g.Stands m names .plain r) :
    Meets True g e.operand fun arg g' => ∃ r', Placed none names.length r arg r' ∧
      Fits g'.bounds arg ∧ g.Computes ops f (Offers f names v none arg r r') m r' g' := by
  unfold ExprCode.operand
  split
  · next w hw =>
    refine (evaluates_operandOfValue ops f h w).mono ?_
    rintro arg g' ⟨r', hp, hf, h'⟩
    refine ⟨r', hp, hf, h'.mono fun hP => hP.mono fun ρ ρ' hρ' => ⟨?_, hρ'.2⟩⟩
    rw [he.constant w hw]
    exact hρ'.1
  · refine (he.anyReg h).mono ?_
    rintro arg g' ⟨r', hp, hlt, h'⟩
    have h254 := lt_of_evaluates h' hlt
    exact ⟨r', hp, fits_of_lt h'.toReaches hlt, h'.mono fun hP => hP.mono fun ρ ρ' =>
      offers_of_finds hlt (by omega)⟩

lemma Means.leftOperand (he : e.Means ops f names v) (h : g.Stands m names .plain r)
    (hd : fresh = true → dst + 1 = r ∧ names.length ≤ dst) :
    Meets True g (e.leftOperand dst fresh) fun arg g' => ∃ r',
      Placed (keptReg dst fresh) names.length r arg r' ∧ Fits g'.bounds arg ∧
      g.Computes ops f (Offers f names v (keptReg dst fresh) arg r r') m r' g' := by
  unfold ExprCode.leftOperand
  split
  · next w hw =>
    refine (evaluates_operandOfValue ops f h w).mono ?_
    rintro arg g' ⟨r', hp, hf, h'⟩
    refine ⟨r', Placed.weaken hp, hf, h'.mono fun hP => hP.mono fun ρ ρ' hρ' => ⟨?_, hρ'.2.keep⟩⟩
    rw [he.constant w hw]
    exact hρ'.1
  · refine (he.operandReg h hd).mono ?_
    rintro arg g' ⟨r', hp, hlt, h'⟩
    have h254 := lt_of_evaluates h' hlt
    exact ⟨r', hp, fits_of_lt h'.toReaches hlt, h'.mono fun hP => hP.mono fun ρ ρ' =>
      offers_of_finds hlt (by omega)⟩

lemma evaluates_test {arg : Nat} (ops : Operators) (f : Prototype) (flag : Bool)
    (h : g.Stands m names .plain r) (ha : arg < g.bounds.stack) :
    Meets True g (emitABC .test arg 0 flag.toNat) fun _ g' => g.Evaluates f [] m .jump r g'
      (∀ ρ, Skips ops f g.toDraft g'.toDraft ρ ρ ((ρ arg).isTruthy == flag)) := by
  have hs := h.reaches.stack_le
  refine (evaluates_emitABC f .test arg 0 flag.toNat h rfl (by omega) (Nat.zero_le _) ?_ ?_ rfl
    (by simp)).mono fun _ g' h' => h'.mono ?_
  · cases flag <;> decide
  · constructor <;> simp [ha]
  · rintro ⟨i, hi, hP⟩ ρ
    refine hP.skips hi.op ?_
    cases flag <;> cases hv : (ρ arg).isTruthy <;>
      simp [Machine.execute, Machine.takes, hi.argA, hi.argC, hv]

lemma Means.test (he : e.Means ops f names v) : Tests ops f names v e.test := by
  intro g m r wanted h
  refine (he.anyReg h).bind ?_
  rintro arg g1 ⟨r', hp, hlt, h1⟩
  have hs1 := h1.stands h
  refine (evaluates_setPos ops f hs1 e.start).bind fun _ g2 h2 => ?_
  have hs2 := h2.stands hs1
  refine (evaluates_free ops f hs2 hp hlt h.le).bind fun _ g3 h3 => ?_
  have hs3 := h3.stands hs2
  have har : arg < g3.bounds.stack := Nat.lt_of_lt_of_le (Nat.lt_of_lt_of_le hlt h2.le_stack)
      h3.frame.bounds.stack
  refine (evaluates_test ops f wanted hs3 har).discard_bind fun _ g4 h4 => ?_
  refine (evaluates_jump ops f (h4.stands hs3) (.inr rfl)).mono ?_
  rintro js g5 ⟨hs, h5⟩
  have hle := (h1.bind (h2.bind (h3.bind h4))).traces.frame.size
  refine ⟨fun _ => by omega, fun T => (h1.bind (h2.bind (h3.bind (h4.bind (h5 T))))).mono ?_⟩
  rintro ⟨ha, hi2, hi3, ht, hj⟩
  refine ((ha.idle hi2).idle hi3).branch fun ρ ρ' hρ' => ⟨ρ', hρ'.2, ?_⟩
  rw [← hρ'.1]
  exact ht ρ' T _ hj

lemma evaluates_jumpIfValue (ops : Operators) (f : Prototype) (w : Value) (wanted : Bool)
    (h : g.Stands m names .plain r) :
    Meets True g (jumpIfValue w wanted) fun js g' =>
      (js ≠ [] → g.code.size < g'.code.size) ∧
      ∀ T, g.Evaluates f (aim js T) m .plain r g' (g.Branches ops f
        (fun _ => w.isTruthy == wanted) (Agrees none r) T g'.toDraft) := by
  unfold jumpIfValue
  split
  · next heq =>
    refine (evaluates_jump ops f h (.inl rfl)).mono ?_
    rintro js g1 ⟨hs, h1⟩
    refine ⟨fun _ => by omega, fun T => (h1 T).mono fun hP ρ => ?_⟩
    exact ⟨ρ, .refl, fun _ => hP.moves ρ, by simp [heq]⟩
  · next hne =>
    exact meets_pure ⟨by simp, fun T => h.evaluates fun ρ =>
      ⟨ρ, .refl, by simp [hne], fun _ m hm => .falls .refl hm⟩⟩

lemma Means.jumpIf (he : e.Means ops f names v) : Tests ops f names v e.jumpIf := by
  intro g m r wanted h
  refine (evaluates_setPos ops f h e.start).bind fun _ g1 h1 => ?_
  have hs1 := h1.stands h
  have hbe : ∀ {x : Gen (List Nat)}, (Meets True g1 x fun js g' =>
      (js ≠ [] → g1.code.size < g'.code.size) ∧ ∀ T,
      g1.Evaluates f (aim js T) m .plain r g' (g1.Branches ops f
        (fun ρ => (v (ρ.env names)).isTruthy == wanted) (Agrees none r) T g'.toDraft)) →
      Meets True g1 x fun js g' => (js ≠ [] → g.code.size < g'.code.size) ∧ ∀ T,
        g.Evaluates f (aim js T) m .plain r g'
          (g.Branches ops f (fun ρ => (v (ρ.env names)).isTruthy == wanted)
            (Agrees none r) T g'.toDraft) := by
    intro x hx
    exact hx.mono fun js g2 h2 => ⟨fun hne => Nat.lt_of_le_of_lt h1.traces.frame.size (h2.1 hne),
      fun T => (h1.bind (h2.2 T)).mono fun ⟨hi, hP⟩ => hi.branches hP⟩
  cases hc : e.constant with
  | some w =>
    refine hbe ((evaluates_jumpIfValue ops f w wanted hs1).mono fun js g2 h2 => ?_)
    simp only [he.constant w hc]
    exact h2
  | none =>
    cases hb : e.branch with
    | some branch => exact hbe (he.branch hc branch hb wanted hs1)
    | none => exact hbe (he.test wanted hs1)

lemma Means.operands (he : e.Means ops f names v) : ∃ vs : List (Env → Value), vs ≠ [] ∧
    List.Forall₂ (fun piece w => Pushes ops f names w piece) e.operands vs ∧
      ∀ env, v env = ops.join (vs.map (· env)) := by
  unfold ExprCode.operands
  split
  · exact ⟨[v], by simp, .cons he.pushes .nil, fun _ => rfl⟩
  · next hne =>
    rcases he.chain with hn | ⟨vs, ha, hv⟩
    · simp [hn] at hne
    · refine ⟨vs, ?_, ha, hv⟩
      rintro rfl
      simp [List.forall₂_nil_right_iff.mp ha] at hne

end ExprCode

lemma Dest.names_le (h : Dest names.length r dst fresh) :
    ∀ k, keptReg dst fresh = some k → names.length ≤ k := by
  cases fresh with
  | true =>
    rintro _ ⟨⟩
    exact h.2
  | false => rintro _ ⟨⟩

lemma Regs.Agrees.kept (h : ρ.Agrees (keptReg dst fresh) r ρ') : ρ.Agrees (some dst) r ρ' := by
  cases fresh with
  | true => exact h
  | false => exact Agrees.keep h

lemma Regs.gets_set (h : ρ.Agrees (some dst) r ρ') (hw : w = v (ρ.env names)) :
    ρ.Gets names v dst r (ρ'.set dst w) :=
  ⟨by rw [set_self, hw], h.trans (agrees_set w)⟩

namespace Gen

lemma resolve_local {x : Bytes} (h : g.Stands m names l r) (hx : some x ∈ names) :
    resolve x g = .ok (.local (slotOf x names), g) := by
  have hr := h.ready.sound.register_eq (by rw [h.names]; exact hx)
  rw [h.names] at hr
  simp [resolve, Draft.resolve, hr]

lemma evaluates_move {src : Nat} (ops : Operators) (f : Prototype) (h : g.Stands m names .plain r)
    (hd : dst < r) (hs : src < r) :
    Meets True g (emitABC .move dst src 0) fun _ g' => g.Evaluates f [] m .plain r g'
      (∀ ρ, g.Goes ops f ρ g'.toDraft (ρ.set dst (ρ src))) := by
  have hle := h.reaches.le_stack
  have hm := h.reaches.stack_le
  refine (evaluates_emitABC f .move dst src 0 h rfl (by omega) (by omega) (Nat.zero_le _)
    (fits_move (by simp) (by omega) (by omega)) rfl (by simp)).mono fun _ g' h' => ?_
  refine h'.mono fun ⟨i, hi, hP⟩ ρ => hP.goes hi.op ?_
  simp [execute, write, hi.argA, hi.argB]

lemma evaluates_loadName {x : Bytes} (ops : Operators) (f : Prototype)
    (h : g.Stands m names .plain r) (hx : some x ∈ names) (hd : dst < r) :
    Meets True g (loadName x dst) fun _ =>
      g.Computes ops f (Gets names (·.lookup x) dst r) m r := by
  have hlt := slotOf_lt hx
  have hle := h.le
  have hr := resolve_local h hx
  refine Meets.bind (P := fun w g' => w = .local (slotOf x names) ∧ g' = g) (by simp [Meets, hr]) ?_
  rintro _ _ ⟨rfl, rfl⟩
  simp only
  split
  · next heq =>
    refine meets_pure (h.evaluates fun ρ => ⟨ρ, fun m hm => .falls .refl hm, ?_, .refl⟩)
    exact (by rw [lookup_env hx, heq] : ρ dst = (ρ.env names).lookup x)
  · refine (evaluates_move ops f h hd (by omega)).discard fun _ g' h' => h'.mono fun hP ρ => ?_
    exact ⟨_, hP ρ, gets_set .refl (by rw [lookup_env hx])⟩

end Gen

namespace ExprCode

lemma ofName_means {id : Ident} (hx : some id.name ∈ names) :
    (ofName id).Means ops f names (·.lookup id.name) where
  constant := nofun
  numeral := nofun
  name x hx' := by
    cases hx'
    exact ⟨hx, fun _ => rfl⟩
  body _ _ _ _ _ _ h hd := evaluates_loadName ops f h hx (hd.lt h.le)
  branch := nofun
  results := rfl
  chain := .inl rfl

lemma ofLiteral_means (start : Position) {value : Except CompileCause Value}
    (hv : ∀ w, value = .ok w → ∀ env, v env = w) : (ofLiteral start value).Means ops f names v := by
  cases value with
  | ok w =>
    exact
      { constant := fun _ hc => by
          cases hc
          exact hv w rfl
        numeral := nofun
        name := nofun
        body := nofun
        branch := nofun
        results := rfl
        chain := .inl rfl }
  | error cause =>
    exact
      { constant := nofun
        numeral := nofun
        name := nofun
        body := fun _ _ _ _ _ _ _ _ => meets_fail fun _ => trivial
        branch := nofun
        results := rfl
        chain := .inl rfl }

lemma ofNumber_means (start : Position) (raw : Bytes) : (ofNumber start raw).Means ops f names
      fun _ => ((parseNumeral? raw).map Value.ofNumber).getD .nil := by
  have h : (ofLiteral start (((parseNumeral? raw).map Value.ofNumber).elim
      (.error (.malformedNumber raw)) .ok)).Means ops f names
        fun _ => ((parseNumeral? raw).map Value.ofNumber).getD .nil := by
    refine ofLiteral_means start fun w hw _ => ?_
    cases hn : (parseNumeral? raw).map Value.ofNumber with
    | none => simp [hn] at hw
    | some n =>
      simp only [hn, Option.elim_some, Except.ok.injEq] at hw
      exact hw
  refine ⟨h.constant, fun w hw _ => ?_, h.name, h.body, h.branch, h.results, h.chain⟩
  have hw : (parseNumeral? raw).map Value.ofNumber = some w := hw
  rw [hw]
  rfl

lemma ofString_means (start : Position) (raw : Bytes) (long : Bool) :
    (ofString start raw long).Means ops f names
      fun _ => ((stringValue raw long).toOption.map Value.string).getD .nil := by
  refine ofLiteral_means start fun w hw _ => ?_
  cases hs : stringValue raw long with
  | error e => simp [hs, Except.map, Except.mapError] at hw
  | ok s =>
    simp only [hs, Except.map, Except.mapError, Except.ok.injEq] at hw
    simpa [Except.toOption] using hw

lemma ofParen_means {start : Position} {inner : ExprCode} (h : inner.Means ops f names v) :
    (ofParen start inner).Means ops f names v where
  constant := h.constant
  numeral := h.numeral
  name := nofun
  body _ _ _ _ _ _ := h.toReg
  branch _ _ hb := by
    cases hb
    exact h.jumpIf
  results := rfl
  chain := .inl rfl

lemma ofFolded_means {start : Position} {folded : Except FoldingFault (Option Value)}
    {code : Option Value → ExprCode}
    (h : ∀ o, folded = .ok o → (code o).Means ops f names v) :
    (ofFolded start folded code).Means ops f names v := by
  cases folded with
  | ok o => exact h o rfl
  | error e =>
    exact
      { constant := nofun
        numeral := nofun
        name := nofun
        body := fun _ _ _ _ _ _ _ _ => meets_fault trivial
        branch := fun _ _ hb => by
          cases hb
          exact fun _ _ => meets_fault trivial
        results := rfl
        chain := .inl rfl }

section Unary

variable {op : UnaryOp} {operand : ExprCode}

lemma foldedUnary_value (hop : ops.Folds) (ho : operand.Means ops f names a)
    (h : foldedUnary op operand = .ok (some w)) (env : Env) : ops.applyUnary op (a env) = w := by
  unfold foldedUnary at h
  split at h
  · next n hn =>
    rw [ho.numeral n hn env]
    exact hop.unary .neg n w (.inl rfl) h
  · next n hn =>
    rw [ho.numeral n hn env]
    exact hop.unary .bnot n w (.inr rfl) h
  · cases h

lemma evaluates_unary {arg : Nat} (op : UnaryOp) (ops : Operators) (f : Prototype)
    (h : g.Stands m names .plain r') (hd : dst < r') (ha : arg < r') :
    Meets True g (emitABC op.opCode dst arg 0) fun _ g' => g.Evaluates f [] m .plain r' g'
      (∀ ρ, g.Goes ops f ρ g'.toDraft (ρ.set dst (ops.applyUnary op (ρ arg)))) := by
  have hc : op.opCode ∈ [OpCode.move, .unm, .bnot, .not, .len] ∧ op.opCode.mode = .abc ∧
      op.opCode.before arg = .plain ∧ op.opCode.after arg 0 = .plain ∧ op.opCode ≠ .loadNil := by
    cases op <;> exact ⟨by decide, rfl, rfl, rfl, by decide⟩
  obtain ⟨hme, hm, hb, haf, hn⟩ := hc
  have hs := h.reaches.le_stack
  have hs' := h.reaches.stack_le
  refine (evaluates_emitABC f op.opCode dst arg 0 h hm (by omega) (by omega) (Nat.zero_le _)
    (fits_move hme (by omega) (by omega)) hb hn).mono fun _ g' h' => ?_
  rw [haf] at h'
  refine h'.mono fun ⟨i, hi, hP⟩ ρ => hP.goes hi.op ?_
  cases op <;> simp [UnaryOp.opCode, execute, write, Operators.applyUnary, hi.argA, hi.argB]

lemma ofUnary_means {start : Position} (hops : ops.Folds) (ho : operand.Means ops f names a) :
    (ofUnary start op operand).Means ops f names fun env => ops.applyUnary op (a env) := by
  refine ofFolded_means fun numeral hfo => ?_
  have hnu : ∀ w, numeral = some w → ∀ env, ops.applyUnary op (a env) = w := by
    rintro w rfl
    exact foldedUnary_value hops ho hfo
  exact
    { constant := fun w hc env => by
        split at hc
        · next hn =>
          obtain ⟨c, hc', rfl⟩ := Option.map_eq_some_iff.mp hc
          rw [ho.constant c hc' env, hn]
          rfl
        · exact hnu w hc env
      numeral := hnu
      name := nofun
      body := fun _ g m r dst fresh h hd => by
        have hds := hd.lt h.le
        refine (ho.operandReg h hd.fresh).bind ?_
        rintro arg g1 ⟨r', hp, hlt, h1⟩
        have hs1 := h1.stands h
        have hle := hp.le
        refine (evaluates_setPos ops f hs1 start).bind fun _ g2 h2 => ?_
        have hs2 := h2.stands hs1
        refine (evaluates_unary op ops f hs2 (by omega) hlt).discard_bind fun _ g3 h3 => ?_
        refine (evaluates_freeUnless ops f (h3.stands hs2) hp hlt hds h.le).mono fun _ g4 h4 => ?_
        refine (h1.bind (h2.bind (h3.bind h4))).mono fun ⟨hf, hi, hop, hfr⟩ => ?_
        refine ((hf.idle hi).then fun ρ ρ' hρ' => ⟨_, hop ρ', ?_⟩).idle hfr
        exact gets_set hρ'.2.kept (by rw [hρ'.1])
      branch := fun _ branch hb => by
        split at hb
        · next hn =>
          cases hb
          intro g m r wanted h
          refine (ho.jumpIf (!wanted) h).mono fun js g' h' => ⟨h'.1, fun T => ?_⟩
          have hco : ∀ ρ : Regs, ((a (ρ.env names)).isTruthy == !wanted) =
              ((ops.applyUnary op (a (ρ.env names))).isTruthy == wanted) := by
            intro ρ
            rw [hn, Operators.applyUnary]
            cases (a (ρ.env names)).isTruthy <;> cases wanted <;> rfl
          simpa only [hco] using h'.2 T
        · cases hb
      results := rfl
      chain := .inl rfl }

end Unary

section Binary

variable {left right : ExprCode}

def Pairs (f : Prototype) (names : Names) (a b : Env → Value) (kept : Option Nat)
    (x y r r' : Nat) (ρ ρ' : Regs) : Prop :=
  OperandIs f r' x (a (ρ.env names)) ρ' ∧ OperandIs f r' y (b (ρ.env names)) ρ' ∧ ρ.Agrees kept r ρ'

lemma Pairs.swap {kept : Option Nat} (h : Pairs f names a b kept x y r r' ρ ρ') :
    Pairs f names b a kept y x r r' ρ ρ' :=
  ⟨h.2.1, h.1, h.2.2⟩

lemma computes_pairs {d d' d'' : Draft} {kept : Option Nat} {r1 r2 : Nat}
    (h : d.Computes ops f (Offers f names a kept x r r1) d')
    (h' : d'.Computes ops f (Offers f names b none y r1 r2) d'') (hn : names.length ≤ r)
    (hk : ∀ k, kept = some k → names.length ≤ k) (hle : r ≤ r1) (hle' : r1 ≤ r2) :
    d.Computes ops f (Pairs f names a b kept x y r r2) d'' := by
  refine h.then fun ρ ρ' hρ' => (h' ρ').imp fun ρ'' hρ'' => ⟨hρ''.1, ?_⟩
  obtain ⟨-, hy, ha⟩ := hρ''
  refine ⟨(hρ'.1.agrees ha).mono hle', ?_, hρ'.2.trans (ha.mono hle).keep⟩
  rw [← hρ'.2.env hn hk]
  exact hy

lemma Means.arithmeticOperands (hl : left.Means ops f names a) (hr : right.Means ops f names b)
    (h : g.Stands m names .plain r) (hd : Dest names.length r dst fresh) :
    Meets True g (arithmeticOperands left right dst fresh) fun args g' => ∃ r',
      Fits g'.bounds args.1 ∧ Fits g'.bounds args.2 ∧
      PairPlaced (some dst) names.length r args.1 args.2 r' ∧
      g.Computes ops f (Pairs f names a b (some dst) args.1 args.2 r r') m r' g' := by
  unfold ExprCode.arithmeticOperands
  split
  · refine (hr.operand h).bind ?_
    rintro c g1 ⟨r1, hp1, hf1, h1⟩
    refine (hl.operand (h1.stands h)).bind ?_
    rintro b g2 ⟨r2, hp2, hf2, h2⟩
    refine meets_pure ⟨r2, hf2, hf1.mono h2.frame.bounds,
      ⟨c, b, r1, Placed.weaken hp1, Placed.weaken hp2, .inr ⟨rfl, rfl⟩⟩, (h1.bind h2).mono ?_⟩
    rintro ⟨hx, hy⟩
    refine (computes_pairs hx hy h.le (by simp) hp1.le hp2.le).mono fun ρ ρ' hρ' => ?_
    exact ⟨hρ'.2.1, hρ'.1, hρ'.2.2.keep⟩
  · refine (hl.leftOperand h hd.fresh).bind ?_
    rintro b g1 ⟨r1, hp1, hf1, h1⟩
    refine (hr.operand (h1.stands h)).bind ?_
    rintro c g2 ⟨r2, hp2, hf2, h2⟩
    refine meets_pure ⟨r2, hf1.mono h2.frame.bounds, hf2,
      ⟨b, c, r1, hp1.keep, Placed.weaken hp2, .inl ⟨rfl, rfl⟩⟩, (h1.bind h2).mono ?_⟩
    rintro ⟨hx, hy⟩
    refine (computes_pairs hx hy h.le hd.names_le hp1.le hp2.le).mono fun ρ ρ' hρ' => ?_
    exact ⟨hρ'.1, hρ'.2.1, hρ'.2.2.kept⟩

lemma foldedBinary_value (ho : ops.Folds) {code : OpCode} (hop : op.arithmetic? = some code)
    (hl : left.Means ops f names a) (hr : right.Means ops f names b)
    (h : foldedBinary code left right = .ok (some w)) (env : Env) :
    ops.binary code (a env) (b env) = w := by
  unfold foldedBinary at h
  split at h
  · next x y hx hy =>
    rw [hl.numeral x hx env, hr.numeral y hy env]
    exact ho.binary op code x y w hop h
  · cases h

lemma evaluates_arithmetic {op : OpCode} (ops : Operators) (f : Prototype)
    (hop : op ∈ arithmetic) (h : g.Stands m names .plain r') (hd : dst < r')
    (hx : Fits g.bounds x) (hy : Fits g.bounds y) :
    Meets True g (emitABC op dst x y) fun _ g' => g.Evaluates f [] m .plain r' g'
      (∀ ρ u w, f.operand? ρ x = some u → f.operand? ρ y = some w →
        g.Goes ops f ρ g'.toDraft (ρ.set dst (ops.binary op u w))) := by
  have hc : op.mode = .abc ∧ op.before x = .plain ∧ op.after x y = .plain ∧ op ≠ .loadNil := by
    revert hop
    cases op <;> simp [arithmetic, before, after] <;> rfl
  obtain ⟨hm, hb, ha, hn⟩ := hc
  have hs := h.reaches.le_stack
  have hs' := h.reaches.stack_le
  refine (evaluates_emitABC f op dst x y h hm (by omega) hx.le hy.le
    (fits_arithmetic hop (by omega) hx hy) hb hn).mono fun _ g' h' => ?_
  rw [ha] at h'
  refine h'.mono ?_
  rintro ⟨i, hi, hP⟩ ρ u w hu hw
  refine hP.goes hi.op ?_
  revert hop
  cases op <;> simp [arithmetic, execute, write, hi.argA, hi.argB, hi.argC, hu, hw]

lemma ofArithmetic_means {start : Position} (ho : ops.Folds) {code : OpCode}
    (hop : op.arithmetic? = some code) (hl : left.Means ops f names a)
    (hr : right.Means ops f names b) : (ofArithmetic start code left right).Means ops f names
      fun env => ops.binary code (a env) (b env) := by
  refine ofFolded_means fun numeral hf => ?_
  have hn : ∀ w, numeral = some w → ∀ env, ops.binary code (a env) (b env) = w := by
    rintro w rfl
    exact foldedBinary_value ho hop hl hr hf
  exact
    { constant := hn
      numeral := hn
      name := nofun
      body := fun _ g m r dst fresh h hd => by
        have hds := hd.lt h.le
        refine (hl.arithmeticOperands hr h hd).bind ?_
        rintro ⟨x, y⟩ g1 ⟨r', hfx, hfy, ⟨p, q, mid, hp, hq, hpq⟩, h1⟩
        have hs1 := h1.stands h
        have hle := hp.le
        have hle' := hq.le
        refine (evaluates_setPos ops f hs1 start).bind fun _ g2 h2 => ?_
        have hs2 := h2.stands hs1
        have hb2 := h2.frame.bounds
        refine (evaluates_arithmetic ops f (BinaryOp.arithmetic?_mem hop) hs2 (by omega)
          (hfx.mono hb2) (hfy.mono hb2)).discard_bind fun _ g3 h3 => ?_
        refine (evaluates_freeOperands ops f (h3.stands hs2) hp hq hpq ?_ h.le).mono
          fun _ g4 h4 => ?_
        · rintro _ ⟨⟩
          exact hds
        · refine (h1.bind (h2.bind (h3.bind h4))).mono fun ⟨hpa, hi, hc, hfr⟩ => ?_
          refine ((hpa.idle hi).then fun ρ ρ' hρ' =>
            ⟨_, hc ρ' _ _ hρ'.1.self hρ'.2.1.self, ?_⟩).idle hfr
          exact gets_set hρ'.2.2 rfl
      branch := nofun
      results := rfl
      chain := .inl rfl }

section Comparison

def swapped (op : BinaryOp) (a b : Env → Value) : (Env → Value) × (Env → Value) :=
  if (comparison op).2.2 then (b, a) else (a, b)

def outcome (ops : Operators) (op : BinaryOp) (a b : Env → Value) (env : Env) : Bool :=
  ops.compare (comparison op).1 ((swapped op a b).1 env) ((swapped op a b).2 env) ==
    (comparison op).2.1

lemma Means.comparisonOperands (op : BinaryOp) (hl : left.Means ops f names a)
    (hr : right.Means ops f names b) (h : g.Stands m names .plain r)
    (hd : fresh = true → dst + 1 = r ∧ names.length ≤ dst) :
    Meets True g (comparisonOperands op left right dst fresh) fun args g' => ∃ r',
      Fits g'.bounds args.1 ∧ Fits g'.bounds args.2 ∧
      PairPlaced (keptReg dst fresh) names.length r args.1 args.2 r' ∧
      g.Computes ops f (Pairs f names (swapped op a b).1 (swapped op a b).2 (keptReg dst fresh)
        args.1 args.2 r r') m r' g' := by
  have hk : ∀ k, keptReg dst fresh = some k → names.length ≤ k := by
    intro k hk
    cases fresh with
    | true =>
      cases hk
      exact (hd rfl).2
    | false => cases hk
  refine (hl.leftOperand h hd).bind ?_
  rintro x g1 ⟨r1, hp1, hf1, h1⟩
  refine (hr.operand (h1.stands h)).bind ?_
  rintro y g2 ⟨r2, hp2, hf2, h2⟩
  have hf1' := hf1.mono h2.frame.bounds
  have hp := (h1.bind h2).mono fun ⟨hx, hy⟩ => computes_pairs hx hy h.le hk hp1.le hp2.le
  unfold swapped
  split
  · exact ⟨r2, hf2, hf1', ⟨x, y, r1, hp1, Placed.weaken hp2, .inr ⟨rfl, rfl⟩⟩,
      hp.mono fun hP => hP.mono fun ρ ρ' => Pairs.swap⟩
  · exact ⟨r2, hf1', hf2, ⟨x, y, r1, hp1, Placed.weaken hp2, .inl ⟨rfl, rfl⟩⟩, hp⟩

lemma evaluates_compare {code : OpCode} (ops : Operators) (f : Prototype)
    (hop : code ∈ [eq, .lt, .le]) (flag : Bool) (h : g.Stands m names .plain r)
    (hx : Fits g.bounds x) (hy : Fits g.bounds y) :
    Meets True g (emitABC code flag.toNat x y) fun _ g' => g.Evaluates f [] m .jump r g'
      (∀ ρ u w, f.operand? ρ x = some u → f.operand? ρ y = some w →
        Skips ops f g.toDraft g'.toDraft ρ ρ (ops.compare code u w == flag)) := by
  have hc : code.mode = .abc ∧ code.before x = .plain ∧ code.after x y = .jump ∧
      code ≠ .loadNil := by
    revert hop
    cases code <;> simp [before, after] <;> rfl
  obtain ⟨hm, hb, ha, hn⟩ := hc
  refine (evaluates_emitABC f code flag.toNat x y h hm (by cases flag <;> decide) hx.le hy.le
    (fits_comparison hop hx hy) hb hn).mono fun _ g' h' => ?_
  rw [ha] at h'
  refine h'.mono ?_
  rintro ⟨i, hi, hP⟩ ρ u w hu hw
  refine hP.skips hi.op ?_
  have he : execute ops f ⟨g.code.size, ρ⟩ i code =
      some (takes ⟨g.code.size, ρ⟩ (ops.compare code u w = flag)) := by
    revert hop
    cases code <;> simp [execute, hi.argA, hi.argB, hi.argC, hu, hw]
  rw [he]
  cases ops.compare code u w <;> cases flag <;> rfl

lemma evaluates_loadBool (value skip : Bool) (f : Prototype) (h : g.Stands m names l r)
    (hds : dst < r) (hl : l = .plain ∨ l = .bool) :
    Meets True g (emitABC .loadBool dst value.toNat skip.toNat) fun _ g' =>
      g.Evaluates f [] m (if skip then .bool else .plain) r g' (∃ i,
        i.IsABC .loadBool dst value.toNat skip.toNat ∧ Performs f g.toDraft g'.toDraft i) := by
  have hs := h.reaches.le_stack
  have hs' := h.reaches.stack_le
  refine (evaluates_emitABC f .loadBool dst value.toNat skip.toNat h rfl (by omega)
    (by cases value <;> decide) (by cases skip <;> decide) ?_ ?_ (by simp)).mono fun _ _ h' => ?_
  · have hd : dst < g.bounds.stack := by omega
    constructor <;> simp [hd]
  · rcases hl with rfl | rfl <;> rfl
  · cases skip <;> exact h'

lemma evaluates_outcome (ops : Operators) (f : Prototype) (h : g.Stands m names .jump r)
    (hd : dst < r) :
    Meets True g (do
      let jumps ← jump
      discard label
      discard <| emitABC .loadBool dst 0 1
      patchTo jumps (← label)
      discard <| emitABC .loadBool dst 1 0
      discard label) fun _ g' => g.Evaluates f [] m .plain r g' (∀ (d : Draft) ρ taken,
        Skips ops f d g.toDraft ρ ρ taken →
        d.Goes ops f ρ g'.toDraft (ρ.set dst (.bool taken))) := by
  refine (evaluates_jump ops f h (.inr rfl)).bind ?_
  rintro js g1 ⟨-, h1⟩
  have hs1 := (h1 0).stands h
  refine (evaluates_label ops f hs1).discard_bind ?_
  rintro - g2 ⟨-, hsi2, -, h2⟩
  have hs2 := h2.stands hs1
  refine (evaluates_loadBool false true f hs2 hd (.inl rfl)).discard_bind fun _ g3 h3 => ?_
  have hs3 := h3.stands hs2
  refine (evaluates_label ops f hs3).bind ?_
  rintro k g4 ⟨rfl, hs4, -, h4⟩
  refine (evaluates_patchTo_here ops (fun T => (h1 T).bind (h2.bind (h3.bind h4))) hs4.symm).bind ?_
  rintro - g5 ⟨hc5, h5⟩
  have hs5 := h5.stands h
  refine (evaluates_loadBool true false f hs5 hd (.inr rfl)).discard_bind fun _ g6 h6 => ?_
  refine (evaluates_label ops f (h6.stands hs5)).discard ?_
  rintro - g7 ⟨-, -, -, h7⟩
  refine (h5.bind (h6.bind h7)).mono ?_
  rintro ⟨⟨T, ⟨hju, hi2, ⟨i, hi, hf⟩, hi4⟩, hl⟩, ⟨j, hj, ht⟩, hi7⟩ d ρ taken hs
  refine Goes.trans ?_ (hi7 _)
  have hfo := hs T g1.toDraft hju
  cases taken with
  | true =>
    refine fun m hm => (hl.jumps ρ m (hfo.jumps rfl m hm)).trans (ht.goes hj.op ?_)
    simp [execute, hj.argA, hj.argB, hj.argC]
  | false =>
    refine ((hfo.falls rfl).trans (hi2 ρ)).trans fun m hm => ?_
    cases hf.start ρ m hm
    -- The instruction skips the one that loads true.
    have he : g2.code.size + 2 = g6.code.size := by
      rw [ht.size, hc5, hs4, hf.size]
    refine .falls (.single (step_of hf.code hi.op ?_)) (at_of_lastNil? ht.last _)
    simp [execute, hi.argA, hi.argB, hi.argC, he]

lemma ofComparison_means {start : Position} (hl : left.Means ops f names a)
    (hr : right.Means ops f names b) :
    (ofComparison start op left right).Means ops f names
      fun env => .bool (outcome ops op a b env) where
  constant := nofun
  numeral := nofun
  name := nofun
  body _ g m r dst fresh h hd := by
    have hds := hd.lt h.le
    refine (hl.comparisonOperands op hr h hd.fresh).bind ?_
    rintro ⟨x, y⟩ g1 ⟨r', hfx, hfy, ⟨p, q, mid, hp, hq, hpq⟩, h1⟩
    have hs1 := h1.stands h
    refine (evaluates_setPos ops f hs1 start).bind fun _ g2 h2 => ?_
    have hs2 := h2.stands hs1
    refine (evaluates_freeOperands ops f hs2 hp.keep hq.keep hpq ?_ h.le).bind fun _ g3 h3 => ?_
    · rintro _ ⟨⟩
      exact hds
    have hs3 := h3.stands hs2
    have hb := h2.frame.bounds.trans h3.frame.bounds
    refine (evaluates_compare ops f (comparison_mem op) _ hs3 (hfx.mono hb)
      (hfy.mono hb)).discard_bind fun _ g4 h4 => ?_
    refine (evaluates_outcome ops f (h4.stands hs3) hds).mono fun _ g5 h5 => ?_
    refine (h1.bind (h2.bind (h3.bind (h4.bind h5)))).mono ?_
    rintro ⟨hpa, hi2, hi3, hcm, ho⟩
    refine ((hpa.idle hi2).idle hi3).then fun ρ ρ' hρ' =>
      ⟨_, ho _ ρ' _ (hcm ρ' _ _ hρ'.1.self hρ'.2.1.self), ?_⟩
    exact gets_set hρ'.2.2.kept rfl
  branch _ branch hb := by
    cases hb
    intro g m r wanted h
    refine (hl.comparisonOperands op hr h (fun hf => by cases hf)).bind ?_
    rintro ⟨x, y⟩ g1 ⟨r', hfx, hfy, ⟨p, q, mid, hp, hq, hpq⟩, h1⟩
    have hs1 := h1.stands h
    refine (evaluates_setPos ops f hs1 start).bind fun _ g2 h2 => ?_
    have hs2 := h2.stands hs1
    refine (evaluates_freeOperands ops f hs2 hp hq hpq (fun _ hf => by cases hf) h.le).bind
      fun _ g3 h3 => ?_
    have hs3 := h3.stands hs2
    have hb := h2.frame.bounds.trans h3.frame.bounds
    refine (evaluates_compare ops f (comparison_mem op) _ hs3 (hfx.mono hb)
      (hfy.mono hb)).discard_bind fun _ g4 h4 => ?_
    refine (evaluates_jump ops f (h4.stands hs3) (.inr rfl)).mono ?_
    rintro js g5 ⟨hs, h5⟩
    have hle := (h1.bind (h2.bind (h3.bind h4))).traces.frame.size
    refine ⟨fun _ => by omega, fun T => (h1.bind (h2.bind (h3.bind (h4.bind (h5 T))))).mono ?_⟩
    rintro ⟨hpa, hi2, hi3, hcm, hj⟩
    refine ((hpa.idle hi2).idle hi3).branch fun ρ ρ' hρ' => ⟨ρ', hρ'.2.2, ?_⟩
    have ht : ((Value.bool (outcome ops op a b (ρ.env names))).isTruthy == wanted) =
        (ops.compare (comparison op).1 ((swapped op a b).1 (ρ.env names))
          ((swapped op a b).2 (ρ.env names)) == ((comparison op).2.1 == wanted)) := by
      rw [outcome]
      cases ops.compare (comparison op).1 _ _ <;> cases (comparison op).2.1 <;>
        cases wanted <;> rfl
    rw [ht]
    exact hcm ρ' _ _ hρ'.1.self hρ'.2.1.self T _ hj
  results := rfl
  chain := .inl rfl

end Comparison

end Binary

end ExprCode

end LuaBytecode
