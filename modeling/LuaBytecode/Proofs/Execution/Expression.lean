import LuaBytecode.Proofs.Execution.Operator

namespace LuaBytecode

open Generator Draft Gen Operand ExprCode Regs

variable {ops : Operators} {f : Prototype} {names : Names} {v a b : Env → Value}
  {g : Generator} {m r dst : Nat} {fresh : Bool}

namespace ExprCode

variable {left right : ExprCode}

section Logical

variable {isOr : Bool}

def decided (isOr : Bool) (a b : Env → Value) (env : Env) : Value :=
  if (a env).isTruthy == isOr then a env else b env

lemma evaluates_decide {arg r' : Nat} (ops : Operators) (f : Prototype) (isOr : Bool)
    (h : g.Stands m names .plain r') (hp : Placed (keptReg dst fresh) names.length r arg r')
    (hlt : arg < r') (hds : dst < r) (hr : names.length ≤ r) {k : Unit → Gen Unit}
    {Q : Unit → Generator → Prop}
    (hk : ∀ g', g.Evaluates f [] m .jump r g' (∀ ρ, Skips ops f g.toDraft g'.toDraft ρ
        (if (ρ arg).isTruthy == isOr then ρ.set dst (ρ arg) else ρ)
        ((ρ arg).isTruthy == isOr)) → Meets True g' (k ()) Q) :
    Meets True g (if arg = dst then (do discard <| emitABC .test dst 0 isOr.toNat; k ())
      else (do free arg; discard <| emitABC .testSet dst arg isOr.toNat; k ())) Q := by
  have hs := h.reaches.le_stack
  split
  · next heq =>
    subst heq
    cases hp.top_eq hds
    refine (evaluates_test ops f isOr h (by omega)).discard_bind fun _ g1 h1 => hk g1 ?_
    simpa only [set_eq_self, ite_self] using h1
  · next hne =>
    refine (evaluates_free ops f h (hp.of_ne hne) hlt hr).bind fun _ g1 h1 => ?_
    have hs1 := h1.stands h
    have hst := h1.frame.bounds.stack
    have hm := h1.stack_le
    have hle := hp.le
    have hd : dst < g1.bounds.stack := by omega
    have ha : arg < g1.bounds.stack := by omega
    refine (evaluates_emitABC f .testSet dst arg isOr.toNat hs1 rfl (by omega) (by omega)
      (by cases isOr <;> decide) ?_ rfl (by simp)).discard_bind fun _ g2 h2 => hk g2 ?_
    · constructor <;>
        simp [hd, ha]
    · refine (h1.bind h2).mono ?_
      rintro ⟨hid, i, hi, hP⟩ ρ
      refine hid.skips (hP.skips hi.op ?_)
      cases isOr <;> cases hv : (ρ arg).isTruthy <;>
        simp [Machine.execute, Machine.takes, Machine.write, hi.argA, hi.argB, hi.argC, hv]

lemma evaluates_logical {start : Position} (hl : left.Means ops f names a)
    (hr : right.Means ops f names b) (h : g.Stands m names .plain r)
    (hd : Dest names.length r dst fresh) :
    Meets True g ((ofLogical start isOr left right).body dst fresh) fun _ =>
      g.Computes ops f (Gets names (decided isOr a b) dst r) m r := by
  have hds := hd.lt h.le
  refine (hl.operandReg h hd.fresh).bind ?_
  rintro arg g1 ⟨r', hp, hlt, h1⟩
  have hs1 := h1.stands h
  refine (evaluates_setPos ops f hs1 start).bind fun _ g2 h2 => ?_
  have hs2 := h2.stands hs1
  refine evaluates_decide
    (k := fun _ => do let done ← jump; right.toReg dst fresh; patchToHere done)
    ops f isOr hs2 hp hlt hds h.le fun g3 h3 => ?_
  refine (evaluates_jump ops f (h3.stands hs2) (.inr rfl)).bind ?_
  rintro js g4 ⟨-, h4⟩
  have hs4 := (h4 0).stands (h3.stands hs2)
  refine (hr.toReg hs4 hd).bind fun _ g5 h5 => meets_update ?_
  have ho : ∀ T, g.Evaluates f (aim js T ++ []) m .plain r g5 _ :=
    fun T => h1.bind (h2.bind (h3.bind ((h4 T).bind h5)))
  refine (Evaluates.patchToHere ops ho (by simp)).mono ?_
  rintro ⟨T, ⟨hf, hi, hs, hj, hri⟩, hla⟩
  refine (hf.idle hi).then fun ρ ρ1 hρ1 => ?_
  have he : ρ1.env names = ρ.env names := hρ1.2.env h.le hd.names_le
  have hde := hs ρ1 T g4.toDraft hj
  rw [hρ1.1] at hde
  cases ht : (a (ρ.env names)).isTruthy == isOr with
  | true =>
    simp only [ht, if_true] at hde
    refine ⟨_, fun m hm => hla.jumps _ m (hde.jumps rfl m hm), gets_set hρ1.2.kept ?_⟩
    rw [decided, if_pos ht]
  | false =>
    simp only [ht, Bool.false_eq_true, if_false] at hde
    obtain ⟨ρ2, hgo, hv, hk⟩ := hri ρ1
    refine ⟨ρ2, ((hde.falls rfl).trans hgo).trans (hla.falls ρ2), ?_, hρ1.2.kept.trans hk⟩
    rw [hv, he, decided, ht]
    rfl

lemma branches_either {d d' d'' : Draft} {T : Nat}
    (h : d.Branches ops f (fun ρ => (a (ρ.env names)).isTruthy == isOr) (Agrees none r) T d')
    (h' : d'.Branches ops f (fun ρ => (b (ρ.env names)).isTruthy == isOr)
      (Agrees none r) T d'') (hn : names.length ≤ r) :
    d.Branches ops f (fun ρ => (decided isOr a b (ρ.env names)).isTruthy == isOr)
      (Agrees none r) T d'' := by
  intro ρ
  obtain ⟨ρ1, ha1, hb1⟩ := h ρ
  obtain ⟨ρ2, ha2, hb2⟩ := h' ρ1
  simp only [ha1.env hn (by simp)] at hb2
  cases ht : (a (ρ.env names)).isTruthy == isOr with
  | true =>
    simp only [decided, ht, if_true]
    exact ⟨ρ1, ha1, fun _ => hb1.jumps ht, by simp⟩
  | false =>
    simp only [decided, ht, Bool.false_eq_true, if_false]
    exact ⟨ρ2, ha1.trans ha2, (hb1.falls ht).forks hb2⟩

lemma branches_both {d d' d'' d1 : Draft} {T T' : Nat}
    (h : d.Branches ops f (fun ρ => (a (ρ.env names)).isTruthy == isOr) (Agrees none r) T' d')
    (h' : d'.Branches ops f (fun ρ => (b (ρ.env names)).isTruthy == !isOr)
      (Agrees none r) T d'') (hl : Lands ops f d'' d1 T') (hn : names.length ≤ r) :
    d.Branches ops f (fun ρ => (decided isOr a b (ρ.env names)).isTruthy == !isOr)
      (Agrees none r) T d1 := by
  intro ρ
  obtain ⟨ρ1, ha1, hb1⟩ := h ρ
  obtain ⟨ρ2, ha2, hb2⟩ := h' ρ1
  simp only [ha1.env hn (by simp)] at hb2
  cases ht : (a (ρ.env names)).isTruthy == isOr with
  | true =>
    have hno : ((a (ρ.env names)).isTruthy == !isOr) = false := by
      rw [beq_iff_eq] at ht
      rw [ht]
      cases isOr <;> rfl
    simp only [decided, ht, if_true, hno]
    exact ⟨ρ1, ha1, by simp, fun _ m hm => hl.jumps ρ1 m (hb1.jumps ht m hm)⟩
  | false =>
    simp only [decided, ht, Bool.false_eq_true, if_false]
    have hfo := (hb1.falls ht).forks hb2
    exact ⟨ρ2, ha1.trans ha2, hfo.jumps, fun hf => (hfo.falls hf).trans (hl.falls ρ2)⟩

lemma grows_append {js js' : List Nat} {n n1 n2 : Nat} (h : n ≤ n1) (h' : n1 ≤ n2)
    (hj : js ≠ [] → n < n1) (hj' : js' ≠ [] → n1 < n2) : js ++ js' ≠ [] → n < n2 := by
  intro hne
  by_cases hn : js = []
  · exact Nat.lt_of_le_of_lt h (hj' (by simpa [hn] using hne))
  · exact Nat.lt_of_lt_of_le (hj hn) h'

lemma ofLogical_means {start : Position} (hl : left.Means ops f names a)
    (hr : right.Means ops f names b) :
    (ofLogical start isOr left right).Means ops f names (decided isOr a b) where
  constant := nofun
  numeral := nofun
  name := nofun
  body _ _ _ _ _ _ h hd := evaluates_logical hl hr h hd
  branch _ branch hb := by
    cases hb
    intro g m r wanted h
    by_cases heq : isOr = wanted
    · subst heq
      simp only [if_true]
      refine (hl.jumpIf isOr h).bind ?_
      rintro first g1 ⟨hg1, h1⟩
      refine (hr.jumpIf isOr ((h1 0).stands h)).bind ?_
      rintro second g2 ⟨hg2, h2⟩
      refine meets_pure ⟨grows_append (h1 0).traces.frame.size (h2 0).traces.frame.size hg1 hg2,
        fun T => ?_⟩
      rw [aim_append]
      exact ((h1 T).bind (h2 T)).mono fun ⟨ha, hb⟩ => branches_either ha hb h.le
    · obtain rfl : wanted = !isOr := by
        cases isOr <;> cases wanted <;> simp at heq ⊢
      simp only [heq, if_false, Bool.not_not]
      refine (hl.jumpIf isOr h).bind ?_
      rintro skip g1 ⟨-, h1⟩
      refine (hr.jumpIf (!isOr) ((h1 0).stands h)).bind ?_
      rintro js g2 ⟨hg, h2⟩
      refine meets_update_bind (meets_pure ⟨fun hne => ?_, fun T => ?_⟩)
      · exact Nat.lt_of_le_of_lt (h1 0).traces.frame.size (hg hne)
      have hdi : ∀ pc ∈ skip, pc ∉ (aim js T).places := by
        rw [places_aim]
        have hf := (h1 0).traces.opens
        have hs := (h2 0).traces.opens
        rw [places_aim] at hf hs
        exact hf.disjoint hs
      refine (Evaluates.patchToHere ops (fun T' => (h1 T').bind (h2 T)) hdi).mono ?_
      rintro ⟨T', ⟨ha, hb⟩, hla⟩
      exact branches_both ha hb hla h.le
  results := rfl
  chain := .inl rfl

end Logical

section Concat

variable {pieces : List (Gen Unit)} {vs : List (Env → Value)}

def Stacks (names : Names) (vs : List (Env → Value)) (r : Nat) (ρ ρ' : Regs) :
    Prop :=
  ρ'.range r vs.length = vs.map (· (ρ.env names)) ∧ ρ.Agrees none r ρ'

lemma Stacks.cons {w : Env → Value} {ρ ρ1 ρ2 : Regs} (h : ρ.Finds names w none r r ρ1)
    (h' : Stacks names vs (r + 1) ρ1 ρ2) (hn : names.length ≤ r) :
    Stacks names (w :: vs) r ρ ρ2 := by
  refine ⟨?_, h.2.trans (h'.2.mono (Nat.le_succ r))⟩
  have hr : ρ2.range r (vs.length + 1) = ρ2 r :: ρ2.range (r + 1) vs.length := by
    simp [range, List.range'_succ]
  rw [List.length_cons, hr, h'.1, h'.2.eq (Nat.lt_succ_self r), h.1, h.2.env hn (by simp),
    List.map_cons]

lemma evaluates_forM (hp : List.Forall₂ (fun piece w => Pushes ops f names w piece) pieces vs)
    (h : g.Stands m names .plain r) :
    Meets True g (pieces.forM id) fun _ =>
      g.Computes ops f (Stacks names vs r) m (r + vs.length) := by
  induction hp generalizing g r with
  | nil =>
    exact meets_pure (h.evaluates fun ρ => ⟨ρ, fun m hm => .falls .refl hm, rfl, .refl⟩)
  | @cons piece w rest ws hpi _ ih =>
    refine (hpi h).bind fun _ g1 h1 => (ih (h1.stands h)).mono fun _ g2 h2 => ?_
    rw [List.length_cons, show r + (ws.length + 1) = r + 1 + ws.length by omega]
    refine (h1.bind h2).mono fun ⟨hf, hr⟩ => hf.then fun ρ ρ1 hρ1 => ?_
    exact (hr ρ1).imp fun ρ2 hρ2 => ⟨hρ2.1, Stacks.cons hρ1 hρ2.2 h.le⟩

lemma evaluates_concatAt {start : Position} {top : Nat}
    (hp : List.Forall₂ (fun piece w => Pushes ops f names w piece) pieces vs)
    (h : g.Stands m names .plain r) (hl : 0 < pieces.length) (hd : dst < r + pieces.length)
    (ha : names.length ≤ top) (ht : top ≤ r + pieces.length) :
    Meets True g (do
      pieces.forM id
      setPos start
      discard <| emitABC .concat dst r (r + pieces.length - 1)
      setFirstFree top) fun _ =>
      g.Computes ops f (fun ρ ρ' => ∃ ρ1, ρ.Agrees none r ρ1 ∧
        ρ' = ρ1.set dst (ops.join (vs.map (· (ρ.env names))))) m top := by
  have hsa := hp.length_eq
  refine (evaluates_forM hp h).bind fun _ g1 h1 => ?_
  have hs1 := h1.stands h
  refine (evaluates_setPos ops f hs1 start).bind fun _ g2 h2 => ?_
  have hs2 := h2.stands hs1
  have hs := h2.le_stack
  have hs' := h2.stack_le
  refine (evaluates_emitABC f .concat dst r (r + pieces.length - 1) hs2 rfl (by omega) (by omega)
    (by omega) (OpCode.fits_concat (by omega) (by omega)) rfl (by simp)).discard_bind
    fun _ g3 h3 => ?_
  have hs3 := h3.le_stack
  refine (evaluates_setFirstFree ops f (h3.stands hs2) ha (by omega)).mono fun _ g4 h4 => ?_
  refine (h1.bind (h2.bind (h3.bind h4))).mono ?_
  rintro ⟨hst, hid, ⟨i, hi, hP⟩, hf⟩
  refine ((hst.idle hid).then fun ρ ρ1 hρ1 => ⟨_, hP.goes hi.op ?_, ρ1, hρ1.2, rfl⟩).idle hf
  have hc : r + pieces.length - 1 + 1 - r = vs.length := by omega
  simp [Machine.execute, Machine.write, hi.argA, hi.argB, hi.argC, hc, hρ1.1]

lemma ofConcat_means {start : Position} (hl : left.Means ops f names a)
    (hr : right.Means ops f names b) :
    (ofConcat start left right).Means ops f names fun env => ops.concat (a env) (b env) := by
  obtain ⟨vs, hne, hal, hv⟩ := hr.operands
  have hch : List.Forall₂ (fun piece w => Pushes ops f names w piece)
      (discard left.nextReg :: right.operands) (a :: vs) := .cons hl.pushes hal
  have hj : ∀ env, ops.concat (a env) (b env) = ops.join ((a :: vs).map (· env)) := by
    intro env
    obtain ⟨w, ws, rfl⟩ := List.exists_cons_of_ne_nil hne
    rw [hv]
    rfl
  exact
    { constant := nofun
      numeral := nofun
      name := nofun
      body := fun _ g m r dst fresh h hd => by
        refine meets_read ?_
        rw [h.top]
        cases fresh with
        | true =>
          obtain ⟨rfl, ha⟩ := hd.fresh rfl
          have hs := h.reaches.le_stack
          simp only [Bool.true_and, decide_true, if_pos]
          refine (evaluates_setFirstFree ops f h ha (by omega)).bind fun _ g1 h1 =>
            meets_read ?_
          have hs1 := h1.stands h
          rw [hs1.top]
          refine (evaluates_concatAt hch hs1 (by simp) (by simp) (by omega) (by simp)).mono
            fun _ g2 h2 => ?_
          refine (h1.bind h2).mono fun ⟨hi, hP⟩ ρ => (hP ρ).imp ?_
          rintro ρ' ⟨hgo, ρ1, hag, rfl⟩
          refine ⟨hi.goes hgo, gets_set (fun k hk hne => ?_) (hj _).symm⟩
          refine hag.eq (Nat.lt_of_le_of_ne (Nat.le_of_lt_succ hk) ?_)
          rintro rfl
          exact hne rfl
        | false =>
          have hds := hd.lt h.le
          refine meets_read ?_
          rw [h.top]
          refine (evaluates_concatAt hch h (by simp) (by simp; omega) h.le (by simp)).mono
            fun _ g1 h1 => h1.mono fun hP => hP.mono ?_
          rintro ρ ρ' ⟨ρ1, hag, rfl⟩
          exact gets_set hag.keep (hj _).symm
      branch := nofun
      results := rfl
      chain := .inr ⟨a :: vs, hch, hj⟩ }

end Concat

variable {op : BinaryOp}

lemma applyBinary_logical (ops : Operators) (a b : Env → Value) (env : Env) :
    ops.applyBinary .and (a env) (b env) = decided false a b env ∧
      ops.applyBinary .or (a env) (b env) = decided true a b env := by
  cases h : (a env).isTruthy <;> simp [Operators.applyBinary, decided, h]

lemma applyBinary_comparison (ops : Operators) (a b : Env → Value) (env : Env)
    (hop : op.arithmetic? = none) (hand : op ≠ .and) (hor : op ≠ .or) (hc : op ≠ .concat) :
    ops.applyBinary op (a env) (b env) = .bool (outcome ops op a b env) := by
  revert hop hand hor hc
  cases op <;> simp [BinaryOp.arithmetic?, Operators.applyBinary, outcome, swapped, comparison]

lemma applyBinary_arithmetic {code : OpCode} (ops : Operators) (u w : Value)
    (hop : op.arithmetic? = some code) : ops.applyBinary op u w = ops.binary code u w := by
  cases op <;> cases hop <;> rfl

lemma ofBinary_means {start : Position} (ho : ops.Folds) (hl : left.Means ops f names a)
    (hr : right.Means ops f names b) :
    (ofBinary start op left right).Means ops f names
      fun env => ops.applyBinary op (a env) (b env) := by
  unfold ofBinary
  split
  · simp only [(applyBinary_logical ops a b _).1]
    exact ofLogical_means hl hr
  · simp only [(applyBinary_logical ops a b _).2]
    exact ofLogical_means hl hr
  · exact ofConcat_means hl hr
  · next hand hor hc =>
    split
    · next code hop =>
      simp only [applyBinary_arithmetic ops _ _ hop]
      exact ofArithmetic_means ho hop hl hr
    · next hop =>
      simp only [applyBinary_comparison ops a b _ hop hand hor hc]
      exact ofComparison_means hl hr

end ExprCode

lemma Expr.code_means (ho : ops.Folds) : ∀ e : Expr, e.isSimple names.reduceOption = true →
    e.code.Means ops f names (fun env => e.eval ops env)
  | .ident id, h => by
    simp only [isSimple, List.contains_iff_mem, List.reduceOption_mem_iff] at h
    exact ofName_means h
  | .nil s, _ => by
    exact ofLiteral_means s.start fun w hw _ => by cases hw; rfl
  | .bool s b, _ => by
    exact ofLiteral_means s.start fun w hw _ => by cases hw; rfl
  | .number s raw, _ => by
    exact ofNumber_means s.start raw
  | .string s raw long, _ => by
    exact ofString_means s.start raw long
  | .binary s op left right, h => by
    simp only [isSimple, Bool.and_eq_true] at h
    exact ofBinary_means ho (Expr.code_means ho left h.1) (Expr.code_means ho right h.2)
  | .unary s op operand, h => by
    exact ofUnary_means ho (Expr.code_means ho operand h)
  | .paren s inner, h => by
    exact ofParen_means (Expr.code_means ho inner h)
  | .vararg _, h => by simp [isSimple] at h
  | .function .., h => by simp [isSimple] at h
  | .member .., h => by simp [isSimple] at h
  | .call .., h => by simp [isSimple] at h
  | .table .., h => by simp [isSimple] at h

end LuaBytecode
