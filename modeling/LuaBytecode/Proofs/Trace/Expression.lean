import LuaBytecode.Proofs.Trace.Run

namespace LuaBytecode

open Instruction

namespace Trace

open Gen

variable {α β : Type} {σ : Shape}

instance still_loadValue (dst : Nat) (v : Value) : Still (loadValue dst v) := by
  have (b : Bool) : Still (emitABC .loadBool dst b.toNat 0) := still_emitABC rfl
  unfold loadValue
  split <;> infer_instance

instance still_operandOfValue (v : Value) : Still (operandOfValue v) := by
  refine .then fun k => ?_
  split
  · split <;> infer_instance
  · infer_instance

lemma jumps_jumpIfValue (v : Value) (wanted : Bool) : Jumps (jumpIfValue v wanted) := by
  unfold jumpIfValue
  split
  · exact jumps_jump
  · exact .none

lemma jumps_testABC {op : OpCode} {a b c : Nat} (hj : op.isJump = false) (hop : op ≠ .closure) :
    Jumps (Functor.discard (emitABC op a b c) >>= fun _ => jump) :=
  jumps_branch fun k hk => by
    have h := (isABC_of_abc hk).op
    exact ⟨by rw [isJump_of_op h, hj], by simpa [h] using hop⟩

end Trace

open Trace Gen

class ExprCode.Traced (e : ExprCode) : Prop where
  body : ∀ dst fresh, Still (e.body dst fresh)
  branch : ∀ b, e.branch = some b → ∀ wanted, Jumps (b wanted)
  results : ∀ f, e.results = some f → ∀ dst fresh n, Still (f dst fresh n)
  chain : ∀ m ∈ e.chain, Still m
  target : Still e.target
  name : ∀ name, e.name = some name → isHidden name = false

namespace ExprCode

variable {e left right : ExprCode} {start : Position} {dst : Nat} {fresh : Bool}

lemma Traced.of_body {start : Position} {constant numeral : Option Value}
    {body : (dst : Nat) → (fresh : Bool) → Gen Unit} (h : ∀ dst fresh, Still (body dst fresh)) :
    Traced { start, constant, numeral, body } :=
  ⟨h, by simp, by simp, by simp, .fault _, by simp⟩

namespace Traced

instance toReg [h : e.Traced] : Still (e.toReg dst fresh) := by
  have := h.body dst fresh
  refine .then fun _ => ?_
  split <;> infer_instance

instance nextReg [e.Traced] : Still e.nextReg := .bind

instance still_local? (e : ExprCode) : Still e.local? := by
  unfold local?
  split <;> infer_instance

instance anyReg [e.Traced] : Still e.anyReg :=
  .then fun r => by cases r <;> infer_instance

instance operandReg [e.Traced] : Still (e.operandReg dst fresh) :=
  .then fun r => by cases r <;> infer_instance

instance operand [e.Traced] : Still e.operand := by
  unfold ExprCode.operand
  split <;> infer_instance

instance leftOperand [e.Traced] : Still (e.leftOperand dst fresh) := by
  unfold ExprCode.leftOperand
  split <;> infer_instance

lemma test (h : e.Traced) (wanted : Bool) : Jumps (e.test wanted) :=
  anyReg.then_jumps fun _ => (still_setPos _).then_jumps fun _ => (still_free _).then_jumps fun _ =>
    jumps_testABC rfl (by simp)

lemma jumpIf (h : e.Traced) (wanted : Bool) : Jumps (e.jumpIf wanted) := by
  refine (still_setPos _).then_jumps fun _ => ?_
  split
  · exact jumps_jumpIfValue _ wanted
  · next b _ hb => exact h.branch b hb wanted
  · exact h.test wanted

lemma operands (h : e.Traced) : ∀ m ∈ e.operands, Still m := by
  unfold ExprCode.operands
  split
  · intro m hm
    rw [List.mem_singleton] at hm
    subst hm
    infer_instance
  · exact h.chain

end Traced

instance still_upvalue? [h : e.Traced] : Still e.upvalue? := by
  unfold upvalue?
  split
  · next name hn => exact Trace.still_upvalue? (h.name name hn)
  · infer_instance

end ExprCode

namespace Trace

lemma still_forM {ms : List (Gen Unit)} (h : ∀ m ∈ ms, Still m) : Still (ms.forM id) := by
  induction ms with
  | nil => exact .pure _
  | cons m rest ih =>
    have := h m (by simp)
    have := ih fun m hm => h m (by simp [hm])
    show Still (m >>= fun _ => rest.forM id)
    exact .bind

lemma still_loadName {name : Bytes} (h : isHidden name = false) (dst : Nat) :
    Still (loadName name dst) := by
  have := still_resolve h
  refine .then fun v => ?_
  cases v with
  | global =>
    refine .then fun env => .then fun key => ?_
    cases env <;> infer_instance
  | _ => infer_instance

lemma still_nameTarget {name : Bytes} (h : isHidden name = false) : Still (nameTarget name) := by
  have := still_resolve h
  refine .then fun v => ?_
  cases v with
  | global =>
    refine .then fun env => .then fun key => ?_
    cases env <;> infer_instance
  | _ => infer_instance

instance still_moveAll (dst src n i : Nat) : Still (moveAll dst src n i) := by
  induction n generalizing i with
  | zero => exact .pure _
  | succ n ih => exact .bind

lemma still_arguments {args : List ExprCode} (h : ∀ e ∈ args, e.Traced) :
    Still (arguments args) := by
  induction args with
  | nil => exact .pure _
  | cons e rest ih =>
    have he := h e (by simp)
    have := ih fun e' he' => h e' (by simp [he'])
    unfold arguments
    split
    · next results hr =>
      have := he.results results hr
      infer_instance
    · infer_instance

set_option synthInstance.maxSize 1000 in
instance still_loadCallee (base : Nat) {callee : ExprCode} [callee.Traced]
    (method : Option Ident) : Still (loadCallee base callee method) := by
  cases method with
  | none => exact .discard
  | some method =>
    refine .then fun r => ?_
    cases r <;> exact .bind

lemma still_finishCall (line : Int) {args : List ExprCode} (h : ∀ e ∈ args, e.Traced)
    (inPlace : Bool) (dst base : Nat) (n : ResultCount) :
    Still (finishCall line args inPlace dst base n) := by
  have := still_arguments h
  refine .then fun _ => .then fun _ => .then fun _ => .then fun _ => .then fun _ =>
    .then fun _ => ?_
  cases n <;> infer_instance

instance still_setList (t n : Nat) (pending : Option Nat) : Still (setList t n pending) := by
  have (k : Nat) : Still (emitABC .setList t (pending.getD 0) (k + 1)) :=
    still_emitABC (by simp [OpCode.isPlain])
  have (k : Nat) : Still (Functor.discard (emitABC .setList t (pending.getD 0) 0) >>= fun _ =>
      Functor.discard (emit (extraArgument k))) := by
    refine still_pair (fun i hi => ?_) fun i => op?_of_extraArgument
    have hop := (isABC_of_abc hi).op
    exact ⟨by rw [isJump_of_op hop]; rfl, by simp [hop]⟩
  unfold setList
  simp only
  split
  · infer_instance
  · split
    · rw [← bind_assoc]
      infer_instance
    · infer_instance

lemma Shape.hold_comm (σ : Shape) (a b : List Nat) :
    ((σ.hold a).hold b).Rearranges ((σ.hold b).hold a) :=
  ⟨rfl, rfl, fun m => by simp only [Shape.hold, List.mem_append]; tauto, fun _ h => h⟩

lemma Shape.hold_append (σ : Shape) (a b : List Nat) :
    ((σ.hold a).hold b).Rearranges (σ.hold (a ++ b)) :=
  ⟨rfl, rfl, fun m => by simp only [Shape.hold, marks, List.map_append, List.mem_append]; tauto,
    fun _ h => h⟩

lemma traces_outcomes (jumps : List Nat) (dst : Nat) : Traces (σ.hold jumps) (do
      discard <| emitABC .loadBool dst 0 1
      patchTo jumps (← label)
      discard <| emitABC .loadBool dst 1 0) fun _ σ' => σ' = σ := by
  refine .of_layer fun l hl enclosing => ?_
  refine (meets_emit_of (Q := fun _ g => ∃ i d, i.op? = some .loadBool ∧ l.emit i = .ok d ∧
    g = ⟨d, enclosing⟩) fun i d hi hd =>
      ⟨i, d, (isABC_of_abc hi).op, hd, rfl⟩).discard_bind ?_
  rintro - - ⟨i, d, hop, hd, rfl⟩
  have he : d.pending = [] := by
    obtain ⟨code, -, rfl⟩ := Draft.emit_ok hd
    rfl
  have hla : Meets True ⟨d, enclosing⟩ label fun pc g =>
      pc = d.code.size ∧ g = ⟨d.label, enclosing⟩ := meets_update_bind (meets_readOf ⟨rfl, rfl⟩)
  refine hla.bind ?_
  rintro - - ⟨rfl, rfl⟩
  have hp : Meets True ⟨d.label, enclosing⟩ (patchTo jumps d.code.size) fun _ g =>
      g = ⟨{ d with lastTarget := d.code.size, pending := jumps }, enclosing⟩ := by
    refine meets_read ?_
    split
    · refine meets_update ?_
      simp [Draft.patchToHere, Draft.label, he]
    · next hne => exact absurd rfl hne
  refine hp.bind ?_
  rintro - - rfl
  refine (meets_emit_of fun j d' hj hd' => ?_).discard fun _ _ h => h
  obtain ⟨hop', -, -, hc⟩ := isABC_of_abc hj
  have hpl : j.isPlain = true := by simp [isPlain, hop', hc, OpCode.isPlain]
  have hh : l.held = marks jumps σ.level ++ σ.held := congrArg Shape.held hl
  refine ⟨rfl, _, rfl, .single (.pair (by rw [isJump_of_op hop]; rfl) (by simp [hop])
    hpl hh hd hd' (by simp [hop'])), ?_⟩
  have hla : d.SameScope { d with lastTarget := d.code.size, pending := jumps } := rfl
  have hs : l.SameScope d' := (Draft.emit_sameScope hd).trans (hla.trans (Draft.emit_sameScope hd'))
  rw [Layer.shape_of_sameScope hs, hl]
  rfl

end Trace

namespace ExprCode

variable {e left right object key : ExprCode} {start : Position} {dst : Nat} {fresh : Bool}

lemma ofName_traced {id : Ident} (h : isHidden id.name = false) : (ofName id).Traced :=
  ⟨fun _ _ => still_loadName h _, by simp [ofName], by simp [ofName], by simp [ofName],
    still_nameTarget h, by simpa [ofName] using h⟩

lemma ofLiteral_traced (start : Position) (value : Except CompileCause Value) :
    (ofLiteral start value).Traced := by
  cases value with
  | ok v => exact .of_body fun _ _ => still_loadValue _ _
  | error cause => exact .of_body fun _ _ => .fail _

lemma ofNumber_traced (start : Position) (raw : Bytes) : (ofNumber start raw).Traced :=
  { ofLiteral_traced start _ with }

lemma ofString_traced (start : Position) (raw : Bytes) (long : Bool) :
    (ofString start raw long).Traced := ofLiteral_traced start _

lemma ofResults_traced {isCall : Bool}
    {results : (dst : Nat) → (fresh : Bool) → ResultCount → Gen Unit}
    (h : ∀ dst fresh n, Still (results dst fresh n)) : (ofResults start isCall results).Traced :=
  ⟨fun _ _ => h _ _ _, by simp [ofResults], fun f hf => by cases hf; exact h, by simp [ofResults],
    .fault _, by simp [ofResults]⟩

lemma ofVararg_traced (start : Position) : (ofVararg start).Traced :=
  ofResults_traced fun _ _ _ => .then fun _ => .then fun _ => inferInstance

lemma ofCall_traced {callee : ExprCode} {args : List ExprCode} (hc : callee.Traced)
    (method : Option Ident) (ha : ∀ e ∈ args, e.Traced) :
    (ofCall start callee method args).Traced := by
  have := still_finishCall start.line ha
  exact ofResults_traced fun dst fresh n => .then fun top => inferInstance

lemma ofParen_traced (h : e.Traced) : (ofParen start e).Traced :=
  ⟨fun _ _ => Traced.toReg, fun b hb => by cases hb; exact h.jumpIf, by simp [ofParen],
    by simp [ofParen], .fault _, by simp [ofParen]⟩

lemma ofMember_traced (ho : object.Traced) (hk : key.Traced) :
    (ofMember start object key).Traced := by
  refine ⟨fun dst fresh => ?_, by simp [ofMember], by simp [ofMember], by simp [ofMember], ?_,
    by simp [ofMember]⟩
  · exact .then fun i => by cases i <;> infer_instance
  · exact .then fun i => by cases i <;> infer_instance

lemma ofFault_traced (start : Position) (f : GeneratorFault) : (ofFault start f).Traced :=
  ⟨fun _ _ => .fault f, fun b hb => by cases hb; exact fun _ _ => .fault, by simp [ofFault],
    by simp [ofFault], .fault _, by simp [ofFault]⟩

lemma ofFolded_traced {folded : Except FoldingFault (Option Value)} {code : Option Value → ExprCode}
    (h : ∀ numeral, (code numeral).Traced) : (ofFolded start folded code).Traced := by
  cases folded with
  | ok numeral => exact h numeral
  | error e => exact ofFault_traced _ _

lemma ofUnary_traced (op : UnaryOp) (h : e.Traced) : (ofUnary start op e).Traced := by
  refine ofFolded_traced fun numeral => ⟨fun dst fresh => ?_, fun b hb => ?_, by simp, by simp,
    .fault _, by simp⟩
  · have : Plain op.opCode := ⟨fun _ => by cases op <;> rfl⟩
    exact .bind
  · split at hb
    · cases hb
      exact fun wanted => h.jumpIf _
    · cases hb

instance arithmeticOperands_still [left.Traced] [right.Traced] :
    Still (arithmeticOperands left right dst fresh) := .ite

lemma ofArithmetic_traced (op : OpCode) [Plain op] (hl : left.Traced) (hr : right.Traced) :
    (ofArithmetic start op left right).Traced :=
  ofFolded_traced fun _ => .of_body fun _ _ => .bind

instance comparisonOperands_still (op : BinaryOp) [left.Traced] [right.Traced] :
    Still (comparisonOperands op left right dst fresh) := .bind

lemma comparison_isTest (op : BinaryOp) :
    (comparison op).1.isJump = false ∧ (comparison op).1 ≠ .closure := by
  cases op <;> simp [comparison, OpCode.isJump]

lemma ofComparison_traced (op : BinaryOp) (hl : left.Traced) (hr : right.Traced) :
    (ofComparison start op left right).Traced := by
  obtain ⟨hj, hop⟩ := comparison_isTest op
  refine ⟨fun dst fresh => ⟨fun σ => ?_⟩, fun b hb => ?_, by simp [ofComparison],
    by simp [ofComparison], .fault _, by simp [ofComparison]⟩
  · refine (comparisonOperands_still op).then_traces fun _ => ?_
    refine (still_setPos _).then_traces fun _ => (still_freeOperands _ _ _).then_traces fun _ => ?_
    rw [← bind_assoc]
    refine (jumps_testABC hj hop).then fun jumps => still_label.discard.then_traces fun _ => ?_
    have hre := (traces_outcomes (σ := σ) jumps dst).bind (R := fun _ σ' => σ' = σ)
      (f := fun _ => discard label) fun _ _ heq => heq ▸ still_label.discard.traces σ
    simpa using hre
  · cases hb
    intro wanted
    exact (comparisonOperands_still op).then_jumps fun _ =>
      (still_setPos _).then_jumps fun _ => (still_freeOperands _ _ _).then_jumps fun _ =>
        jumps_testABC hj hop

lemma ofLogical_traced (isOr : Bool) (hl : left.Traced) (hr : right.Traced) :
    (ofLogical start isOr left right).Traced := by
  refine ⟨fun dst fresh => ⟨fun σ => ?_⟩, fun b hb => ?_, by simp [ofLogical], by simp [ofLogical],
    .fault _, by simp [ofLogical]⟩
  · refine Traced.operandReg.then_traces fun r => (still_setPos _).then_traces fun _ => ?_
    have hre : ∀ done, Traces (σ.hold done) (do right.toReg dst fresh; patchToHere done)
        fun _ σ' => σ' = σ := fun done =>
      Traced.toReg.then_traces fun _ => traces_patchToHere (σ := σ.hold done) rfl
    split
    · rw [← bind_assoc]
      exact (jumps_testABC rfl (by simp)).then hre
    · refine (still_free _).then_traces fun _ => ?_
      rw [← bind_assoc]
      exact (jumps_testABC rfl (by simp)).then hre
  · cases hb
    intro wanted σ
    dsimp only
    split
    · refine (hl.jumpIf wanted).then fun first => (hr.jumpIf wanted).then fun second => ?_
      exact (Traces.pure (Q := fun jumps σ' => jumps = first ++ second ∧
        σ' = (σ.hold first).hold second) ⟨rfl, rfl⟩).rearrange fun _ _ ⟨hj, hσ⟩ =>
          ⟨_, hσ ▸ Shape.hold_append σ first second, by rw [hj]⟩
    · refine (hl.jumpIf _).then fun skip => (hr.jumpIf wanted).then fun jumps => ?_
      refine .rearrange_before (Shape.hold_comm σ skip jumps) ?_
      exact (traces_patchToHere (σ := (σ.hold jumps).hold skip) rfl).bind
        fun _ _ heq => heq ▸ .pure rfl

lemma ofConcat_traced (hl : left.Traced) (hr : right.Traced) :
    (ofConcat start left right).Traced := by
  have hc : ∀ m ∈ (discard left.nextReg :: right.operands : List (Gen Unit)), Still m := by
    intro m hm
    rcases List.mem_cons.mp hm with rfl | hm
    · infer_instance
    · exact hr.operands m hm
  have := still_forM hc
  refine ⟨fun dst fresh => .then fun top => ?_, by simp [ofConcat], by simp [ofConcat],
    hc, .fault _, by simp [ofConcat]⟩
  dsimp only
  split <;> infer_instance

lemma ofBinary_traced (op : BinaryOp) (hl : left.Traced) (hr : right.Traced) :
    (ofBinary start op left right).Traced := by
  unfold ofBinary
  split
  · exact ofLogical_traced false hl hr
  · exact ofLogical_traced true hl hr
  · exact ofConcat_traced hl hr
  · split
    · next code hc =>
      have : Plain code := ⟨fun c => by cases op <;> cases hc <;> rfl⟩
      exact ofArithmetic_traced code hl hr
    · exact ofComparison_traced op hl hr

end ExprCode

structure FieldCode.Traced (f : FieldCode) : Prop where
  key : f.key.Traced
  value : f.value.Traced

namespace Trace

lemma still_storePair (t : Nat) {f : FieldCode} (h : f.Traced) : Still (storePair t f) := by
  have := h.key
  have := h.value
  exact .bind

lemma still_storeFields (t : Nat) {fields : List FieldCode} (h : ∀ f ∈ fields, f.Traced)
    (n : FieldCount) : Still (storeFields t fields n) := by
  induction fields generalizing n with
  | nil =>
    unfold storeFields
    split <;> infer_instance
  | cons f rest ih =>
    have hf := h f (by simp)
    have := hf.value
    have := still_storePair t hf
    have := ih fun f' hf' => h f' (by simp [hf'])
    refine .then fun _ => ?_
    split
    · infer_instance
    · split
      · next results hr =>
        have := hf.value.results results hr
        infer_instance
      · infer_instance

end Trace

lemma ExprCode.ofTable_traced {start : Position} {fields : List FieldCode}
    (h : ∀ f ∈ fields, f.Traced) : (ofTable start fields).Traced := by
  refine .of_body fun dst fresh => .then fun top => ?_
  extract_lets isTop build
  suffices hb : ∀ t, Still (build t) by split <;> exact .then hb
  refine fun t => ⟨fun σ s hs => ?_⟩
  have he : Meets True s.generator (emitABC .newTable t 0 0) fun pc g => ∃ s',
      s'.generator = g ∧ s.Moves s' ∧ s'.shape = σ ∧
        ∃ i, s'.code[pc]? = some i ∧ i.op? = some .newTable := by
    refine meets_emit_of fun j d hj hd => ?_
    have hop := (isABC_of_abc hj).op
    have hpl := isPlain_of_op hop fun _ => rfl
    refine ⟨_, rfl, .inside (.single (.emit hpl hd)), ?_, j, ?_, hop⟩
    · rw [← hs]
      exact Layer.shape_of_sameScope (Draft.emit_sameScope hd)
    · obtain ⟨code, hp, rfl⟩ := Draft.emit_ok hd
      show (code.push j)[s.code.size]? = some j
      rw [← show code.size = s.code.size from hp.size]
      simp
  refine he.bind ?_
  rintro pc - ⟨s1, rfl, hm1, hs1, i, hi, hop⟩
  refine ((still_storeFields t h ⟨0, 0, 0⟩).traces σ s1 hs1).bind ?_
  rintro n - ⟨s2, rfl, hm2, hs2⟩
  have hold : ∃ old, s2.code[pc]? = some old ∧ old.op? = some .newTable := by
    obtain ⟨j, hj, ho⟩ := hm2.ops pc i hi
    rw [hop] at ho
    exact ⟨j, hj, ho.resolve_right (by simp)⟩
  have hr := traces_replace s2 (fun _ => rfl) hold
    (i := abc .newTable t.toUInt8 (FloatingByte.ofNat n.items)
      (FloatingByte.ofNat n.pairs)) fun j hj =>
    have hop := (isABC_of_abc hj).op
    ⟨isPlain_of_op hop fun _ => rfl, .inl hop⟩
  refine hr.bind ?_
  rintro - - ⟨s3, rfl, hm3, hs3⟩
  refine Meets.mono (Still.ite.traces σ s3 (hs3.trans hs2)) ?_
  rintro - g ⟨s4, hg, hm4, hs4⟩
  exact ⟨s4, hg, ((hm1.trans hm2).trans hm3).trans hm4, hs4⟩

end LuaBytecode
