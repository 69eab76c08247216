import LuaBytecode.Generator.Statement
import LuaBytecode.Proofs.Placement.Expression

set_option synthInstance.maxSize 100000

namespace LuaBytecode

variable {body' body : Gen Unit}

structure ClauseBody.Follows (body body' : ClauseBody) : Prop where
  all : Gen.Follows body.all body'.all
  afterBreak : Option.Rel (Option.Rel Gen.Follows) body.afterBreak body'.afterBreak

namespace Gen

variable {e e' : ExprCode} {es es' : List ExprCode}

instance follows_adjustTop (top : Nat) : Follows (adjustTop top) (adjustTop top) := .bind

lemma follows_evaluate (h : List.Forall₂ ExprCode.Follows es es') (wanted : Nat) :
    Follows (evaluate es wanted) (evaluate es' wanted) := by
  induction h generalizing wanted with
  | nil => exact .ite
  | @cons e e' rest rest' he hre ih =>
    have hr := he.results
    unfold evaluate
    generalize e.results = results, e'.results = results' at hr
    cases hr with
    | none => cases hre <;> exact .bind
    | some hr => cases hre <;> exact .bind

lemma follows_assignValues (h : List.Forall₂ ExprCode.Follows es es') (n : Nat) :
    Follows (assignValues es n) (assignValues es' n) :=
  have := follows_evaluate h n
  .bind

instance follows_protectTargets (earlier : List AssignTarget) (assigned : AssignTarget) :
    Follows (protectTargets earlier assigned) (protectTargets earlier assigned) := by
  refine .then fun extra => ?_
  cases assigned <;> exact .ite

lemma follows_targets (h : List.Forall₂ ExprCode.Follows es es') (done : List AssignTarget) :
    Follows (targets es done) (targets es' done) := by
  induction h generalizing done with
  | nil => exact follows_pure _
  | cons he _ ih => exact .bind

instance follows_storeOperand (t : AssignTarget) (arg : Nat) :
    Follows (storeOperand t arg) (storeOperand t arg) := by
  cases t with
  | «local» r => exact .ite
  | _ => exact .discard

instance follows_store (t : AssignTarget) [e.Follows e'] : Follows (store t e) (store t e') := by
  cases t with
  | «local» r => exact ExprCode.Follows.toReg r false
  | _ => exact .bind

instance follows_storeDown (ts : List AssignTarget) (top : Nat) :
    Follows (storeDown ts top) (storeDown ts top) := by
  induction ts generalizing top with
  | nil => exact follows_pure _
  | cons t rest ih => exact .bind

lemma follows_nextRegs (h : List.Forall₂ ExprCode.Follows es es') :
    Follows (nextRegs es) (nextRegs es') := by
  induction h with
  | nil => exact follows_pure _
  | cons he _ ih => exact .bind

lemma follows_dropLast (h : List.Forall₂ ExprCode.Follows es es') :
    List.Forall₂ ExprCode.Follows es.dropLast es'.dropLast ∧
      Option.Rel ExprCode.Follows es.getLast? es'.getLast? := by
  induction h with
  | nil => exact ⟨.nil, .none⟩
  | cons he hr ih =>
    cases hr with
    | nil => exact ⟨.nil, .some he⟩
    | cons he' hr => exact ⟨.cons he ih.1, by simpa using ih.2⟩

lemma follows_assign {ts ts' : List ExprCode} (start : Position)
    (ht : List.Forall₂ ExprCode.Follows ts ts') (h : List.Forall₂ ExprCode.Follows es es') :
    Follows (assign start ts es) (assign .lineOne ts' es') := by
  obtain ⟨hi, hl⟩ := follows_dropLast h
  have hta := follows_targets ht []
  have hv := fun n => follows_assignValues h n
  have hr := follows_nextRegs hi
  unfold assign
  rw [← h.length_eq]
  refine .then fun done => .then fun _ => ?_
  generalize es.getLast? = last, es'.getLast? = last' at hl
  cases done with
  | nil => cases hl <;> exact .bind
  | cons target earlier => cases hl <;> infer_instance

lemma map_name_flat (names : List Ident) :
    (names.map Ident.flat).map (·.name) = names.map (·.name) := by
  rw [List.map_map]
  rfl

lemma follows_declareLocals (names : List Ident) (h : List.Forall₂ ExprCode.Follows es es') :
    Follows (declareLocals names es) (declareLocals (names.map Ident.flat) es') := by
  have := follows_assignValues h names.length
  unfold declareLocals
  rw [List.length_map, map_name_flat]
  infer_instance

instance follows_openFunction (source : ChunkName) (numParams : UInt8) (isVararg : Bool)
    (first last : Int) :
    Follows (openFunction (.new source numParams isVararg first last #[]))
      (openFunction (.new source numParams isVararg 1 1 #[])) := by
  refine ⟨fun g => ?_⟩
  have hn : (Draft.new source numParams isVararg first last #[]).flat =
      .new source numParams isVararg 1 1 #[] := by
    simp only [Draft.new, Draft.flat, List.map_toArray, List.map_nil]
    rfl
  rw [← hn]
  rfl

instance blind_functions : Blind (·.functions.size) :=
  ⟨fun d => by rw [Draft.flat_functions, Array.size_map]⟩

lemma follows_addFunction (line : Int) {k k' : Gen Unit} (_ : Follows k k') : Follows (do
        let f ← closeFunction line
        update fun d => { d with functions := d.functions.push f }
        k)
      (do
        let f ← closeFunction 1
        update fun d => { d with functions := d.functions.push f }
        k') := by
  refine ⟨(follows_closeFunction line).bind fun f => ?_⟩
  have hp : Follows (update fun d => { d with functions := d.functions.push f })
      (update fun d => { d with functions := d.functions.push f.flat }) :=
    follows_update fun d => by simp only [Draft.flat, Array.map_push]
  have hr : Follows (do update fun d => { d with functions := d.functions.push f }; k)
      (do update fun d => { d with functions := d.functions.push f.flat }; k') := .bind
  exact hr.run

lemma follows_closure (span : Span) (params : List Ident) (isVararg : Bool)
    (_ : Follows body body') (dst : Nat) :
    Follows (closure span params isVararg body dst)
      (closure (.at .lineOne) (params.map Ident.flat) isVararg body' dst) := by
  have hs : Blind (·.source) := ⟨fun _ => rfl⟩
  have hl : Follows
      (do setLine span.stop.line; discard <| emitABx .closure dst ((← read (·.functions.size)) - 1))
      (do setLine 1; discard <| emitABx .closure dst ((← read (·.functions.size)) - 1)) := .bind
  have ha := follows_addFunction span.stop.line hl
  unfold closure
  rw [List.length_map, map_name_flat]
  simp only [Span.at, show Position.lineOne.line = 1 from rfl]
  infer_instance

end Gen

open Gen

lemma ExprCode.follows_ofFunction (span : Span) (params : List Ident) (isVararg : Bool)
    (_ : Gen.Follows body body') : (ofFunction span params isVararg body).Follows
      (ofFunction (.at .lineOne) (params.map Ident.flat) isVararg body') :=
  follows_plain span.start none none fun dst _ => follows_closure span params isVararg ‹_› dst

namespace Gen

variable {e e' : ExprCode} {es es' : List ExprCode}

lemma follows_declareFunction (start : Position) {f f' : ExprCode} (_ : e.Follows e')
    (_ : f.Follows f') : Follows (declareFunction start e f) (declareFunction .lineOne e' f') :=
  have : Follows (fixLine start.line) (fixLine Position.lineOne.line) := follows_fixLine _
  .bind

lemma follows_declareLocalFunction (name : Bytes) {f f' : Nat → Gen Unit}
    (_ : ∀ dst, Follows (f dst) (f' dst)) :
    Follows (declareLocalFunction name f) (declareLocalFunction name f') :=
  have := fun r => follows_updateOrFail (Draft.blind_startVariable r)
  .bind

instance follows_block [Follows body body'] : Follows (block body) (block body') := .bind

lemma follows_callStatement (h : e.Follows e') : Follows (callStatement e) (callStatement e') := by
  have hr := h.results
  refine .then fun r => ?_
  generalize e.results = results, e'.results = results' at hr
  cases hr <;> infer_instance

lemma follows_whileLoop (_ : e.Follows e') (_ : Follows body body') (lastLine : Int) :
    Follows (whileLoop e body lastLine) (whileLoop e' body' 1) := .bind

instance follows_closeInnermost (jumps : List Nat) :
    Follows (closeInnermost jumps) (closeInnermost jumps) := by
  have : Blind (·.blocks.head?) := ⟨fun _ => rfl⟩
  refine .then fun scope? => ?_
  cases scope? <;> infer_instance

lemma follows_repeatLoop (_ : Follows body body') (h : e.Follows e') :
    Follows (repeatLoop body e) (repeatLoop body' e') := by
  unfold repeatLoop
  rw [h.start]
  infer_instance

instance follows_endClause (isLast : Bool) (escapes : List Nat) [Follows body body']
    (skip : List Nat) :
    Follows (endClause isLast escapes body skip) (endClause isLast escapes body' skip) := .bind

lemma follows_clause {c c' : ClauseBody} (_ : e.Follows e') (hc : c.Follows c') (isLast : Bool)
    (escapes : List Nat) : Follows (clause e c isLast escapes) (clause e' c' isLast escapes) := by
  have hb := hc.afterBreak
  have ha := hc.all
  refine .then fun inLoop => ?_
  generalize c.afterBreak = rest, c'.afterBreak = rest' at hb
  cases hb with
  | none => exact .bind
  | some hr =>
    cases inLoop with
    | false => exact .bind
    | true => cases hr <;> exact .bind

instance follows_loopBody (names : List Bytes) [Follows body body'] :
    Follows (loopBody names body) (loopBody names body') := .bind

lemma follows_loopStep {step step' : Option ExprCode}
    (h : Option.Rel ExprCode.Follows step step') : Follows (loopStep step) (loopStep step') := by
  cases h with
  | some h => exact .discard
  | none => exact .bind

lemma follows_numericFor {limit limit' : ExprCode} {step step' : Option ExprCode}
    (start : Position) (name : Bytes) (_ : e.Follows e') (_ : limit.Follows limit')
    (hs : Option.Rel ExprCode.Follows step step') (_ : Follows body body') :
    Follows (numericFor start name e limit step body)
      (numericFor .lineOne name e' limit' step' body') :=
  have := follows_loopStep hs
  have : Follows (setLine start.line) (setLine Position.lineOne.line) := follows_setLine _
  .bind

lemma follows_getElem? (h : List.Forall₂ ExprCode.Follows es es') (i : Nat) :
    Option.Rel ExprCode.Follows es[i]? es'[i]? := by
  induction h generalizing i with
  | nil => exact .none
  | cons he _ ih =>
    cases i with
    | zero => exact .some he
    | succ i => exact ih i

lemma follows_checkIterator (names : List Ident) (h : List.Forall₂ ExprCode.Follows es es') :
    Follows (checkIterator names es) (checkIterator (names.map Ident.flat) es') := by
  unfold checkIterator
  rw [List.getElem?_map]
  have hex := follows_getElem? h maxIteratorExprs
  generalize es[maxIteratorExprs]? = expr, es'[maxIteratorExprs]? = expr' at hex
  cases names[maxIteratorNames]? with
  | some name => exact @Follows.bind _ _ _ _ _ _ (follows_setPos _) inferInstance
  | none =>
    cases hex with
    | none => exact follows_pure _
    | @some e e' he =>
      simp only [Option.map_none, he.start]
      exact .bind

lemma follows_genericFor (start : Position) (names : List Ident)
    (h : List.Forall₂ ExprCode.Follows es es') (_ : Follows body body') :
    Follows (genericFor start names es body)
      (genericFor .lineOne (names.map Ident.flat) es' body') := by
  have hc := follows_checkIterator names h
  have hv := follows_assignValues h 3
  have hl : Follows (setLine start.line) (setLine Position.lineOne.line) := follows_setLine _
  unfold genericFor
  rw [map_name_flat, List.length_map]
  infer_instance

instance follows_makeTailCall : Follows makeTailCall makeTailCall := by
  refine .then fun last => @Follows.bind _ _ _ _ _ _ (follows_read (h := ⟨fun _ => rfl⟩))
    fun i? => ?_
  cases i? <;> infer_instance

lemma follows_returned (h : List.Forall₂ ExprCode.Follows es es') :
    Follows (returned es) (returned es') := by
  obtain ⟨hi, hla⟩ := follows_dropLast h
  have hregs := follows_nextRegs hi
  have ha := follows_nextRegs h
  unfold returned
  generalize es.getLast? = value, es'.getLast? = value' at hla
  cases hla with
  | none => exact follows_pure _
  | @some last last' hl =>
    have hr := hl.results
    simp only [hl.isCall, ← h.length_eq]
    generalize last.results = results, last'.results = results' at hr
    cases hr with
    | some hr => exact .bind
    | none =>
      cases h with
      | nil => exact .bind
      | cons hv hre => cases hre <;> exact .bind

lemma follows_returnStatement (start : Position) (h : List.Forall₂ ExprCode.Follows es es') :
    Follows (returnStatement start es) (returnStatement .lineOne es') :=
  have := follows_returned h
  .then fun (_, _) => .bind

lemma follows_breakStatement : Follows breakStatement breakStatement := .then fun _ => .ite

lemma follows_statement (start : Position) (_ : Follows body body') :
    Follows (statement start body) (statement .lineOne body') := by
  have hc : Blind fun d => d.firstFree ≤ d.maxStackSize && d.active.size ≤ d.firstFree :=
    ⟨fun _ => rfl⟩
  have hr := follows_change (f := fun d => d.setFirstFree d.active.size) fun _ => rfl
  exact .then fun _ => .then fun _ => .then fun _ => .ite

end Gen

end LuaBytecode
