import LuaBytecode.Generator.Expression
import LuaBytecode.Proofs.Placement.Generator

-- Instances go through long pieces of code.
set_option synthInstance.maxSize 1000

namespace LuaBytecode

class ExprCode.Follows (e e' : ExprCode) : Prop where
  start : e'.start = .lineOne
  name : e'.name = e.name
  constant : e'.constant = e.constant
  numeral : e'.numeral = e.numeral
  body : ∀ dst fresh, Gen.Follows (e.body dst fresh) (e'.body dst fresh)
  branch : Option.Rel (fun b b' => ∀ wanted, Gen.Follows (b wanted) (b' wanted)) e.branch e'.branch
  results : Option.Rel (fun r r' => ∀ dst fresh n, Gen.Follows (r dst fresh n) (r' dst fresh n))
    e.results e'.results
  isCall : e'.isCall = e.isCall
  chain : List.Forall₂ Gen.Follows e.chain e'.chain
  target : Gen.Follows e.target e'.target

open Gen

attribute [instance] ExprCode.Follows.target

namespace ExprCode

variable {e e' left left' right right' : ExprCode}

namespace Follows

instance toReg [h : e.Follows e'] (dst : Nat) (fresh : Bool) :
    Gen.Follows (e.toReg dst fresh) (e'.toReg dst fresh) := by
  have hb := h.body dst fresh
  unfold ExprCode.toReg
  rw [h.start, h.constant]
  cases e.constant <;> infer_instance

instance nextReg [e.Follows e'] : Gen.Follows e.nextReg e'.nextReg := .bind

instance local? [h : e.Follows e'] : Gen.Follows e.local? e'.local? := by
  unfold ExprCode.local?
  rw [h.name]
  cases e.name <;> infer_instance

instance anyReg [e.Follows e'] : Gen.Follows e.anyReg e'.anyReg := by
  refine .then fun r? => ?_
  cases r? <;> infer_instance

instance operandReg [e.Follows e'] (dst : Nat) (fresh : Bool) :
    Gen.Follows (e.operandReg dst fresh) (e'.operandReg dst fresh) := by
  refine .then fun r? => ?_
  cases r? <;> infer_instance

instance operand [h : e.Follows e'] : Gen.Follows e.operand e'.operand := by
  unfold ExprCode.operand
  rw [h.constant]
  cases e.constant <;> infer_instance

instance leftOperand [h : e.Follows e'] (dst : Nat) (fresh : Bool) :
    Gen.Follows (e.leftOperand dst fresh) (e'.leftOperand dst fresh) := by
  unfold ExprCode.leftOperand
  rw [h.constant]
  cases e.constant <;> infer_instance

instance test [h : e.Follows e'] (wanted : Bool) :
    Gen.Follows (e.test wanted) (e'.test wanted) := by
  unfold ExprCode.test
  rw [h.start]
  infer_instance

instance jumpIf [h : e.Follows e'] (wanted : Bool) :
    Gen.Follows (e.jumpIf wanted) (e'.jumpIf wanted) := by
  have hb := h.branch
  unfold ExprCode.jumpIf
  rw [h.start, h.constant]
  generalize e.branch = branch, e'.branch = branch' at hb
  cases e.constant with
  | some v => infer_instance
  | none =>
    cases hb with
    | none => infer_instance
    | some hb =>
      infer_instance

lemma operands [h : e.Follows e'] : List.Forall₂ Gen.Follows e.operands e'.operands := by
  have hc := h.chain
  unfold ExprCode.operands
  generalize e.chain = chain, e'.chain = chain' at hc
  cases hc with
  | nil => exact .cons .discard .nil
  | cons hp hr => exact .cons hp hr

instance upvalue? [h : e.Follows e'] : Gen.Follows e.upvalue? e'.upvalue? := by
  unfold ExprCode.upvalue?
  rw [h.name]
  cases e.name <;> infer_instance

end Follows

end ExprCode

namespace Gen

variable {callee callee' : ExprCode} {args args' : List ExprCode}

instance follows_loadName (name : Bytes) (dst : Nat) :
    Follows (loadName name dst) (loadName name dst) := by
  refine .then fun v => ?_
  cases v with
  | global =>
    refine .then fun env => .then fun key => ?_
    cases env <;> infer_instance
  | _ => infer_instance

instance follows_nameTarget (name : Bytes) : Follows (nameTarget name) (nameTarget name) := by
  refine .then fun v => ?_
  cases v with
  | global =>
    refine .then fun env => .then fun key => ?_
    cases env <;> infer_instance
  | _ => infer_instance

instance follows_moveAll (dst src n i : Nat) :
    Follows (moveAll dst src n i) (moveAll dst src n i) := by
  induction n generalizing i with
  | zero => exact follows_pure _
  | succ n ih => exact .bind

lemma follows_arguments (h : List.Forall₂ ExprCode.Follows args args') :
    Follows (arguments args) (arguments args') := by
  induction h with
  | nil => exact follows_pure _
  | @cons e e' rest rest' he hre ih =>
    have hr := he.results
    unfold arguments
    generalize e.results = results, e'.results = results' at hr
    cases hr with
    | none => cases hre <;> exact .bind
    | some hr => cases hre <;> exact .bind

instance follows_loadCallee (base : Nat) [callee.Follows callee'] (method : Option Ident) :
    Follows (loadCallee base callee method) (loadCallee base callee' (method.map Ident.flat)) := by
  cases method with
  | none => exact .discard
  | some method =>
    refine .then fun r? => ?_
    cases r? <;> simp only [Ident.flat, Span.flat, Span.at] <;> infer_instance

lemma follows_finishCall (line : Int) (h : List.Forall₂ ExprCode.Follows args args')
    (inPlace : Bool) (dst base : Nat) (n : ResultCount) :
    Follows (finishCall line args inPlace dst base n)
      (finishCall Position.lineOne.line args' inPlace dst base n) := by
  have ha := follows_arguments h
  have hl : Follows (setLine line) (setLine Position.lineOne.line) := follows_setLine line
  cases n <;> exact .bind

instance follows_setList (t n : Nat) (pending : Option Nat) :
    Follows (setList t n pending) (setList t n pending) := .ite

end Gen

namespace ExprCode

variable {e e' left left' right right' : ExprCode} {args args' : List ExprCode}

lemma follows_ofName (id : Ident) : (ofName id).Follows (ofName id.flat) where
  start := rfl
  name := rfl
  constant := rfl
  numeral := rfl
  body dst _ := follows_loadName id.name dst
  branch := .none
  results := .none
  isCall := rfl
  chain := .nil
  target := follows_nameTarget id.name

variable (start : Position)

lemma follows_plain {body body' : Nat → Bool → Gen Unit} (constant numeral : Option Value)
    (h : ∀ dst fresh, Gen.Follows (body dst fresh) (body' dst fresh)) :
    Follows { start, constant, numeral, body }
      { start := .lineOne, constant, numeral, body := body' } where
  start := rfl
  name := rfl
  constant := rfl
  numeral := rfl
  body := h
  branch := .none
  results := .none
  isCall := rfl
  chain := .nil
  target := follows_fault _

lemma follows_ofLiteral (value : Except CompileCause Value) :
    (ofLiteral start value).Follows (ofLiteral .lineOne value) := by
  cases value <;> exact follows_plain start _ _ inferInstance

lemma follows_ofNumber (raw : Bytes) : (ofNumber start raw).Follows (ofNumber .lineOne raw) :=
  { follows_ofLiteral start _ with numeral := rfl }

lemma follows_ofResults {results results' : Nat → Bool → ResultCount → Gen Unit} (isCall : Bool)
    (h : ∀ dst fresh n, Gen.Follows (results dst fresh n) (results' dst fresh n)) :
    (ofResults start isCall results).Follows (ofResults .lineOne isCall results') :=
  { follows_plain start none none fun dst fresh => h dst fresh (.exactly 1) with
    isCall := rfl
    results := .some h }

lemma follows_ofVararg : (ofVararg start).Follows (ofVararg .lineOne) :=
  have : Blind (·.isVararg) := ⟨fun _ => rfl⟩
  follows_ofResults start false inferInstance

lemma follows_ofCall (_ : e.Follows e') (method : Option Ident)
    (ha : List.Forall₂ Follows args args') :
    (ofCall start e method args).Follows (ofCall .lineOne e' (method.map Ident.flat) args') :=
  follows_ofResults start true fun dst fresh n => by
    have := fun inPlace base => follows_finishCall start.line ha inPlace dst base n
    infer_instance

lemma follows_ofParen (h : e.Follows e') : (ofParen start e).Follows (ofParen .lineOne e') :=
  { follows_plain start none none h.toReg with
    constant := h.constant
    numeral := h.numeral
    branch := .some h.jumpIf }

lemma follows_ofMember (_ : e.Follows e') (_ : left.Follows left') :
    (ofMember start e left).Follows (ofMember .lineOne e' left') := by
  refine { follows_plain start none none fun dst fresh => ?_ with target := ?_ }
  all_goals
    refine .then fun i? => ?_
    cases i? <;> exact .bind

lemma follows_ofFolded {code code' : Option Value → ExprCode}
    (folded : Except FoldingFault (Option Value)) (h : ∀ n, (code n).Follows (code' n)) :
    (ofFolded start folded code).Follows (ofFolded .lineOne folded code') := by
  cases folded with
  | ok numeral => exact h numeral
  | error e =>
    exact { follows_plain start none none fun _ _ => follows_fault _ with
      branch := .some fun _ => follows_fault _ }

lemma follows_ofUnary (op : UnaryOp) (h : e.Follows e') :
    (ofUnary start op e).Follows (ofUnary .lineOne op e') := by
  have hf : foldedUnary op e' = foldedUnary op e := by
    unfold foldedUnary
    rw [h.numeral]
  unfold ofUnary
  rw [hf, h.constant]
  refine follows_ofFolded start _ fun numeral =>
    { follows_plain start _ numeral inferInstance with branch := ?_ }
  split
  · exact .some inferInstance
  · exact .none

instance follows_arithmeticOperands [hl : left.Follows left'] [right.Follows right'] (dst : Nat)
    (fresh : Bool) : Gen.Follows (arithmeticOperands left right dst fresh)
      (arithmeticOperands left' right' dst fresh) := by
  unfold arithmeticOperands
  rw [hl.numeral]
  infer_instance

lemma follows_ofArithmetic (op : OpCode) [hl : left.Follows left'] [hr : right.Follows right'] :
    (ofArithmetic start op left right).Follows (ofArithmetic .lineOne op left' right') := by
  have hf : foldedBinary op left' right' = foldedBinary op left right := by
    rw [foldedBinary, hl.numeral, hr.numeral, foldedBinary]
  unfold ofArithmetic
  rw [hf]
  exact follows_ofFolded start _ fun numeral => follows_plain start _ _ fun dst fresh => .bind

instance follows_comparisonOperands (op : BinaryOp) [left.Follows left'] [right.Follows right']
    (dst : Nat) (fresh : Bool) : Gen.Follows (comparisonOperands op left right dst fresh)
      (comparisonOperands op left' right' dst fresh) := .bind

lemma follows_ofComparison (op : BinaryOp) [left.Follows left'] [right.Follows right'] :
    (ofComparison start op left right).Follows (ofComparison .lineOne op left' right') :=
  { follows_plain start none none fun _ _ => .then fun (_, _) => .bind with
    branch := .some fun _ => .then fun (_, _) => .bind }

lemma follows_ofLogical (isOr : Bool) [left.Follows left'] [right.Follows right'] :
    (ofLogical start isOr left right).Follows (ofLogical .lineOne isOr left' right') :=
  { follows_plain start none none fun _ _ => .then fun _ => .then fun _ => .ite with
    branch := .some fun _ => .ite }

lemma follows_forM {chain chain' : List (Gen Unit)} (h : List.Forall₂ Gen.Follows chain chain') :
    Gen.Follows (chain.forM id) (chain'.forM id) := by
  induction h with
  | nil => exact follows_pure _
  | cons hp _ ih => exact @Gen.Follows.bind _ _ _ _ _ _ hp fun _ => ih

lemma follows_ofConcat [left.Follows left'] [right.Follows right'] :
    (ofConcat start left right).Follows (ofConcat .lineOne left' right') := by
  have hc : List.Forall₂ Gen.Follows (discard left.nextReg :: right.operands)
      (discard left'.nextReg :: right'.operands) := .cons .discard Follows.operands
  have ha := follows_forM hc
  refine { follows_plain start none none fun dst fresh => .then fun top => ?_ with chain := hc }
  rw [← hc.length_eq]
  exact .ite

lemma follows_ofBinary (op : BinaryOp) (_ : left.Follows left') (_ : right.Follows right') :
    (ofBinary start op left right).Follows (ofBinary .lineOne op left' right') := by
  unfold ofBinary
  split
  · exact follows_ofLogical start false
  · exact follows_ofLogical start true
  · exact follows_ofConcat start
  · split
    · exact follows_ofArithmetic start _
    · exact follows_ofComparison start op

end ExprCode

class FieldCode.Follows (f f' : FieldCode) : Prop where
  start : f'.start = .lineOne
  kind : f'.kind = f.kind
  key : f.key.Follows f'.key
  value : f.value.Follows f'.value

attribute [instance] FieldCode.Follows.key FieldCode.Follows.value

namespace Gen

instance follows_storePair {f f' : FieldCode} (t : Nat) [h : f.Follows f'] :
    Follows (storePair t f) (storePair t f') := by
  unfold storePair
  rw [h.start]
  infer_instance

lemma follows_storeFields {fields fields' : List FieldCode} (t : Nat)
    (h : List.Forall₂ FieldCode.Follows fields fields') (n : FieldCount) :
    Follows (storeFields t fields n) (storeFields t fields' n) := by
  induction h generalizing n with
  | nil => exact .ite
  | @cons f f' rest rest' hf hre ih =>
    have hr := hf.value.results
    unfold storeFields
    rw [hf.start, hf.kind]
    generalize f.value.results = results, f'.value.results = results' at hr
    cases hr with
    | none => cases hre <;> exact .bind
    | some hr => cases hre <;> exact .bind

end Gen

lemma ExprCode.follows_ofTable {fields fields' : List FieldCode} (start : Position)
    (h : List.Forall₂ FieldCode.Follows fields fields') :
    (ofTable start fields).Follows (ofTable .lineOne fields') :=
  have := fun t => follows_storeFields t h
  follows_plain start none none fun _ _ => .then fun _ => .ite

end LuaBytecode
