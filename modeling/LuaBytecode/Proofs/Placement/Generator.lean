import LuaBytecode.Generator.Operand
import LuaBytecode.Generator.Scope
import LuaBytecode.Proofs.Placement.Tree
import Mathlib.Data.List.Forall2
import Mathlib.Tactic.Simps.Basic

namespace LuaBytecode

open Generator

section

namespace Prototype

mutual

def flat : Prototype → Prototype
  | ⟨numParams, isVararg, maxStackSize, code, constants, upvalues, functions,
      source, _, _, lineInfo, localVariables, form⟩ =>
      { numParams, isVararg, maxStackSize, code, constants, upvalues
        functions := flatAll functions
        source, lineDefined := 1, lastLineDefined := 1
        lineInfo := lineInfo.map fun _ => 1
        localVariables, form }

def flatAll : List Prototype → List Prototype
  | [] => []
  | f :: rest => f.flat :: flatAll rest

end

lemma flatAll_eq_map (fs : List Prototype) : flatAll fs = fs.map flat := by
  induction fs with
  | nil => rfl
  | cons f fs ih => rw [flatAll, ih, List.map_cons]

end Prototype

def GenerateError.flat : GenerateError → GenerateError
  | .compile e => .compile { e with pos := .lineOne }
  | .internal fault => .internal fault

def flatResult {α β : Type} (f : α → β) : Except GenerateError α → Except GenerateError β
  | .ok a => .ok (f a)
  | .error e => .error e.flat

namespace Draft

@[simps]
def flat (d : Draft) : Draft :=
  { d with
    lineDefined := 1, lastLineDefined := 1
    lineInfo := d.lineInfo.map fun _ => 1
    functions := d.functions.map Prototype.flat
    line := 1, pos := .lineOne }

variable (d : Draft)

lemma prototype_flat : d.flat.prototype = d.prototype.flat := by
  simp only [prototype, flat, Prototype.flat, Prototype.flatAll_eq_map, Array.toList_map]

lemma setPos_flat (p : Position) : d.flat.setPos .lineOne = (d.setPos p).flat := by
  unfold setPos
  split <;> split <;> rfl

def Blind (f : Draft → Except GenerateError Draft) : Prop :=
  ∀ d : Draft, f d.flat = flatResult flat (f d)

lemma error_flat (cause : CompileCause) : d.flat.error cause = (d.error cause).flat := rfl

lemma Blind.bind {f f' : Draft → Except GenerateError Draft} (h : Blind f) (h' : Blind f') :
    Blind fun d => match f d with
      | .ok d => f' d
      | .error e => .error e := by
  intro d
  simp only [h d]
  cases f d with
  | ok d' => exact h' d'
  | error e => rfl

lemma blind_fixJump (target pc : Nat) : Blind (·.fixJump target pc) := by
  intro d
  simp only [fixJump, flat_code, error_flat]
  split
  · rfl
  · split <;> rfl

lemma blind_fixJumps (target : Nat) (jumps : List Nat) : Blind (fixJumps target jumps) := by
  induction jumps with
  | nil => exact fun d => rfl
  | cons pc rest ih => exact (blind_fixJump target pc).bind ih

lemma blind_emit (i : Instruction) : Blind (·.emit i) := by
  intro d
  have hp : Blind fun d =>
      .ok { d with code := d.code.push i, lineInfo := d.lineInfo.push (.ofInt d.line) } := by
    intro d
    simp only [flatResult, flat, Array.map_push]
    rfl
  exact (blind_fixJumps d.code.size d.pending).bind hp { d with pending := [] }

lemma blind_closeAt (level pc : Nat) : Blind (·.closeAt level pc) := by
  intro d
  simp only [closeAt, flat_code]
  split
  · split
    · rfl
    · split <;> rfl
  · rfl

lemma blind_closeAll (level : Nat) (jumps : List Nat) : Blind (closeAll level jumps) := by
  induction jumps with
  | nil => exact fun d => rfl
  | cons pc rest ih => exact (blind_closeAt level pc).bind ih

lemma blind_checkStack (n : Nat) : Blind (·.checkStack n) := by
  intro d
  simp only [checkStack, flat_firstFree, flat_maxStackSize, error_flat]
  split
  · rfl
  · split <;> rfl

lemma free_flat (r : Nat) : d.flat.free r = (d.free r).flat := by
  simp only [free, flat_active, flat_firstFree, flat_released]
  split
  · rfl
  · split
    · split <;> rfl
    · rfl

lemma blind_declare (name : Bytes) : Blind (·.declare name) := by
  intro d
  simp only [declare, flat_active, error_flat]
  split <;> rfl

lemma blind_declareAll (names : List Bytes) : Blind (declareAll names) := by
  induction names with
  | nil => exact fun d => rfl
  | cons name rest ih => exact (blind_declare name).bind ih

lemma lastNamed_flat (name : Bytes) (n : Nat) :
    d.flat.lastNamed name n = flatResult id (d.lastNamed name n) := by
  induction n with
  | zero => rfl
  | succ n ih =>
    simp only [lastNamed, variableAt, flat_active, flat_localVariables, ih]
    split
    · split <;> rfl
    · rfl

lemma register_flat (name : Bytes) : d.flat.register name = flatResult id (d.register name) :=
  d.lastNamed_flat name d.active.size

lemma upvalue?_flat (name : Bytes) : d.flat.upvalue? name = d.upvalue? name := rfl

lemma blind_addUpvalue (name : Bytes) (inStack : Bool) (index : Nat) :
    Blind (·.addUpvalue name inStack index) := by
  intro d
  simp only [addUpvalue, flat_upvalues, error_flat]
  split <;> rfl

lemma blind_markCaptured (register : Nat) : Blind (·.markCaptured register) := by
  intro d
  simp only [markCaptured, flat_blocks]
  split <;> rfl

lemma blind_startVariable (r : Nat) : Blind (·.startVariable r) := by
  intro d
  simp only [startVariable, flat_active, flat_localVariables]
  split
  · rfl
  · split <;> rfl

lemma blind_undeclare (level : Nat) : Blind (·.undeclare level) := by
  intro d
  simp only [undeclare, flat_active, flat_localVariables]
  split <;> rfl

lemma patchToHere_flat (jumps : List Nat) :
    d.flat.patchToHere jumps = (d.patchToHere jumps).flat := rfl

lemma foldl_patchToHere_flat (breaks : Array PendingBreak) (start : Nat) :
    breaks.foldl (fun d b => d.patchToHere b.jumps) d.flat start =
      (breaks.foldl (fun d b => d.patchToHere b.jumps) d start).flat := by
  rw [Array.foldl_eq_foldl_extract, ← Array.foldl_toList, Array.foldl_eq_foldl_extract,
    ← Array.foldl_toList]
  refine List.foldl_hom flat ?_
  exact fun d b => d.patchToHere_flat b.jumps

lemma blind_patchBreaks (firstBreak : Nat) : Blind (·.patchBreaks firstBreak) := by
  intro d
  simp only [patchBreaks, flat_breaks, foldl_patchToHere_flat]
  split <;> rfl

lemma blind_closeBreaks (b : Block) (i count : Nat) : Blind (closeBreaks b i count) := by
  induction count generalizing i with
  | zero => exact fun d => rfl
  | succ count ih =>
    intro d
    simp only [closeBreaks, flat_breaks]
    split
    · rfl
    · next pending _ =>
      split
      · have hc : Blind fun d =>
            if b.isCaptured then closeAll b.numActive pending.jumps d else .ok d := by
          intro d
          split
          · exact blind_closeAll b.numActive pending.jumps d
          · rfl
        simp only [show _ = _ from hc d]
        cases if b.isCaptured then closeAll b.numActive pending.jumps d else .ok d with
        | error e => rfl
        | ok d' => exact ih (i + 1) { d' with
            breaks := d'.breaks.setIfInBounds i { pending with numActive := b.numActive } }
      · exact ih (i + 1) d

def flatScope : Variable × List Draft → Variable × List Draft
  | (v, ds) => (v, ds.map flat)

lemma resolve_flat (name : Bytes) (isOwn : Bool) (ds : List Draft) :
    resolve name isOwn (ds.map flat) = flatResult flatScope (resolve name isOwn ds) := by
  induction ds generalizing isOwn with
  | nil => rfl
  | cons d outer ih =>
    simp only [List.map_cons, resolve, register_flat, upvalue?_flat, ih]
    rcases d.register name with e | _ | r
    · rfl
    · cases d.upvalue? name with
      | some i => rfl
      | none =>
        rcases resolve name false outer with e | ⟨_ | r | i, outer'⟩
        · rfl
        · rfl
        · simp only [flatResult, flatScope, blind_addUpvalue name true r d]
          cases d.addUpvalue name true r <;> rfl
        · simp only [flatResult, flatScope, blind_addUpvalue name false i d]
          cases d.addUpvalue name false i <;> rfl
    · cases isOwn with
      | true => rfl
      | false =>
        simp only [flatResult, id_eq, blind_markCaptured r d]
        cases d.markCaptured r <;> rfl

end Draft

end

def Generator.flat (g : Generator) : Generator := ⟨g.toDraft.flat, g.enclosing.map Draft.flat⟩

namespace Gen

variable {α β : Type} {p q : Gen α}

def move : Move Generator GenerateError := ⟨flat, fun e e' => e' = e.flat⟩

class Follows (p q : Gen α) : Prop where
  run : move.Follows id p q

instance follows_pure (a : α) : Follows (pure a) (pure a) := ⟨Move.follows_pure rfl⟩

instance Follows.bind {f f' : α → Gen β} [h : Follows p q] [hf : ∀ a, Follows (f a) (f' a)] :
    Follows (p >>= f) (q >>= f') :=
  ⟨h.run.bind fun a => (hf a).run⟩

lemma Follows.then {f f' : α → Gen β} [Follows p q] (_ : ∀ a, Follows (f a) (f' a)) :
    Follows (p >>= f) (q >>= f') := inferInstance

instance Follows.ite {c : Prop} [Decidable c] {p p' q q' : Gen α} [h : Follows p q]
    [h' : Follows p' q'] : Follows (if c then p else p') (if c then q else q') :=
  ⟨.ite Iff.rfl h.run h'.run⟩

instance Follows.discard [Follows p q] :
    Follows (Functor.discard p) (Functor.discard q) :=
  inferInstanceAs (Follows (p >>= fun _ => pure ()) (q >>= fun _ => pure ()))

class Blind (f : Draft → α) : Prop where
  eq : ∀ d : Draft, f d.flat = f d

instance follows_read {f : Draft → α} [h : Blind f] : Follows (read f) (read f) := by
  refine ⟨fun g => ?_⟩
  show Except.ok (f g.toDraft.flat, g.flat) = .ok (f g.toDraft, g.flat)
  rw [h.eq]

lemma follows_update {f f' : Draft → Draft} (h : ∀ d : Draft, f' d.flat = (f d).flat) :
    Follows (update f) (update f') := by
  refine ⟨fun g => ?_⟩
  show Except.ok ((), mk (f' g.toDraft.flat) (g.enclosing.map Draft.flat)) = _
  rw [h]
  rfl

lemma follows_change {f : Draft → Draft} (h : ∀ d : Draft, f d.flat = (f d).flat) :
    Follows (update f) (update f) := follows_update h

lemma follows_updateOrFail {f : Draft → Except GenerateError Draft} (h : Draft.Blind f) :
    Follows (updateOrFail f) (updateOrFail f) := by
  refine ⟨fun g => ?_⟩
  have hg := h g.toDraft
  simp only [updateOrFail, move, flat, hg]
  cases f g.toDraft with
  | ok d => rfl
  | error e => exact ⟨e.flat, rfl, rfl⟩

instance follows_fail (cause : CompileCause) : Follows (fail cause : Gen α) (fail cause) :=
  ⟨Move.follows_error fun _ => ⟨_, _, rfl, rfl, rfl⟩⟩

instance follows_fault (f : GeneratorFault) : Follows (fault f : Gen α) (fault f) :=
  ⟨Move.follows_error fun _ => ⟨_, _, rfl, rfl, rfl⟩⟩

instance follows_setPos (p : Position) : Follows (setPos p) (setPos .lineOne) :=
  follows_update fun d => d.setPos_flat p

instance follows_setLine (line : Int) : Follows (setLine line) (setLine 1) :=
  follows_update fun _ => rfl

instance blind_size : Blind (·.code.size) := ⟨fun _ => rfl⟩
instance blind_pending : Blind (·.pending) := ⟨fun _ => rfl⟩
instance blind_firstFree : Blind (·.firstFree) := ⟨fun _ => rfl⟩
instance blind_released : Blind (·.released) := ⟨fun _ => rfl⟩
instance blind_lastNil? : Blind (·.lastNil?) := ⟨fun _ => rfl⟩
instance blind_find? (v : Value) : Blind (·.constants.find? v) := ⟨fun _ => rfl⟩
instance blind_constants : Blind (·.constants.size) := ⟨fun _ => rfl⟩
instance blind_blocks : Blind (·.blocks) := ⟨fun _ => rfl⟩

instance follows_pc : Follows pc pc := follows_read (f := fun d => d.code.size)

instance follows_emit (i : Except EncodingFault Instruction) : Follows (emit i) (emit i) := by
  cases i with
  | error e => exact follows_fault _
  | ok i =>
    have := follows_updateOrFail (Draft.blind_emit i)
    exact .bind

instance follows_emitABC (op : OpCode) (a b c : Nat) :
    Follows (emitABC op a b c) (emitABC op a b c) := follows_emit _

instance follows_emitABx (op : OpCode) (a bx : Nat) :
    Follows (emitABx op a bx) (emitABx op a bx) := follows_emit _

instance follows_emitAsBx (op : OpCode) (a : Nat) (sbx : Int) :
    Follows (emitAsBx op a sbx) (emitAsBx op a sbx) := follows_emit _

instance follows_replace (pc : Nat) (i : Except EncodingFault Instruction) :
    Follows (replace pc i) (replace pc i) := by
  cases i with
  | error e => exact follows_fault _
  | ok i =>
    simp only [replace]
    exact follows_update fun _ => rfl

instance follows_fixLine (line : Int) : Follows (fixLine line) (fixLine 1) := by
  have hs : Blind (·.lineInfo.size) := ⟨fun d => by simp⟩
  have hse (size : Nat) : Follows
      (update fun d => { d with lineInfo := d.lineInfo.setIfInBounds (size - 1) (.ofInt line) })
      (update fun d => { d with lineInfo := d.lineInfo.setIfInBounds (size - 1) (.ofInt 1) }) := by
    refine follows_update fun d => ?_
    simp only [Draft.flat, Array.map_setIfInBounds]
    rfl
  exact .bind

instance follows_label : Follows label label :=
  have := follows_change (f := (·.label)) fun _ => rfl
  .bind

instance follows_jump : Follows jump jump :=
  have := follows_change (f := ({ · with pending := [] })) fun _ => rfl
  .bind

instance follows_patchToHere (jumps : List Nat) :
    Follows (patchToHere jumps) (patchToHere jumps) :=
  follows_update fun d => d.patchToHere_flat jumps

instance follows_patchTo (jumps : List Nat) (target : Nat) :
    Follows (patchTo jumps target) (patchTo jumps target) :=
  have := follows_updateOrFail (Draft.blind_fixJumps target jumps)
  .bind

instance follows_jumpTo (target : Nat) : Follows (jumpTo target) (jumpTo target) := .bind

instance follows_closeAll (jumps : List Nat) (level : Nat) :
    Follows (closeAll jumps level) (closeAll jumps level) :=
  follows_updateOrFail (Draft.blind_closeAll level jumps)

instance follows_loadNil (first n : Nat) : Follows (loadNil first n) (loadNil first n) := by
  refine .then fun last => ?_
  split <;> infer_instance

instance follows_constant (v : Value) : Follows (constant v) (constant v) := by
  have := follows_change (f := fun d => { d with constants := d.constants.insert v }) fun _ => rfl
  refine .then fun found => ?_
  cases found <;> infer_instance

instance follows_loadConstant (r k : Nat) : Follows (loadConstant r k) (loadConstant r k) := .ite

instance follows_checkStack (n : Nat) : Follows (checkStack n) (checkStack n) :=
  follows_updateOrFail (Draft.blind_checkStack n)

instance follows_reserve (n : Nat) : Follows (reserve n) (reserve n) :=
  have := follows_change (f := fun d => { d with firstFree := d.firstFree + n }) fun _ => rfl
  .bind

instance follows_allocate : Follows allocate allocate := by
  refine .then fun released => ?_
  cases released with
  | nil => exact follows_reserve 1
  | cons r rest =>
    have := follows_change (f := ({ · with released := rest })) fun _ => rfl
    exact .bind

instance follows_free (r : Nat) : Follows (free r) (free r) :=
  follows_update fun d => d.free_flat r

instance follows_freeOperand (arg : Nat) : Follows (freeOperand arg) (freeOperand arg) := .ite

instance follows_setFirstFree (r : Nat) : Follows (setFirstFree r) (setFirstFree r) :=
  follows_update fun _ => rfl

instance follows_declareAll (names : List Bytes) :
    Follows (declareAll names) (declareAll names) :=
  follows_updateOrFail (Draft.blind_declareAll names)

instance follows_register (name : Bytes) : Follows (register name) (register name) := by
  refine ⟨fun g => ?_⟩
  simp only [register, move, flat, Draft.register_flat]
  cases g.register name with
  | ok r => rfl
  | error e => exact ⟨e.flat, rfl, rfl⟩

instance follows_resolve (name : Bytes) : Follows (resolve name) (resolve name) := by
  refine ⟨fun g => ?_⟩
  have hds := Draft.resolve_flat name true (g.toDraft :: g.enclosing)
  rw [List.map_cons] at hds
  simp only [resolve, move, flat, hds]
  rcases Draft.resolve name true (g.toDraft :: g.enclosing) with e | ⟨v, _ | ⟨d, outer⟩⟩
  · exact ⟨e.flat, rfl, rfl⟩
  · rfl
  · rfl

instance follows_upvalue? (name : Bytes) : Follows (upvalue? name) (upvalue? name) := by
  refine ⟨fun g => ?_⟩
  have hre := (follows_resolve name).run g
  simp only [upvalue?, move, flat, Draft.register_flat] at hre ⊢
  rcases g.register name with e | _ | r
  · exact ⟨e.flat, rfl, rfl⟩
  · rcases hr : resolve name g with (e | f) | ⟨_ | r | i, g'⟩ <;> rw [hr] at hre
    · obtain ⟨e', he', rfl⟩ := hre
      simp only [he']
      rfl
    · obtain ⟨e', he', rfl⟩ := hre
      simp only [he']
      exact ⟨_, rfl, rfl⟩
    all_goals simp only [hre]; rfl
  · rfl

instance follows_resolveEnvironment : Follows resolveEnvironment resolveEnvironment := by
  refine .then fun v => ?_
  cases v <;> infer_instance

instance follows_enterBlock (isLoop : Bool) : Follows (enterBlock isLoop) (enterBlock isLoop) :=
  follows_update fun _ => rfl

instance follows_closeScope (b : Block) (isOutermost : Bool) :
    Follows (closeScope b isOutermost) (closeScope b isOutermost) := .ite

instance follows_endLoop (b : Block) : Follows (endLoop b) (endLoop b) :=
  have := follows_updateOrFail (Draft.blind_patchBreaks b.firstBreak)
  .ite

instance follows_leaveBlock : Follows leaveBlock leaveBlock := by
  refine .then fun blocks => ?_
  cases blocks with
  | nil => exact follows_fault _
  | cons b outer =>
    have hl : Follows (updateOrFail fun d => Draft.undeclare { d with blocks := outer } b.numActive)
        _ := follows_updateOrFail fun d =>
          Draft.blind_undeclare b.numActive { d with blocks := outer }
    have hc : Follows (updateOrFail fun d =>
        Draft.closeBreaks b b.firstBreak (d.breaks.size - b.firstBreak) d) _ :=
      follows_updateOrFail fun d => Draft.blind_closeBreaks b b.firstBreak _ d
    have hf := follows_change (f := (·.setFirstFree b.numActive)) fun _ => rfl
    exact .bind

instance follows_isInLoop : Follows isInLoop isInLoop :=
  follows_read (h := ⟨fun _ => rfl⟩)

instance follows_addBreak (jumps : List Nat) : Follows (addBreak jumps) (addBreak jumps) :=
  follows_update fun _ => rfl

instance follows_finish (line : Int) : Follows (finish line) (finish 1) :=
  have : Blind fun d => !d.blocks.isEmpty || !d.pending.isEmpty := ⟨fun _ => rfl⟩
  .bind

lemma follows_closeFunction (line : Int) :
    move.Follows Prototype.flat (closeFunction line) (closeFunction 1) := by
  refine (follows_finish line).run.bind fun _ => ?_
  rintro ⟨current, _ | ⟨outer, rest⟩⟩
  · exact ⟨_, rfl, rfl⟩
  · show Except.ok (current.flat.prototype, _) = .ok (current.prototype.flat, _)
    rw [Draft.prototype_flat]
    rfl

instance follows_loadValue (dst : Nat) (v : Value) :
    Follows (loadValue dst v) (loadValue dst v) := by
  cases v with
  | nil => exact follows_loadNil dst 1
  | bool b => exact .discard
  | _ => exact .bind

instance follows_operandOfValue (v : Value) : Follows (operandOfValue v) (operandOfValue v) := by
  refine .then fun k => ?_
  cases Operand.ofConstant k <;> exact .ite

instance follows_jumpIfValue (v : Value) (wanted : Bool) :
    Follows (jumpIfValue v wanted) (jumpIfValue v wanted) := .ite

instance follows_freeUnless (kept r : Nat) : Follows (freeUnless kept r) (freeUnless kept r) := .ite

instance follows_freeOperands (kept : Option Nat) (b c : Nat) :
    Follows (freeOperands kept b c) (freeOperands kept b c) := .ite

end Gen

end LuaBytecode
