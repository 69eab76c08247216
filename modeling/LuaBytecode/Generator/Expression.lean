import LuaBytecode.FloatingByte
import LuaBytecode.Generator.Operand
import LuaBytecode.Tree

namespace LuaBytecode

namespace Gen

def loadName (name : Bytes) (dst : Nat) : Gen Unit := do
  match ← resolve name with
  | .local r => if r = dst then pure () else discard <| emitABC .move dst r 0
  | .upvalue i => discard <| emitABC .getUpval dst i 0
  | .global =>
    let env ← resolveEnvironment
    let key ← operandOfValue (.string name)
    match env with
    | .local r => discard <| emitABC .getTable dst r key
    | .upvalue i => discard <| emitABC .getTabUp dst i key
    | .global => fault .noEnvironment
    freeOperand key

def nameTarget (name : Bytes) : Gen AssignTarget := do
  match ← resolve name with
  | .local r => return .local r
  | .upvalue i => return .upvalue i
  | .global =>
    let env ← resolveEnvironment
    let key ← operandOfValue (.string name)
    match env with
    | .local r => return .indexed r key
    | .upvalue i => return .indexedUpvalue i key
    | .global => fault .noEnvironment

def moveAll (dst src : Nat) : (n : Nat) → (i : Nat) → Gen Unit
  | 0, _ => return
  | n + 1, i => do
      discard <| emitABC .move (dst + i) (src + i) 0
      moveAll dst src n (i + 1)

def arguments : List ExprCode → Gen Bool
  | [] => return false
  | e :: rest => do
      match rest, e.results with
      | [], some results =>
        let r ← reserve 1
        results r true .all
        return true
      | _, _ =>
        discard e.nextReg
        arguments rest

def loadCallee (base : Nat) (callee : ExprCode) (method : Option Ident) : Gen Unit := do
  match method with
  | some method =>
    let object ←
      match ← callee.local? with
      | some r => pure r
      | none =>
        let r ← callee.nextReg
        free r
        pure r
    discard <| reserve 2
    let key ← operandOfValue (.string method.name)
    setPos method.span.start
    discard <| emitABC .self base object key
    freeOperand key
  | none => discard callee.nextReg

def finishCall (line : Int) (args : List ExprCode) (inPlace : Bool) (dst base : Nat)
    (n : ResultCount) : Gen Unit := do
  let isOpen ← arguments args
  let top ← read (·.firstFree)
  setLine line
  discard <| emitABC .call base (if isOpen then 0 else top - base) n.arg
  setFirstFree base
  discard <| reserve n.slots
  if inPlace then return
  match n with
  | .exactly n => moveAll dst base n 0
  | .all => pure ()
  setFirstFree base

def setList (t n : Nat) (pending : Option Nat) : Gen Unit := do
  let batch := (n - 1) / fieldsPerFlush + 1
  let count := pending.getD 0
  if batch ≤ Instruction.maxC then discard <| emitABC .setList t count batch
  else if batch ≤ Instruction.maxAx then
    discard <| emitABC .setList t count 0
    discard <| emit (Instruction.extraArgument batch)
  else fail .constructorTooLong
  setFirstFree (t + 1)

end Gen

open Gen

namespace ExprCode

def ofName (id : Ident) : ExprCode where
  start := id.span.start
  name := some id.name
  body := fun dst _ => loadName id.name dst
  target := nameTarget id.name

def ofLiteral (start : Position) (value : Except CompileCause Value) : ExprCode :=
  match value with
  | .ok v => { start, constant := some v, body := fun dst _ => loadValue dst v }
  | .error cause => { start, body := fun _ _ => fail cause }

def ofNumber (start : Position) (raw : Bytes) : ExprCode :=
  let value := (parseNumeral? raw).map Value.ofNumber
  { ofLiteral start (value.elim (.error (.malformedNumber raw)) .ok) with numeral := value }

def ofString (start : Position) (raw : Bytes) (long : Bool) : ExprCode :=
  ofLiteral start ((stringValue raw long).map Value.string |>.mapError .malformedString)

def ofResults (start : Position) (isCall : Bool)
    (results : (dst : Nat) → (fresh : Bool) → ResultCount → Gen Unit) : ExprCode where
  start := start
  body := fun dst fresh => results dst fresh (.exactly 1)
  results := some results
  isCall := isCall

def ofVararg (start : Position) : ExprCode := ofResults start false fun dst _ n => do
    setPos start
    if !(← read (·.isVararg)) then fail .varargOutside
    discard <| emitABC .vararg dst n.arg 0

def ofCall (start : Position) (callee : ExprCode) (method : Option Ident) (args : List ExprCode) :
    ExprCode :=
  ofResults start true fun dst fresh n => do
    let inPlace := fresh && dst + n.slots = (← read (·.firstFree))
    if inPlace then setFirstFree dst
    else if n = .all then fault .openCallBelowTop
    let base ← read (·.firstFree)
    loadCallee base callee method
    finishCall start.line args inPlace dst base n

def ofParen (start : Position) (inner : ExprCode) : ExprCode where
  start := start
  constant := inner.constant
  numeral := inner.numeral
  body := inner.toReg
  branch := some inner.jumpIf

def ofMember (start : Position) (object key : ExprCode) : ExprCode where
  start := start
  body := fun dst fresh => do
    match ← object.upvalue? with
    | some i =>
      let key ← key.operand
      setPos start
      discard <| emitABC .getTabUp dst i key
      freeOperand key
    | none =>
      let table ← object.operandReg dst fresh
      let key ← key.operand
      setPos start
      discard <| emitABC .getTable dst table key
      freeOperand key
      freeUnless dst table
  target := do
    match ← object.upvalue? with
    | some i => return .indexedUpvalue i (← key.operand)
    | none =>
      let table ← object.anyReg
      return .indexed table (← key.operand)

def ofFault (start : Position) (f : GeneratorFault) : ExprCode where
  start := start
  body := fun _ _ => fault f
  branch := some fun _ => fault f

def ofFolded (start : Position) (folded : Except FoldingFault (Option Value))
    (code : (numeral : Option Value) → ExprCode) : ExprCode :=
  match folded with
  | .ok numeral => code numeral
  | .error e => ofFault start (.folding e)

def foldedUnary (op : UnaryOp) (operand : ExprCode) : Except FoldingFault (Option Value) :=
  match op, operand.numeral with
  | .neg, some v | .bnot, some v => fold op.opCode v .nil
  | _, _ => .ok none

def ofUnary (start : Position) (op : UnaryOp) (operand : ExprCode) : ExprCode :=
  ofFolded start (foldedUnary op operand) fun numeral =>
    { start
      constant := if op = .not then operand.constant.map (.bool !·.isTruthy) else numeral
      numeral
      body := fun dst fresh => do
        let r ← operand.operandReg dst fresh
        setPos start
        discard <| emitABC op.opCode dst r 0
        freeUnless dst r
      branch := if op = .not then some fun wanted => operand.jumpIf !wanted else none }

def foldedBinary (op : OpCode) (left right : ExprCode) : Except FoldingFault (Option Value) :=
  match left.numeral, right.numeral with
  | some v, some w => fold op v w
  | _, _ => .ok none

def arithmeticOperands (left right : ExprCode) (dst : Nat) (fresh : Bool) : Gen (Nat × Nat) := do
  if left.numeral.isSome then
    -- A numeral waits until the right operand is evaluated.
    let c ← right.operand
    let b ← left.operand
    return (b, c)
  else
    let b ← left.leftOperand dst fresh
    let c ← right.operand
    return (b, c)

def ofArithmetic (start : Position) (op : OpCode) (left right : ExprCode) : ExprCode :=
  ofFolded start (foldedBinary op left right) fun numeral =>
    { start, constant := numeral, numeral
      body := fun dst fresh => do
        let (b, c) ← arithmeticOperands left right dst fresh
        setPos start
        discard <| emitABC op dst b c
        freeOperands (some dst) b c }

/-- The instruction that skips the next one unless a comparison is true: opcode, wanted outcome, and
whether the operands change places. -/
def comparison : BinaryOp → OpCode × Bool × Bool
  | .ne => (.eq, false, false)
  | .lt => (.lt, true, false)
  | .le => (.le, true, false)
  | .gt => (.lt, true, true)
  | .ge => (.le, true, true)
  | _ => (.eq, true, false)

def comparisonOperands (op : BinaryOp) (left right : ExprCode) (dst : Nat) (fresh : Bool) :
    Gen (Nat × Nat) := do
  let b ← left.leftOperand dst fresh
  let c ← right.operand
  return if (comparison op).2.2 then (c, b) else (b, c)

def ofComparison (start : Position) (op : BinaryOp) (left right : ExprCode) : ExprCode where
  start := start
  body := fun dst fresh => do
    let (b, c) ← comparisonOperands op left right dst fresh
    setPos start
    freeOperands (some dst) b c
    discard <| emitABC (comparison op).1 (comparison op).2.1.toNat b c
    let jumps ← jump
    discard label
    discard <| emitABC .loadBool dst 0 1
    patchTo jumps (← label)
    discard <| emitABC .loadBool dst 1 0
    discard label
  branch := some fun wanted => do
    let (b, c) ← comparisonOperands op left right 0 false
    setPos start
    freeOperands none b c
    discard <| emitABC (comparison op).1 ((comparison op).2.1 == wanted).toNat b c
    jump

def ofLogical (start : Position) (isOr : Bool) (left right : ExprCode) : ExprCode where
  start := start
  body := fun dst fresh => do
    let r ← left.operandReg dst fresh
    setPos start
    if r = dst then discard <| emitABC .test dst 0 isOr.toNat
    else
      free r
      discard <| emitABC .testSet dst r isOr.toNat
    let done ← jump
    right.toReg dst fresh
    patchToHere done
  branch := some fun wanted => do
    if isOr = wanted then
      -- Either operand alone decides.
      let first ← left.jumpIf wanted
      let second ← right.jumpIf wanted
      return first ++ second
    else
      let skip ← left.jumpIf !wanted
      let jumps ← right.jumpIf wanted
      patchToHere skip
      return jumps

def ofConcat (start : Position) (left right : ExprCode) : ExprCode :=
  let chain := discard left.nextReg :: right.operands
  { start, chain
    body := fun dst fresh => do
      let inPlace := fresh && dst + 1 = (← read (·.firstFree))
      if inPlace then setFirstFree dst
      let base ← read (·.firstFree)
      chain.forM id
      setPos start
      discard <| emitABC .concat dst base (base + chain.length - 1)
      setFirstFree (if inPlace then dst + 1 else base) }

def ofBinary (start : Position) (op : BinaryOp) (left right : ExprCode) : ExprCode :=
  match op with
  | .and => ofLogical start false left right
  | .or => ofLogical start true left right
  | .concat => ofConcat start left right
  | op =>
    match op.arithmetic? with
    | some code => ofArithmetic start code left right
    | none => ofComparison start op left right

end ExprCode

structure FieldCode where
  start : Position
  kind : FieldKind
  key : ExprCode
  value : ExprCode

/-- The entries of a table constructor so far, and how many items wait in registers. -/
structure FieldCount where
  items : Nat
  pairs : Nat
  pending : Nat
  deriving DecidableEq, Repr

namespace Gen

def storePair (t : Nat) (f : FieldCode) : Gen Unit := do
  let top ← read (·.firstFree)
  let key ← f.key.operand
  let value ← f.value.operand
  setPos f.start
  discard <| emitABC .setTable t key value
  freeOperand value
  freeOperand key
  setFirstFree top

def storeFields (t : Nat) : List FieldCode → FieldCount → Gen FieldCount
  | [], n => do
      if 0 < n.pending then setList t n.items (some n.pending)
      return n
  | f :: rest, n => do
      setPos f.start
      if f.kind ≠ .positional then
        storePair t f
        storeFields t rest { n with pairs := n.pairs + 1 }
      else
        match rest, f.value.results with
        | [], some results =>
          let r ← reserve 1
          results r true .all
          setList t (n.items + 1) none
          return n
        | _, _ =>
          discard f.value.nextReg
          let n := { n with items := n.items + 1, pending := n.pending + 1 }
          if n.pending = fieldsPerFlush then
            setList t n.items (some n.pending)
            storeFields t rest { n with pending := 0 }
          else storeFields t rest n

end Gen

def ExprCode.ofTable (start : Position) (fields : List FieldCode) : ExprCode where
  start := start
  body := fun dst fresh => do
    let isTop := fresh && dst + 1 = (← read (·.firstFree))
    let t ← if isTop then pure dst else reserve 1
    let pc ← emitABC .newTable t 0 0
    let n ← storeFields t fields ⟨0, 0, 0⟩
    replace pc (Instruction.abc .newTable t.toUInt8 (FloatingByte.ofNat n.items)
      (FloatingByte.ofNat n.pairs))
    if t ≠ dst then
      setPos start
      discard <| emitABC .move dst t 0
      setFirstFree t

end LuaBytecode
