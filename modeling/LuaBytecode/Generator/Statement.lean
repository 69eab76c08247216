import LuaBytecode.Generator.Expression

namespace LuaBytecode

namespace AssignTarget

/-- The target with a copy in register `extra` where it uses a variable that is assigned to. -/
def protect (extra : Nat) (assigned : AssignTarget) (t : AssignTarget) : AssignTarget :=
  match assigned, t with
  | .local r, .indexed table key =>
    .indexed (if table = r then extra else table) (if key = r then extra else key)
  | .local r, .indexedUpvalue table key => .indexedUpvalue table (if key = r then extra else key)
  | .upvalue i, .indexedUpvalue table key =>
    if table = i then .indexed extra key else .indexedUpvalue table key
  | _, _ => t

end AssignTarget

namespace Gen

def adjustTop (top : Nat) : Gen Unit := do
  let firstFree ← read (·.firstFree)
  if firstFree < top then discard <| reserve (top - firstFree) else setFirstFree top

def evaluate : List ExprCode → (wanted : Nat) → Gen Unit
  | [], wanted => do
      if 0 < wanted then
        let r ← reserve wanted
        loadNil r wanted
  | e :: rest, wanted => do
      match rest, e.results with
      | [], some results =>
        let r ← reserve (max wanted 1)
        results r true (.exactly wanted)
      | _, _ =>
        discard e.nextReg
        evaluate rest (wanted - 1)

def assignValues (values : List ExprCode) (n : Nat) : Gen Nat := do
  let base ← read (·.firstFree)
  evaluate values n
  adjustTop (base + n)
  return base

/-- If a variable is assigned to that earlier targets use, these go on with a copy of it. -/
def protectTargets (earlier : List AssignTarget) (assigned : AssignTarget) :
    Gen (List AssignTarget) := do
  let extra ← read (·.firstFree)
  let changed := earlier.map (AssignTarget.protect extra assigned)
  if changed = earlier then return earlier
  match assigned with
  | .local r => discard <| emitABC .move extra r 0
  | .upvalue i => discard <| emitABC .getUpval extra i 0
  | _ => pure ()
  discard <| reserve 1
  return changed

def targets : List ExprCode → (done : List AssignTarget) → Gen (List AssignTarget)
  | [], done => return done
  | e :: rest, done => do
      let t ← e.target
      let done ← protectTargets done t
      targets rest (t :: done)

def storeOperand (t : AssignTarget) (arg : Nat) : Gen Unit :=
  match t with
  | .local r => if r = arg then pure () else discard <| emitABC .move r arg 0
  | .upvalue i => discard <| emitABC .setUpval arg i 0
  | .indexed table key => discard <| emitABC .setTable table key arg
  | .indexedUpvalue table key => discard <| emitABC .setTabUp table key arg

def store (t : AssignTarget) (e : ExprCode) : Gen Unit := do
  match t with
  | .local r => e.toReg r false
  | .upvalue _ =>
    let r ← e.anyReg
    storeOperand t r
    free r
  | _ =>
    let arg ← e.operand
    storeOperand t arg
    freeOperand arg

def storeDown : List AssignTarget → (top : Nat) → Gen Unit
  | [], _ => return
  | t :: rest, top => do
      storeOperand t (top - 1)
      storeDown rest (top - 1)

def nextRegs : List ExprCode → Gen Unit
  | [] => return
  | e :: rest => do
      discard e.nextReg
      nextRegs rest

/-- An assignment: targets from left to right, values from left to right, then the assignments from
right to left. -/
def assign (start : Position) (targets values : List ExprCode) : Gen Unit := do
  let done ← Gen.targets targets []
  setPos start
  let n := done.length
  match done, values.getLast? with
  | last :: earlier, some value =>
    if values.length = n then
      let base ← read (·.firstFree)
      nextRegs values.dropLast
      store last value
      storeDown earlier (base + n - 1)
    else
      let base ← assignValues values n
      storeDown done (base + n)
  | _, _ =>
    let base ← assignValues values n
    storeDown done (base + n)

def declareLocals (names : List Ident) (values : List ExprCode) : Gen Unit := do
  discard <| assignValues values names.length
  declareAll (names.map (·.name))

def closure (span : Span) (params : List Ident) (isVararg : Bool) (body : Gen Unit) (dst : Nat) :
    Gen Unit := do
  if Instruction.maxBx < (← read (·.functions.size)) then fail .tooManyFunctions
  if maxVariables < params.length then
    setPos span.start
    fail .tooManyLocals
  let source ← read (·.source)
  openFunction (.new source params.length.toUInt8 isVararg span.start.line span.stop.line #[])
  setPos span.start
  declareAll (params.map (·.name))
  discard <| reserve params.length
  body
  let f ← closeFunction span.stop.line
  update fun d => { d with functions := d.functions.push f }
  setLine span.stop.line
  let count ← read (·.functions.size)
  discard <| emitABx .closure dst (count - 1)

end Gen

open Gen

def ExprCode.ofFunction (span : Span) (params : List Ident) (isVararg : Bool) (body : Gen Unit) :
    ExprCode where
  start := span.start
  body := fun dst _ => closure span params isVararg body dst

namespace Gen

def declareFunction (start : Position) (target function : ExprCode) : Gen Unit := do
  let t ← target.target
  store t function
  fixLine start.line

def declareLocalFunction (name : Bytes) (function : Nat → Gen Unit) : Gen Unit := do
  let r ← reserve 1
  declareAll [name]
  function r
  updateOrFail (·.startVariable r)

def block (body : Gen Unit) : Gen Unit := do
  enterBlock false
  body
  leaveBlock

def callStatement (call : ExprCode) : Gen Unit := do
  let r ← reserve 1
  match call.results with
  | some results => results r true (.exactly 0)
  | none => fault .notACall

def whileLoop (cond : ExprCode) (body : Gen Unit) (lastLine : Int) : Gen Unit := do
  let start ← label
  let exits ← cond.jumpIf false
  enterBlock true
  block body
  setLine lastLine
  jumpTo start
  leaveBlock
  patchToHere exits

/-- Lets jumps out of the innermost block close its variables, if there is a closure with one of
them. -/
def closeInnermost (jumps : List Nat) : Gen Unit := do
  match ← read (·.blocks.head?) with
  | some scope => if scope.isCaptured then closeAll jumps scope.numActive
  | none => fault .openBlocks

def repeatLoop (body : Gen Unit) (cond : ExprCode) : Gen Unit := do
  let start ← label
  enterBlock true
  enterBlock false
  body
  setPos cond.start
  let again ← cond.jumpIf false
  closeInnermost again
  leaveBlock
  patchTo again start
  leaveBlock

end Gen

structure ClauseBody where
  all : Gen Unit
  afterBreak : Option (Option (Gen Unit))

namespace Gen

def endClause (isLast : Bool) (escapes : List Nat) (rest : Gen Unit) (skip : List Nat) :
    Gen (List Nat) := do
  rest
  leaveBlock
  if isLast then
    patchToHere skip
    return escapes
  else
    let escape ← jump
    patchToHere skip
    return escapes ++ escape

def clause (test : ExprCode) (body : ClauseBody) (isLast : Bool) (escapes : List Nat) :
    Gen (List Nat) := do
  match body.afterBreak, ← isInLoop with
  | some rest?, true =>
    let breaks ← test.jumpIf true
    enterBlock false
    addBreak breaks
    match rest? with
    | none =>
      leaveBlock
      return escapes
    | some rest =>
      let skip ← jump
      endClause isLast escapes rest skip
  | _, _ =>
    let skip ← test.jumpIf false
    enterBlock false
    endClause isLast escapes body.all skip

def loopBody (names : List Bytes) (body : Gen Unit) : Gen Unit := do
  enterBlock false
  declareAll names
  discard <| reserve names.length
  block body
  leaveBlock

def loopStep (step : Option ExprCode) : Gen Unit := do
  match step with
  | some step => discard step.nextReg
  | none =>
    let k ← constant (.integer 1)
    let r ← reserve 1
    loadConstant r k

def numericFor (start : Position) (name : Bytes) (first limit : ExprCode) (step : Option ExprCode)
    (body : Gen Unit) : Gen Unit := do
  enterBlock true
  let base ← read (·.firstFree)
  discard first.nextReg
  discard limit.nextReg
  loopStep step
  declareAll ["(for index)", "(for limit)", "(for step)"]
  setLine start.line
  let prep ← emitAsBx .forPrep base 0
  loopBody [name] body
  patchToHere [prep]
  setLine start.line
  let loop ← emitAsBx .forLoop base 0
  patchTo [loop] (prep + 1)
  leaveBlock

def checkIterator (names : List Ident) (exprs : List ExprCode) : Gen Unit := do
  match names[maxIteratorNames]?, exprs[maxIteratorExprs]? with
  | some name, _ =>
    setPos name.span.start
    fail .tooManyIteratorNames
  | none, some expr =>
    setPos expr.start
    fail .tooManyIteratorExprs
  | none, none => pure ()

def genericFor (start : Position) (names : List Ident) (exprs : List ExprCode) (body : Gen Unit) :
    Gen Unit := do
  checkIterator names exprs
  enterBlock true
  let base ← assignValues exprs 3
  checkStack 3
  declareAll ["(for generator)", "(for state)", "(for control)"]
  setLine start.line
  let prep ← jump
  loopBody (names.map (·.name)) body
  patchToHere prep
  setLine start.line
  discard <| emitABC .tforCall base 0 names.length
  let loop ← emitAsBx .tforLoop (base + 2) 0
  patchTo [loop] (prep.headD 0 + 1)
  leaveBlock

/-- Turns the call just written into one that ends its function. -/
def makeTailCall : Gen Unit := do
  let last := (← pc) - 1
  match ← read (·.code[last]?) with
  | some i =>
    if i.op? = some .call then
      replace last (Instruction.abc .tailCall i.argA.toUInt8 i.argB i.argC)
    else fault .notACall
  | none => fault .notACall

def returned (values : List ExprCode) : Gen (Nat × ResultCount) := do
  match values.getLast? with
  | none => return (0, .exactly 0)
  | some last =>
    match last.results, values with
    | some results, _ =>
      let first ← read (·.firstFree)
      nextRegs values.dropLast
      let r ← reserve 1
      results r true .all
      if last.isCall && values.length = 1 then makeTailCall
      return (first, .all)
    | none, [value] => return (← value.anyReg, .exactly 1)
    | none, _ =>
      let first ← read (·.firstFree)
      nextRegs values
      return (first, .exactly values.length)

def returnStatement (start : Position) (values : List ExprCode) : Gen Unit := do
  let (first, n) ← returned values
  setPos start
  discard <| emitABC .return first n.arg 0

def breakStatement : Gen Unit := do
  if !(← isInLoop) then fail .breakOutside
  addBreak (← jump)

def statement (start : Position) (body : Gen Unit) : Gen Unit := do
  setPos start
  body
  let isConsistent ← read fun d => d.firstFree ≤ d.maxStackSize && d.active.size ≤ d.firstFree
  if !isConsistent then fault .registers
  update fun d => d.setFirstFree d.active.size

end Gen

end LuaBytecode
