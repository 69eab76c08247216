import LuaBytecode.Generator.Code
import LuaBytecode.Generator.Register

namespace LuaBytecode

inductive Variable where
  | global
  | local (register : Nat)
  | upvalue (index : Nat)
  deriving DecidableEq, Repr

namespace Draft

def declare (d : Draft) (name : Bytes) : Except GenerateError Draft :=
  if maxVariables ≤ d.active.size then .error (d.error .tooManyLocals)
  else
    let vars := d.localVariables.push ⟨name, .ofNat d.code.size, 0⟩
    .ok { d with localVariables := vars, active := d.active.push (vars.size - 1) }

def declareAll : List Bytes → Draft → Except GenerateError Draft
  | [], d => .ok d
  | name :: rest, d =>
    match d.declare name with
    | .ok d => declareAll rest d
    | .error e => .error e

def variableAt (d : Draft) (r : Nat) : Option LocalVariable :=
  (d.active[r]?).bind fun slot => d.localVariables[slot]?

def lastNamed (d : Draft) (name : Bytes) : (n : Nat) → Except GenerateError (Option Nat)
  | 0 => .ok none
  | n + 1 =>
    match d.variableAt n with
    | some v => if v.name == name then .ok (some n) else lastNamed d name n
    | none => .error (.internal .noVariable)

def register (d : Draft) (name : Bytes) : Except GenerateError (Option Nat) :=
  d.lastNamed name d.active.size

def upvalue? (d : Draft) (name : Bytes) : Option Nat := d.upvalues.findIdx? fun u => u.name == name

def addUpvalue (d : Draft) (name : Bytes) (inStack : Bool) (index : Nat) :
    Except GenerateError Draft :=
  if maxUpvalues ≤ d.upvalues.size then .error (d.error .tooManyUpvalues)
  else .ok { d with upvalues := d.upvalues.push ⟨name, inStack, index.toUInt8⟩ }

def markBlock (register : Nat) : List Block → Option (List Block)
  | [] => none
  | b :: rest =>
    if register < b.numActive then (markBlock register rest).map (b :: ·)
    else some ({ b with isCaptured := true } :: rest)

def markCaptured (d : Draft) (register : Nat) : Except GenerateError Draft :=
  match markBlock register d.blocks with
  | some blocks => .ok { d with blocks }
  | none => .error (.internal .noBlock)

def enterBlock (d : Draft) (isLoop : Bool) : Draft :=
  { d with blocks := ⟨d.breaks.size, d.active.size, false, isLoop⟩ :: d.blocks }

def isInLoop (d : Draft) : Bool := d.blocks.any (·.isLoop)

def addBreak (d : Draft) (jumps : List Nat) : Draft :=
  { d with breaks := d.breaks.push ⟨jumps, d.active.size⟩ }

def startVariable (d : Draft) (r : Nat) : Except GenerateError Draft :=
  match d.active[r]? with
  | none => .error (.internal .noVariable)
  | some slot =>
    if d.localVariables.size ≤ slot then .error (.internal .noVariable)
    else
      let start := Int64.ofNat d.code.size
      let vars := d.localVariables
      let d := { d with localVariables := #[] }
      .ok { d with
        localVariables := vars.modify slot fun record => { record with startPC := start } }

def undeclare (d : Draft) (level : Nat) : Except GenerateError Draft :=
  let count := d.localVariables.size
  if d.active.size < level || d.active.any (count ≤ ·) level then .error (.internal .noVariable)
  else
    let stop := Int64.ofNat d.code.size
    let vars := d.localVariables
    let d := { d with localVariables := #[] }
    let ended := d.active.foldl
      (fun vars slot => vars.modify slot fun record => { record with endPC := stop }) vars level
    .ok { d with localVariables := ended, active := d.active.take level }

def patchBreaks (d : Draft) (firstBreak : Nat) : Except GenerateError Draft :=
  if d.breaks.size < firstBreak then .error (.internal .noBreak)
  else
    let d := d.breaks.foldl (fun d b => d.patchToHere b.jumps) d firstBreak
    .ok { d with breaks := d.breaks.take firstBreak }

/-- Lets breaks out of a block close its variables, if there is a closure with one of them. -/
def closeBreaks (b : Block) : (i count : Nat) → Draft → Except GenerateError Draft
  | _, 0, d => .ok d
  | i, count + 1, d =>
    match d.breaks[i]? with
    | none => .ok d
    | some pending =>
      if b.numActive < pending.numActive then
        match if b.isCaptured then closeAll b.numActive pending.jumps d else .ok d with
        | .error e => .error e
        | .ok d =>
          closeBreaks b (i + 1) count
            { d with
              breaks := d.breaks.setIfInBounds i { pending with numActive := b.numActive } }
      else closeBreaks b (i + 1) count d

def resolve (name : Bytes) : (isOwn : Bool) → List Draft →
    Except GenerateError (Variable × List Draft)
  | _, [] => .ok (.global, [])
  | isOwn, d :: outer =>
    match d.register name with
    | .error e => .error e
    | .ok (some r) =>
      match if isOwn then .ok d else d.markCaptured r with
      | .error e => .error e
      | .ok d => .ok (.local r, d :: outer)
    | .ok none =>
      match d.upvalue? name with
      | some i => .ok (.upvalue i, d :: outer)
      | none =>
        match resolve name false outer with
        | .error e => .error e
        | .ok (.global, outer) => .ok (.global, d :: outer)
        | .ok (.local r, outer) =>
          match d.addUpvalue name true r with
          | .error e => .error e
          | .ok d => .ok (.upvalue (d.upvalues.size - 1), d :: outer)
        | .ok (.upvalue i, outer) =>
          match d.addUpvalue name false i with
          | .error e => .error e
          | .ok d => .ok (.upvalue (d.upvalues.size - 1), d :: outer)

end Draft

namespace Gen

def declareAll (names : List Bytes) : Gen Unit := updateOrFail (Draft.declareAll names)

def register (name : Bytes) : Gen (Option Nat) := fun g =>
  match g.register name with
  | .ok r => .ok (r, g)
  | .error e => .error e

def resolve (name : Bytes) : Gen Variable := fun g =>
  match Draft.resolve name true (g.toDraft :: g.enclosing) with
  | .error e => .error e
  | .ok (v, d :: outer) => .ok (v, ⟨d, outer⟩)
  | .ok (v, []) => .ok (v, g)

def upvalue? (name : Bytes) : Gen (Option Nat) := fun g =>
  match g.register name with
  | .error e => .error e
  | .ok (some _) => .ok (none, g)
  | .ok none =>
    match resolve name g with
    | .ok (.upvalue i, g) => .ok (some i, g)
    | .error (.internal fault) => .error (.internal fault)
    | _ => .ok (none, g)

def resolveEnvironment : Gen Variable := do
  match ← resolve environmentName with
  | .global => fault .noEnvironment
  | v => return v

def enterBlock (isLoop : Bool) : Gen Unit := update (·.enterBlock isLoop)

/-- Closes the variables of a block, if there is a closure with one of them. -/
def closeScope (b : Block) (isOutermost : Bool) : Gen Unit := do
  if b.isCaptured && !isOutermost then
    let jumps ← jump
    closeAll jumps b.numActive
    patchToHere jumps

def endLoop (b : Block) : Gen Unit := do
  if b.isLoop then updateOrFail (·.patchBreaks b.firstBreak)

def leaveBlock : Gen Unit := do
  match ← read (·.blocks) with
  | [] => fault .openBlocks
  | b :: outer =>
    closeScope b outer.isEmpty
    endLoop b
    updateOrFail fun d => Draft.undeclare { d with blocks := outer } b.numActive
    update (·.setFirstFree b.numActive)
    if !outer.isEmpty then
      updateOrFail fun d => Draft.closeBreaks b b.firstBreak (d.breaks.size - b.firstBreak) d

def isInLoop : Gen Bool := read (·.isInLoop)

def addBreak (jumps : List Nat) : Gen Unit := update (·.addBreak jumps)

def openFunction (d : Draft) : Gen Unit := fun g =>
  .ok ((), ⟨d.enterBlock false, g.toDraft :: g.enclosing⟩)

def finish (line : Int) : Gen Unit := do
  setLine line
  discard <| emitABC .return 0 1 0
  leaveBlock
  let isOpen ← read fun d => !d.blocks.isEmpty || !d.pending.isEmpty
  if isOpen then fault .openBlocks

def closeFunction (line : Int) : Gen Prototype := do
  finish line
  fun g =>
    match g.enclosing with
    | [] => .error (.internal .openBlocks)
    | outer :: rest => .ok (g.prototype, ⟨outer, rest⟩)

end Gen

end LuaBytecode
