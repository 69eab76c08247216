import LuaBytecode.Generator.Draft

namespace LuaBytecode

namespace Draft

def fixJump (d : Draft) (target pc : Nat) : Except GenerateError Draft :=
  let offset : Int := target - (pc + 1)
  if !Instruction.fitsOffset offset then .error (d.error .jumpTooLong)
  else
    match (d.code[pc]?).bind (·.withSBx? offset) with
    | some i => .ok { d with code := d.code.setIfInBounds pc i }
    | none => .error (.internal (.notAJump pc))

def fixJumps (target : Nat) : List Nat → Draft → Except GenerateError Draft
  | [], d => .ok d
  | pc :: rest, d =>
    match d.fixJump target pc with
    | .ok d => fixJumps target rest d
    | .error e => .error e

def emit (d : Draft) (i : Instruction) : Except GenerateError Draft :=
  let pending := d.pending
  match fixJumps d.code.size pending { d with pending := [] } with
  | .ok d =>
    .ok { d with code := d.code.push i, lineInfo := d.lineInfo.push (.ofInt d.line) }
  | .error e => .error e

def label (d : Draft) : Draft := { d with lastTarget := d.code.size }

def patchToHere (d : Draft) (jumps : List Nat) : Draft :=
  let d := d.label
  { d with pending := d.pending ++ jumps }

def closeAt (d : Draft) (level pc : Nat) : Except GenerateError Draft :=
  match d.code[pc]? with
  | some i =>
    if i.op? ≠ some .jmp || (i.argA ≠ 0 && i.argA < level + 1) then
      .error (.internal (.cannotClose pc))
    else
      match i.withA? (level + 1).toUInt8 with
      | some i => .ok { d with code := d.code.setIfInBounds pc i }
      | none => .error (.internal (.cannotClose pc))
  | none => .error (.internal (.cannotClose pc))

def closeAll (level : Nat) : List Nat → Draft → Except GenerateError Draft
  | [], d => .ok d
  | pc :: rest, d =>
    match d.closeAt level pc with
    | .ok d => closeAll level rest d
    | .error e => .error e

/-- The registers set by the last instruction, if it loads nil and no jump goes past it. -/
def lastNil? (d : Draft) : Option (Nat × Nat) :=
  if d.lastTarget < d.code.size && d.pending.isEmpty then
    match d.code.back? with
    | some i => if i.op? = some .loadNil then some (i.argA, i.argA + i.argB) else none
    | none => none
  else none

end Draft

/-- The registers from the first to the last of two ranges that overlap or touch. -/
def joinRanges? (first last first' last' : Nat) : Option (Nat × Nat) :=
  if (first' ≤ first && first ≤ last' + 1) || (first ≤ first' && first' ≤ last + 1) then
    some (min first first', max last last')
  else none

namespace Gen

def pc : Gen Nat := read (·.code.size)

def emit (i : Except EncodingFault Instruction) : Gen Nat :=
  match i with
  | .error e => fault (.encoding e)
  | .ok i => do
      updateOrFail (·.emit i)
      return (← pc) - 1

def emitABC (op : OpCode) (a b c : Nat) : Gen Nat := emit (Instruction.abc op a.toUInt8 b c)

def emitABx (op : OpCode) (a bx : Nat) : Gen Nat := emit (Instruction.abx op a.toUInt8 bx)

def emitAsBx (op : OpCode) (a : Nat) (sbx : Int) : Gen Nat :=
  emit (Instruction.asbx op a.toUInt8 sbx)

def replace (pc : Nat) (i : Except EncodingFault Instruction) : Gen Unit :=
  match i with
  | .error e => fault (.encoding e)
  | .ok i => update fun d => { d with code := d.code.setIfInBounds pc i }

def fixLine (line : Int) : Gen Unit := do
  let size ← read (·.lineInfo.size)
  if size = 0 then fault .noInstruction
  update fun d => { d with lineInfo := d.lineInfo.setIfInBounds (size - 1) (.ofInt line) }

def label : Gen Nat := do
  update (·.label)
  pc

def jump : Gen (List Nat) := do
  let pending ← read (·.pending)
  update ({ · with pending := [] })
  let pc ← emitAsBx .jmp 0 0
  return pc :: pending

def patchToHere (jumps : List Nat) : Gen Unit := update (·.patchToHere jumps)

def patchTo (jumps : List Nat) (target : Nat) : Gen Unit := do
  if target = (← pc) then patchToHere jumps
  else updateOrFail (Draft.fixJumps target jumps)

def jumpTo (target : Nat) : Gen Unit := do patchTo (← jump) target

def closeAll (jumps : List Nat) (level : Nat) : Gen Unit :=
  updateOrFail (Draft.closeAll level jumps)

def loadNil (first n : Nat) : Gen Unit := do
  let last := first + n - 1
  match (← read (·.lastNil?)).bind fun (first', last') => joinRanges? first last first' last' with
  | some (first, last) =>
    replace ((← pc) - 1) (Instruction.abc .loadNil first.toUInt8 (last - first) 0)
  | none => discard <| emitABC .loadNil first (n - 1) 0

def constant (v : Value) : Gen Nat := do
  match ← read (·.constants.find? v) with
  | some k => return k
  | none =>
    let k ← read (·.constants.size)
    if Instruction.maxAx < k then fail .tooManyConstants
    update fun d => { d with constants := d.constants.insert v }
    return k

def loadConstant (r k : Nat) : Gen Unit := do
  if k ≤ Instruction.maxBx then discard <| emitABx .loadK r k
  else
    discard <| emitABx .loadKX r 0
    discard <| emit (Instruction.extraArgument k)

end Gen

end LuaBytecode
