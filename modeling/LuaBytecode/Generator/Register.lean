import LuaBytecode.Generator.Draft

namespace LuaBytecode

namespace Draft

def checkStack (d : Draft) (n : Nat) : Except GenerateError Draft :=
  let size := d.firstFree + n
  if size ≤ d.maxStackSize then .ok d
  else if maxRegisters ≤ size then .error (d.error .tooManyRegisters)
  else .ok { d with maxStackSize := size }

def setFirstFree (d : Draft) (r : Nat) : Draft :=
  { d with firstFree := r, released := d.released.filter (· < r) }

def lowerTop : (top : Nat) → (released : List Nat) → Nat × List Nat
  | 0, released => (0, released)
  | top + 1, released =>
    if released.contains top then lowerTop top (released.erase top) else (top + 1, released)

def free (d : Draft) (r : Nat) : Draft :=
  if r < d.active.size || d.firstFree ≤ r then d
  else if r + 1 ≠ d.firstFree then
    if d.released.contains r then d else { d with released := r :: d.released }
  else
    let (top, released) := lowerTop r d.released
    { d with firstFree := top, released }

end Draft

namespace Gen

def checkStack (n : Nat) : Gen Unit := updateOrFail (·.checkStack n)

def reserve (n : Nat) : Gen Nat := do
  checkStack n
  let base ← read (·.firstFree)
  update fun d => { d with firstFree := d.firstFree + n }
  return base

def allocate : Gen Nat := do
  match ← read (·.released) with
  | r :: rest =>
    update ({ · with released := rest })
    return r
  | [] => reserve 1

def free (r : Nat) : Gen Unit := update (·.free r)

def freeOperand (arg : Nat) : Gen Unit := if Operand.isConstant arg then pure () else free arg

def setFirstFree (r : Nat) : Gen Unit := update (·.setFirstFree r)

end Gen

end LuaBytecode
