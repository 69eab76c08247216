import LuaBytecode.Chunk

namespace LuaBytecode

namespace Chunk

def combinedName : ChunkName := .ofDescription "(luac)"

def callPart (i : Nat) : Except EncodingFault (List Instruction) := do
  let closure ← Instruction.abx .closure 0 i
  let call ← Instruction.abc .call 0 1 1
  return [closure, call]

def callAll (functions : List Prototype) : Except EncodingFault Prototype := do
  let calls ← (List.range functions.length).mapM callPart
  let final ← Instruction.abc .return 0 1 0
  let code := calls.flatten ++ [final]
  return {
    numParams := 0
    isVararg := true
    maxStackSize := 1
    code
    constants := []
    upvalues := [⟨environmentName, true, 0⟩]
    functions
    source := combinedName
    lineDefined := 0
    lastLineDefined := 0
    lineInfo := code.map fun _ => 0
    localVariables := [] }

def combine : List Chunk → Except EncodingFault Chunk
  | [c] => .ok c
  | chunks => do
      let main ← callAll (chunks.filterMap (·.main))
      return ⟨.default, 1, some main⟩

end Chunk

end LuaBytecode
