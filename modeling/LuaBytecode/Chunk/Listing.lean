import LuaBytecode.Chunk

namespace LuaBytecode

structure ListingOptions where
  full : Bool
  rawPC : Bool
  deriving DecidableEq, Repr

namespace Listing

def pcBase (opts : ListingOptions) : Nat := if opts.rawPC then 0 else 1

def pluralMark (n : Nat) : Bytes := if n = 1 then [] else [byte 's']

def counted (n : Nat) (unit : String) : Bytes :=
  .ofNat n ++ byte ' ' :: Bytes.ofString unit ++ pluralMark n

def topName (f : Prototype) : Bytes := .ofString (if f.isMain then "main" else "top")

def indexed (name : Bytes) (i : Nat) : Bytes := name ++ byte '[' :: Bytes.ofNat i ++ [byte ']']

def nestedName (ownName : Option Bytes) (i : Nat) : Bytes := indexed (ownName.getD [byte 'F']) i

def heading (name : Bytes) (f : Prototype) : Bytes :=
  let comma : Bytes := ", "
  byte '\n' :: Bytes.ofString (if f.isMain then "main" else "function") ++ " <" ++
    f.source.listed ++ byte ':' :: Bytes.ofInt f.lineDefined.toInt ++
    byte ',' :: Bytes.ofInt f.lastLineDefined.toInt ++ "> (" ++
    counted f.code.length "instruction" ++ " at " ++ name ++ ")\n" ++
    .ofNat f.numParams.toNat ++ (if f.isVararg then [byte '+'] else []) ++ " param" ++
    pluralMark f.numParams.toNat ++ comma ++ counted f.maxStackSize.toNat "slot" ++ comma ++
    counted f.upvalues.length "upvalue" ++ comma ++ counted f.localVariables.length "local" ++
    comma ++ counted f.constants.length "constant" ++ comma ++
    counted f.functions.length "function" ++ [byte '\n']

structure Context where
  function : Prototype
  constants : Array Value
  ownName : Option Bytes
  base : Nat

namespace Context

def constant (ctx : Context) (k : Nat) : Bytes :=
  match ctx.constants[k]? with
  | some v => v.listingText
  | none => [byte '?']

def operandOr (ctx : Context) (register : Bytes) (arg : Nat) : Bytes :=
  if Operand.isConstant arg then ctx.constant (Operand.constantIndex arg) else register

def spaced (ctx : Context) (arg : Nat) : Bytes :=
  if Operand.isConstant arg then byte ' ' :: ctx.constant (Operand.constantIndex arg) else []

def remark? (ctx : Context) (pc : Nat) (i : Instruction) (next : Option Instruction) :
    Option Bytes :=
  let f := ctx.function
  match i.op? with
  | some .loadK => some (ctx.constant i.argBx)
  | some .getUpval | some .setUpval => some (f.upvalueText i.argB)
  | some .getTabUp => some (f.upvalueText i.argB ++ ctx.spaced i.argC)
  | some .setTabUp => some (f.upvalueText i.argA ++ ctx.spaced i.argB ++ ctx.spaced i.argC)
  | some .getTable | some .self =>
    if Operand.isConstant i.argC then some (ctx.constant (Operand.constantIndex i.argC)) else none
  | some .setTable | some .add | some .sub | some .mul | some .mod | some .pow | some .div
  | some .idiv | some .band | some .bor | some .bxor | some .shl | some .shr | some .eq | some .lt
  | some .le =>
    if Operand.isConstant i.argB || Operand.isConstant i.argC then
      let dash := [byte '-']
      some (ctx.operandOr dash i.argB ++ byte ' ' :: ctx.operandOr dash i.argC)
    else none
  | some .jmp | some .forLoop | some .forPrep | some .tforLoop =>
    some ("to " ++ .ofInt (ctx.base + pc + 1 + i.argSBx))
  | some .closure =>
    if i.argBx < f.functions.length then some (nestedName ctx.ownName i.argBx) else none
  | some .setList =>
    if i.argC ≠ 0 then some (.ofNat i.argC) else next.map fun n => .ofNat n.word.toNat
  | some .extraArg => some (ctx.constant i.argAx)
  | _ => none

def takesNext (i : Instruction) : Bool := i.op? = some .setList && i.argC = 0

def row (ctx : Context) (pc : Nat) (i : Instruction) (line : Int64) (next : Option Instruction) :
    Bytes :=
  let remark :=
    match ctx.remark? pc i next with
    | some text => "\t; " ++ text
    | none => []
  byte '\t' :: Bytes.ofNat (ctx.base + pc) ++ "\t[" ++
    (if 0 < line then Bytes.ofInt line.toInt else [byte '-']) ++ "]\t" ++ i.text ++
    remark ++ [byte '\n']

def rowsFrom (ctx : Context) : (pc : Nat) → (isArgument : Bool) → List Instruction → List Int64 →
    (done : List Bytes) → List Bytes
  | _, _, [], _, done => done
  | pc, true, _ :: rest, lines, done => rowsFrom ctx (pc + 1) false rest lines.tail done
  | pc, false, i :: rest, lines, done =>
    rowsFrom ctx (pc + 1) (takesNext i) rest lines.tail
      (ctx.row pc i (lines.headD 0) rest.head? :: done)

def code (ctx : Context) : Bytes :=
  (ctx.rowsFrom 0 false ctx.function.code ctx.function.lineInfo []).reverse.flatten

end Context

def tableHeading (kind : String) (size : Nat) (name : Bytes) : Bytes :=
  .ofString kind ++ " (" ++ .ofNat size ++ ") for " ++ name ++ ":\n"

def tableRow (cells : List Bytes) : Bytes := cells.flatMap (byte '\t' :: ·) ++ [byte '\n']

def tables (name : Bytes) (f : Prototype) : Bytes :=
  tableHeading "constants" f.constants.length name ++
    (f.constants.zipIdx 1).flatMap (fun (v, i) => tableRow [.ofNat i, v.listingText]) ++
  tableHeading "locals" f.localVariables.length name ++
    f.localVariables.zipIdx.flatMap (fun (v, i) =>
      tableRow [.ofNat i, v.name, .ofInt (v.startPC + 1).toInt, .ofInt (v.endPC + 1).toInt]) ++
  tableHeading "upvalues" f.upvalues.length name ++ f.upvalues.zipIdx.flatMap (fun (u, i) =>
      tableRow [.ofNat i, f.upvalueText i, .ofNat u.inStack.toNat, .ofNat u.index.toNat])

def single (opts : ListingOptions) (ownName : Option Bytes) (f : Prototype) : Bytes :=
  let name := ownName.getD (topName f)
  let ctx : Context := ⟨f, f.constants.toArray, ownName, pcBase opts⟩
  heading name f ++ (ctx.code ++ if opts.full then tables name f else [])

mutual

def parts (opts : ListingOptions) (ownName : Option Bytes) : Prototype → List Bytes
  | ⟨numParams, isVararg, maxStackSize, code, constants, upvalues, functions, source, lineDefined,
      lastLineDefined, lineInfo, localVariables, form⟩ =>
      single opts ownName ⟨numParams, isVararg, maxStackSize, code, constants, upvalues, functions,
          source, lineDefined, lastLineDefined, lineInfo, localVariables, form⟩ ::
        partsFrom opts ownName 0 functions

def partsFrom (opts : ListingOptions) (ownName : Option Bytes) : Nat → List Prototype → List Bytes
  | _, [] => []
  | i, f :: rest =>
    parts opts (some (nestedName ownName i)) f ++ partsFrom opts ownName (i + 1) rest

end

end Listing

def Prototype.listing (f : Prototype) (opts : ListingOptions) : Bytes :=
  (Listing.parts opts none f).flatten

def Chunk.listing? (c : Chunk) (opts : ListingOptions) : Option Bytes := c.main.map (·.listing opts)

end LuaBytecode
