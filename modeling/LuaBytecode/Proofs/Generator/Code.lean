import LuaBytecode.Generator.Draft
import LuaBytecode.Generator.Scope
import LuaBytecode.Proofs.Verifier
import Mathlib.Data.List.Forall2
import Mathlib.Tactic.Lemma

namespace LuaBytecode

open Instruction

variable {pc n m target : Nat} {i j : Instruction} {cause : CompileCause} {rest l : List Nat}
  {bs bs' : Bounds} {code code' : Array Instruction} {R : Nat → Instruction → Instruction → Prop}

attribute [simp] OpCode.registers OpCode.constants OpCode.upvalues OpCode.closures

inductive Link where
  | plain
  | jump
  | constant
  | batch
  | open
  | bool
  | loop
  deriving DecidableEq, Repr

namespace OpCode

def after (b c : Nat) : OpCode → Link
  | .eq | .lt | .le | .test | .testSet => .jump
  | .loadKX => .constant
  | .setList => if c = 0 then .batch else .plain
  | .call | .tailCall => if c = 0 then .open else .plain
  | .vararg => if b = 0 then .open else .plain
  | .loadBool => if c = 0 then .plain else .bool
  | .tforCall => .loop
  | _ => .plain

def before (b : Nat) : OpCode → Link
  | .extraArg => .batch
  | .call | .tailCall | .return | .setList => if b = 0 then .open else .plain
  | .tforLoop => .loop
  | _ => .plain

end OpCode

structure Bounds where
  stack : Nat
  constants : Nat
  upvalues : Nat
  functions : Nat

structure Bounds.Le (b b' : Bounds) : Prop where
  stack : b.stack ≤ b'.stack
  constants : b.constants ≤ b'.constants
  upvalues : b.upvalues ≤ b'.upvalues
  functions : b.functions ≤ b'.functions

lemma Bounds.Le.refl (b : Bounds) : b.Le b := ⟨.refl, .refl, .refl, .refl⟩

lemma Bounds.Le.trans {b b' b'' : Bounds} (h : b.Le b') (h' : b'.Le b'') : b.Le b'' :=
  ⟨Nat.le_trans h.stack h'.stack, Nat.le_trans h.constants h'.constants,
    Nat.le_trans h.upvalues h'.upvalues, Nat.le_trans h.functions h'.functions⟩

namespace Instruction

variable {op : OpCode}

def after (i : Instruction) : Link := i.op?.elim .plain (OpCode.after i.argB i.argC)

def before (i : Instruction) : Link := i.op?.elim .plain (OpCode.before i.argB)

def Follows (constants : Nat) (i : Instruction) : Link → Prop
  | .jump => i.op? = some .jmp
  | .bool => i.op? = some .loadBool
  | .constant => i.op? = some .extraArg ∧ i.argAx < constants
  | link => i.before = link

structure Fits (bs : Bounds) (i : Instruction) : Prop where
  opcode : i.op?.isSome
  registers : ∀ r ∈ i.registers, r < bs.stack
  constants : ∀ k ∈ i.constants, k < bs.constants
  upvalues : ∀ u ∈ i.upvalues, u < bs.upvalues
  closures : ∀ f ∈ i.closures, f < bs.functions

lemma Fits.mono (h : i.Fits bs) (hb : bs.Le bs') : i.Fits bs' where
  opcode := h.opcode
  registers r hr := Nat.lt_of_lt_of_le (h.registers r hr) hb.stack
  constants k hk := Nat.lt_of_lt_of_le (h.constants k hk) hb.constants
  upvalues u hu := Nat.lt_of_lt_of_le (h.upvalues u hu) hb.upvalues
  closures f hf := Nat.lt_of_lt_of_le (h.closures f hf) hb.functions

lemma Follows.mono {n' : Nat} {l : Link} (h : i.Follows n l) (hn : n ≤ n') : i.Follows n' l := by
  cases l with
  | constant => exact ⟨h.1, Nat.lt_of_lt_of_le h.2 hn⟩
  | _ => exact h

structure Replaces (bs : Bounds) (i j : Instruction) : Prop where
  fits : j.Fits bs
  after : j.after = i.after
  follows : ∀ l, i.Follows bs.constants l → j.Follows bs.constants l

lemma args_of_asbx (h : i.op? = some op) (hm : op.mode = .asbx) :
    i.argB = 0 ∧ i.argC = 0 ∧ i.argBx = 0 ∧ i.argAx = 0 := by
  have hmo := mode?_of_op? h
  simp [argB, argC, argBx, argAx, hmo, hm]

lemma mode_of_isJump (h : op.isJump = true) : op.mode = .asbx := by
  cases op <;> first | rfl | cases h

lemma op_of_isJump (h : i.isJump = true) : ∃ op, i.op? = some op ∧ op.mode = .asbx := by
  cases hop : i.op? with
  | none => simp [isJump, hop] at h
  | some op =>
    have hj : op.isJump = true := by simpa [isJump, hop] using h
    exact ⟨op, rfl, mode_of_isJump hj⟩

lemma IsAsBx.replaces {a : Nat} {x : Int} (hm : op.mode = .asbx) (hi : i.op? = some op)
    (hf : i.Fits bs) (hj : j.IsAsBx op a x) (ha : op = .jmp ∨ a = i.argA) :
    i.Replaces bs j := by
  obtain ⟨hb, hc, hbx, hax⟩ := args_of_asbx hi hm
  obtain ⟨hb', hc', hbx', hax'⟩ := args_of_asbx hj.op hm
  have hr : j.registers = i.registers := by
    rcases ha with rfl | rfl
    · simp [registers, hi, hj.op, OpCode.registers]
    · simp [registers, hi, hj.op, hj.argA, hb, hb', hc, hc']
  have hk : j.constants = i.constants := by
    simp [constants, hi, hj.op, hb, hb', hc, hc', hbx, hbx']
  have hu : j.upvalues = i.upvalues := by
    rcases ha with rfl | rfl
    · simp [upvalues, hi, hj.op, OpCode.upvalues]
    · simp [upvalues, hi, hj.op, hj.argA, hb, hb']
  have hn : j.closures = i.closures := by simp [closures, hi, hj.op, hbx, hbx']
  refine ⟨⟨by rw [hj.op]; rfl, ?_, ?_, ?_, ?_⟩, ?_, ?_⟩
  · rw [hr]; exact hf.registers
  · rw [hk]; exact hf.constants
  · rw [hu]; exact hf.upvalues
  · rw [hn]; exact hf.closures
  · simp [after, hi, hj.op, hb, hb', hc, hc']
  · intro l hl
    cases l <;> simp_all [Follows, before, hj.op]

end Instruction

lemma lt_size {α : Type} {xs : Array α} {a : α} (h : xs[n]? = some a) : n < xs.size :=
  (Array.getElem?_eq_some_iff.mp h).1

lemma toNat_toUInt8 (h : n < 256) : n.toUInt8.toNat = n := by
  rw [UInt8.toNat_ofNat']
  omega

def linkAt (code : Array Instruction) : Nat → Link
  | 0 => .plain
  | pc + 1 => (code[pc]?).elim .plain Instruction.after

structure Coded (bs : Bounds) (code : Array Instruction) : Prop where
  fits : ∀ (pc : Nat) (i : Instruction), code[pc]? = some i → i.Fits bs
  follows : ∀ (pc : Nat) (i : Instruction), code[pc]? = some i →
    i.Follows bs.constants (linkAt code pc)
  targets : ∀ (pc : Nat) (i : Instruction), code[pc]? = some i → i.isJump = true →
    0 ≤ pc + 1 + i.argSBx ∧ pc + 1 + i.argSBx ≤ code.size

def Closable (code : Array Instruction) (n pc : Nat) : Prop :=
  ∃ i, code[pc]? = some i ∧ i.op? = some .jmp ∧ (i.argA = 0 ∨ n < i.argA)

lemma Closable.mono {code : Array Instruction} (h : Closable code n pc) (hm : m ≤ n) :
    Closable code m pc := by
  obtain ⟨i, hi, hop, ha⟩ := h
  exact ⟨i, hi, hop, by omega⟩

lemma Closable.lt {code : Array Instruction} (h : Closable code n pc) : pc < code.size := by
  obtain ⟨i, hi, -⟩ := h
  exact lt_size hi

def Block.shape (b : Block) : Nat × Nat × Bool := (b.firstBreak, b.numActive, b.isLoop)

def Nested : List Block → (active breaks : Nat) → Prop
  | [], active, breaks => active = 0 ∧ breaks = 0
  | b :: outer, active, breaks =>
    b.numActive ≤ active ∧ b.firstBreak ≤ breaks ∧
      (breaks = 0 ∨ (b :: outer).any (·.isLoop) = true) ∧ (outer = [] → b.isLoop = false) ∧
      Nested outer b.numActive b.firstBreak

def Prototype.AllVerified (f : Prototype) : Prop := ∀ path g, f.nested? path = some g →
    g.Verified ∧ g.upvalues.length ≤ maxUpvalues ∧ g.source = f.source

structure Instruction.WidensTo (i j : Instruction) : Prop where
  op : i.op? = some .loadNil
  op' : j.op? = some .loadNil
  first : j.argA ≤ i.argA
  last : i.argA + i.argB ≤ j.argA + j.argB

lemma Instruction.WidensTo.trans {j k : Instruction} (h : i.WidensTo j) (h' : j.WidensTo k) :
    i.WidensTo k :=
  ⟨h.op, h'.op', Nat.le_trans h'.first h.first, Nat.le_trans h.last h'.last⟩

namespace Draft

variable {d d' d'' : Draft} {S S' : Nat → Prop} {n' : Nat}

def bounds (d : Draft) : Bounds :=
  ⟨d.maxStackSize, d.constants.size, d.upvalues.size, d.functions.size⟩

def link (d : Draft) : Link := linkAt d.code d.code.size

def Settled (n : Nat) (d : Draft) : Prop := ∀ pc ∈ d.pending, Closable d.code n pc

def Provides (d : Draft) (u : UpvalueDescriptor) : Prop :=
  if u.inStack then u.index.toNat < d.maxStackSize else u.index.toNat < d.upvalues.size

structure Sound (d : Draft) : Prop where
  coded : Coded d.bounds d.code
  lines : d.lineInfo.size = d.code.size
  top : d.firstFree ≤ d.maxStackSize
  stack : d.maxStackSize ≤ 254
  released : d.released = []
  nested : Nested d.blocks d.active.size d.breaks.size
  breaks : ∀ b ∈ d.blocks, ∀ (k : Nat) (p : PendingBreak), b.firstBreak ≤ k →
    d.breaks[k]? = some p → ∀ pc ∈ p.jumps, Closable d.code b.numActive pc
  slots : ∀ slot ∈ d.active, slot < d.localVariables.size
  active : d.active.size ≤ maxVariables
  upvalues : d.upvalues.size ≤ maxUpvalues
  constants : d.constants.size ≤ Instruction.maxAx + 1
  functions : ∀ f ∈ d.functions,
    (f.AllVerified ∧ f.source = d.source) ∧ ∀ u ∈ f.upvalues, d.Provides u

def Loose (d : Draft) (pc : Nat) : Prop := pc ∈ d.pending ∨ d.code.size ≤ pc

def Mergeable (d : Draft) : Prop := d.lastTarget < d.code.size ∧ d.pending = []

structure Keeps (S : Nat → Prop) (n : Nat) (d d' : Draft) : Prop where
  size : d.code.size ≤ d'.code.size
  code : ∀ (pc : Nat) (i : Instruction), d.code[pc]? = some i → ¬ S pc → d'.code[pc]? = some i ∨
      (pc + 1 = d.code.size ∧ d.Mergeable ∧ ∃ j, d'.code[pc]? = some j ∧ i.WidensTo j)
  closable : ∀ m pc, m ≤ n → Closable d.code m pc → Closable d'.code m pc
  pending : ∀ pc ∈ d'.pending, S pc ∨ d.code.size ≤ pc
  mergeable : d'.code.size = d.code.size → d'.Mergeable → d.Mergeable
  bounds : d.bounds.Le d'.bounds
  constants : ∀ (k : Nat) (v : Value), d.constants.values[k]? = some v →
    d'.constants.values[k]? = some v
  source : d'.source = d.source
  isVararg : d'.isVararg = d.isVararg
  numParams : d'.numParams = d.numParams

abbrev Frame (n : Nat) (d d' : Draft) : Prop := d.Keeps (· ∈ d.pending) n d'

lemma Keeps.refl (h : ∀ pc ∈ d.pending, S pc ∨ d.code.size ≤ pc) : d.Keeps S n d where
  size := .refl
  code _ _ hi _ := .inl hi
  closable _ _ _ h := h
  pending := h
  mergeable _ h := h
  bounds := .refl _
  constants _ _ h := h
  source := rfl
  isVararg := rfl
  numParams := rfl

lemma Frame.refl (d : Draft) : d.Frame n d := Keeps.refl fun _ h => .inl h

lemma Keeps.weaken (h : d.Keeps S n d') (hS : ∀ pc, S pc → S' pc) : d.Keeps S' n d' :=
  { h with
    code := fun pc i hi hs => h.code pc i hi fun hpc => hs (hS pc hpc)
    pending := fun pc hpc => (h.pending pc hpc).imp_left (hS pc) }

lemma Keeps.trans (h : d.Keeps S n d') (h' : d'.Keeps S' n' d'') (hn : n ≤ n')
    (hS : ∀ pc, S' pc → S pc ∨ d.code.size ≤ pc) : d.Keeps S n d'' where
  size := Nat.le_trans h.size h'.size
  code pc i hi hs := by
    have hlt : pc < d.code.size := lt_size hi
    have hs' : ¬ S' pc := fun hx => (hS pc hx).elim hs (by omega)
    rcases h.code pc i hi hs with hk | ⟨hpc, hm, j, hj, hw⟩
    · rcases h'.code pc i hk hs' with hk' | ⟨hpc, hm, hj⟩
      · exact .inl hk'
      · have hsi : d'.code.size = d.code.size := by have := h.size; omega
        exact .inr ⟨by omega, h.mergeable hsi hm, hj⟩
    · rcases h'.code pc j hj hs' with hk' | ⟨-, -, k, hk, hw'⟩
      · exact .inr ⟨hpc, hm, j, hk', hw⟩
      · exact .inr ⟨hpc, hm, k, hk, hw.trans hw'⟩
  closable m pc hm hc := h'.closable m pc (by omega) (h.closable m pc hm hc)
  pending pc hpc := by
    rcases h'.pending pc hpc with hs | hle
    · exact hS pc hs
    · exact .inr (Nat.le_trans h.size hle)
  mergeable he hm := by
    have h1 := h.size
    have h2 := h'.size
    exact h.mergeable (by omega) (h'.mergeable (by omega) hm)
  bounds := h.bounds.trans h'.bounds
  constants k v hv := h'.constants k v (h.constants k v hv)
  source := h'.source.trans h.source
  isVararg := h'.isVararg.trans h.isVararg
  numParams := h'.numParams.trans h.numParams

lemma Frame.trans (h : d.Frame n d') (h' : d'.Frame n' d'') (hn : n ≤ n') : d.Frame n d'' :=
  Keeps.trans h h' hn h.pending

lemma Keeps.kept (h : d.Keeps S n d') (hi : d.code[pc]? = some i) (hs : ¬ S pc)
    (hop : i.op? ≠ some .loadNil) : d'.code[pc]? = some i := by
  rcases h.code pc i hi hs with hk | ⟨-, -, j, -, hw⟩
  · exact hk
  · exact absurd hw.op hop

lemma Keeps.loose (h : d.Keeps S n d') (hpc : d'.Loose pc) : S pc ∨ d.code.size ≤ pc := by
  rcases hpc with hp | hp
  · exact h.pending pc hp
  · exact .inr (Nat.le_trans h.size hp)

structure Touched (d d' : Draft) : Prop where
  eq : d' = { d with upvalues := d'.upvalues, blocks := d'.blocks }
  upvalues : ∃ more, d'.upvalues = d.upvalues ++ more
  shapes : d'.blocks.map Block.shape = d.blocks.map Block.shape

lemma Touched.refl (d : Draft) : d.Touched d := ⟨rfl, ⟨#[], by simp⟩, rfl⟩

lemma Touched.trans (h : d.Touched d') (h' : d'.Touched d'') : d.Touched d'' where
  eq := by rw [h'.eq, h.eq]
  upvalues := by
    obtain ⟨more, hm⟩ := h.upvalues
    obtain ⟨more', hm'⟩ := h'.upvalues
    exact ⟨more ++ more', by rw [hm', hm, Array.append_assoc]⟩
  shapes := h'.shapes.trans h.shapes

end Draft

def CompileCause.isLiteral : CompileCause → Bool
  | .malformedNumber _ | .malformedString _ => true
  | _ => false

def Rejected {α : Type} (r : Except GenerateError α) : Prop :=
  ∃ e, r = .error (.compile e) ∧ e.cause.isLiteral = false

namespace Gen

variable {lax : Prop} {α β : Type} {g : Generator} {Q : β → Generator → Prop}
  {P : α → Generator → Prop} {m : Gen α} {f : α → Gen β} {a : α}

def Meets (lax : Prop) (g : Generator) (m : Gen α) (Q : α → Generator → Prop) : Prop :=
  match m g with
  | .ok (a, g') => Q a g'
  | .error (.compile e) => e.cause.isLiteral = true → lax
  | .error (.internal _) => lax

lemma Meets.mono {P Q : α → Generator → Prop} (h : Meets lax g m P)
    (hPQ : ∀ a g', P a g' → Q a g') : Meets lax g m Q := by
  unfold Meets at *
  split <;> simp_all

lemma Meets.and {P Q : α → Generator → Prop} (h : Meets lax g m P) (h' : Meets lax g m Q) :
    Meets lax g m fun a g' => P a g' ∧ Q a g' := by
  unfold Meets at *
  split <;> simp_all

lemma Meets.of_ok {Q : α → Generator → Prop} {g' : Generator} (h : Meets lax g m Q)
    (hm : m g = .ok (a, g')) : Q a g' := by
  simpa [Meets, hm] using h

lemma meets_of_ok (h : ∀ a g', m g = .ok (a, g') → P a g') : Meets True g m P := by
  unfold Meets
  split
  · next heq => exact h _ _ heq
  · exact fun _ => trivial
  · trivial

lemma bind_eq {g' : Generator} (h : m g = .ok (a, g')) : (m >>= f) g = f a g' := by
  simp only [Bind.bind, StateT.bind, Except.bind, h]

lemma Meets.bind (hm : Meets lax g m P) (hf : ∀ a g', P a g' → Meets lax g' (f a) Q) :
    Meets lax g (m >>= f) Q := by
  have hb : (m >>= f) g = match m g with
      | .ok (a, g') => f a g'
      | .error e => .error e := by
    simp only [Bind.bind, StateT.bind, Except.bind]
    cases m g <;> rfl
  unfold Meets at hm ⊢
  rw [hb]
  cases hx : m g with
  | ok r => exact hf r.1 r.2 (by simpa [hx] using hm)
  | error e => cases e <;> simp_all

lemma meets_pure {Q : α → Generator → Prop} (h : Q a g) : Meets lax g (pure a) Q := h

lemma Meets.map {f : α → β} (h : Meets lax g m fun a => Q (f a)) : Meets lax g (f <$> m) Q := by
  exact h.bind fun a g' ha => meets_pure ha

lemma Meets.discard {Q : Unit → Generator → Prop} (h : Meets lax g m P)
    (hPQ : ∀ a g', P a g' → Q () g') : Meets lax g (discard m) Q := by
  exact (h.mono hPQ).map

lemma Meets.discard_bind {f : Unit → Gen β} (hm : Meets lax g m P)
    (hf : ∀ a g', P a g' → Meets lax g' (f ()) Q) : Meets lax g (Functor.discard m >>= f) Q :=
  (hm.discard (Q := fun _ g' => ∃ a, P a g') fun a _ ha => ⟨a, ha⟩).bind
    fun _ g' ⟨a, ha⟩ => hf a g' ha

lemma meets_readOf {f : Draft → α} {Q : α → Generator → Prop} (h : Q (f g.toDraft) g) :
    Meets lax g (read f) Q := h

lemma meets_update {f : Draft → Draft} {Q : Unit → Generator → Prop}
    (h : Q () { g with toDraft := f g.toDraft }) : Meets lax g (update f) Q := h

lemma meets_fail {Q : α → Generator → Prop} (h : cause.isLiteral = true → lax) :
    Meets lax g (fail cause) Q := h

lemma meets_read {p : Draft → α} (h : Meets lax g (f (p g.toDraft)) Q) :
    Meets lax g (read p >>= f) Q := h

lemma meets_update_bind {p : Draft → Draft} {f : Unit → Gen β}
    (h : Meets lax { g with toDraft := p g.toDraft } (f ()) Q) :
    Meets lax g (update p >>= f) Q := h

lemma meets_pure_bind (h : Meets lax g (f a) Q) : Meets lax g (pure a >>= f) Q := h

lemma meets_fail_bind (h : cause.isLiteral = true → lax) : Meets lax g (fail cause >>= f) Q := h

lemma meets_fault {f : GeneratorFault} {Q : α → Generator → Prop} (h : lax) :
    Meets lax g (fault f) Q := h

lemma meets_fault_bind {f : GeneratorFault} {k : α → Gen β} (h : lax) :
    Meets lax g (fault f >>= k) Q := h

lemma meets_updateOrFail {f : Draft → Except GenerateError Draft}
    {Q : Unit → Generator → Prop}
    (h : (∃ d, f g.toDraft = .ok d ∧ Q () { g with toDraft := d }) ∨
      Rejected (f g.toDraft)) : Meets lax g (updateOrFail f) Q := by
  rcases h with ⟨d, hd, hQ⟩ | ⟨e, he, hc⟩
  · simpa [Meets, updateOrFail, hd] using hQ
  · simp [Meets, updateOrFail, he, hc]

lemma meets_updateOrFail_bind {f : Draft → Except GenerateError Draft} {k : Unit → Gen β}
    {d : Draft} (hf : f g.toDraft = .ok d) (hk : Meets lax { g with toDraft := d } (k ()) Q) :
    Meets lax g (updateOrFail f >>= k) Q :=
  (meets_updateOrFail (Q := fun _ g' => g' = { g with toDraft := d }) (.inl ⟨d, hf, rfl⟩)).bind
    fun _ _ h => h ▸ hk

end Gen

lemma linkAt_congr (h : ∀ k < pc, (code'[k]?).map after = (code[k]?).map after) :
    linkAt code' pc = linkAt code pc := by
  cases pc with
  | zero => rfl
  | succ k =>
    have hk := h k (by omega)
    cases h1 : code[k]? <;> cases h2 : code'[k]? <;> simp_all [linkAt]

lemma linkAt_push (h : pc ≤ code.size) : linkAt (code.push i) pc = linkAt code pc :=
  linkAt_congr fun k hk => by rw [Array.getElem?_push, if_neg (by omega)]

lemma linkAt_size_push : linkAt (code.push i) (code.push i).size = i.after := by
  simp [linkAt]

lemma Instruction.Replaces.refl (h : i.Fits bs) : i.Replaces bs i := ⟨h, rfl, fun _ h => h⟩

lemma Coded.mono (h : Coded bs code) (hb : bs.Le bs') : Coded bs' code where
  fits pc i hi := (h.fits pc i hi).mono hb
  follows pc i hi := (h.follows pc i hi).mono hb.constants
  targets := h.targets

lemma linkAt_recode (hs : code'.size = code.size)
    (hr : ∀ (k : Nat) (i : Instruction), code[k]? = some i → ∃ j, code'[k]? = some j ∧
      j.after = i.after) : linkAt code' pc = linkAt code pc := by
  refine linkAt_congr fun k _ => ?_
  cases hk : code[k]? with
  | none =>
    have hk' : code'[k]? = none := by simp_all
    rw [hk']
  | some i =>
    obtain ⟨j, hj, ha⟩ := hr k i hk
    simp [hj, ha]

lemma Coded.recode (h : Coded bs code) (hs : code'.size = code.size)
    (hre : ∀ (pc : Nat) (i : Instruction), code[pc]? = some i → ∃ j, code'[pc]? = some j ∧
      i.Replaces bs j ∧ (j.isJump = true →
        0 ≤ pc + 1 + j.argSBx ∧ pc + 1 + j.argSBx ≤ code.size)) : Coded bs code' := by
  have hb : ∀ (pc : Nat) (j : Instruction), code'[pc]? = some j → ∃ i, code[pc]? = some i ∧
      i.Replaces bs j ∧
        (j.isJump = true → 0 ≤ pc + 1 + j.argSBx ∧ pc + 1 + j.argSBx ≤ code.size) := by
    intro pc j hj
    have hlt := lt_size hj
    have hi : code[pc]? = some code[pc] := Array.getElem?_eq_getElem (by omega)
    obtain ⟨j', hj', hr⟩ := hre pc _ hi
    cases hj.symm.trans hj'
    exact ⟨_, hi, hr⟩
  refine ⟨fun pc j hj => ?_, fun pc j hj => ?_, fun pc j hj hju => ?_⟩
  · obtain ⟨i, -, hr, -⟩ := hb pc j hj
    exact hr.fits
  · obtain ⟨i, hi, hr, -⟩ := hb pc j hj
    have hl : linkAt code' pc = linkAt code pc := linkAt_recode hs fun k i hk => by
      obtain ⟨j, hj, hr, -⟩ := hre k i hk
      exact ⟨j, hj, hr.after⟩
    rw [hl]
    exact hr.follows _ (h.follows pc i hi)
  · obtain ⟨i, -, -, ht⟩ := hb pc j hj
    rw [hs]
    exact ht hju

lemma Coded.push (h : Coded bs code) (hf : i.Fits bs)
    (hl : i.Follows bs.constants (linkAt code code.size))
    (ht : i.isJump = true → 0 ≤ code.size + 1 + i.argSBx ∧ i.argSBx ≤ 0) :
    Coded bs (code.push i) := by
  have hg : ∀ pc j, (code.push i)[pc]? = some j →
      (pc = code.size ∧ j = i) ∨ (pc < code.size ∧ code[pc]? = some j) := by
    intro pc j hj
    rw [Array.getElem?_push] at hj
    split at hj
    · next hpc => exact .inl ⟨hpc, by simpa using hj.symm⟩
    · exact .inr ⟨(lt_size hj), hj⟩
  refine ⟨fun pc j hj => ?_, fun pc j hj => ?_, fun pc j hj hju => ?_⟩
  · rcases hg pc j hj with ⟨-, rfl⟩ | ⟨-, hj⟩
    · exact hf
    · exact h.fits pc j hj
  · rcases hg pc j hj with ⟨rfl, rfl⟩ | ⟨hlt, hj⟩
    · rw [linkAt_push .refl]
      exact hl
    · rw [linkAt_push (by omega)]
      exact h.follows pc j hj
  · rw [Array.size_push]
    rcases hg pc j hj with ⟨rfl, rfl⟩ | ⟨-, hj⟩
    · have := ht hju
      omega
    · have := h.targets pc j hj hju
      omega

structure Remade (R : Nat → Instruction → Instruction → Prop) (l : List Nat)
    (code code' : Array Instruction) : Prop where
  size : code'.size = code.size
  kept : ∀ pc, pc ∉ l → code'[pc]? = code[pc]?
  made : ∀ pc ∈ l, ∀ i, code[pc]? = some i → ∃ j, code'[pc]? = some j ∧ R pc i j

lemma Remade.nil : Remade R [] code code := ⟨rfl, fun _ _ => rfl, by simp⟩

lemma getElem?_setIfInBounds_of_some (hi : code[pc]? = some i) (k : Nat) :
    (code.setIfInBounds pc j)[k]? = if pc = k then some j else code[k]? := by
  have hlt := lt_size hi
  split <;> simp_all

lemma Remade.cons (ht : ∀ pc i j k, R pc i j → R pc j k → R pc i k) (hi : code[pc]? = some i)
    (hij : R pc i j) (h : Remade R rest (code.setIfInBounds pc j) code') :
    Remade R (pc :: rest) code code' := by
  have hs := getElem?_setIfInBounds_of_some (j := j) hi
  refine ⟨by rw [h.size]; simp, fun k hk => ?_, fun k hk i' hi' => ?_⟩
  · rw [List.mem_cons, not_or] at hk
    rw [h.kept k hk.2, hs, if_neg (Ne.symm hk.1)]
  · by_cases heq : pc = k
    · subst heq
      cases hi.symm.trans hi'
      have hj : (code.setIfInBounds pc j)[pc]? = some j := by rw [hs, if_pos rfl]
      by_cases hin : pc ∈ rest
      · obtain ⟨k, hk, hjk⟩ := h.made pc hin j hj
        exact ⟨k, hk, ht pc i j k hij hjk⟩
      · exact ⟨j, by rw [h.kept pc hin, hj], hij⟩
    · have hin : k ∈ rest := by
        rcases List.mem_cons.mp hk with h | h
        · exact absurd h.symm heq
        · exact h
      exact h.made k hin i' (by rw [hs, if_neg heq, hi'])

lemma Remade.append {code'' : Array Instruction} (ht : ∀ pc i j k, R pc i j → R pc j k → R pc i k)
    (h : Remade R l code code') (h' : Remade R rest code' code'') :
    Remade R (l ++ rest) code code'' := by
  refine ⟨h'.size.trans h.size, fun pc hpc => ?_, fun pc hpc i hi => ?_⟩
  · rw [List.mem_append, not_or] at hpc
    rw [h'.kept pc hpc.2, h.kept pc hpc.1]
  · by_cases hl : pc ∈ l
    · obtain ⟨j, hj, hij⟩ := h.made pc hl i hi
      by_cases hr : pc ∈ rest
      · obtain ⟨k, hk, hjk⟩ := h'.made pc hr j hj
        exact ⟨k, hk, ht pc i j k hij hjk⟩
      · exact ⟨j, by rw [h'.kept pc hr, hj], hij⟩
    · exact h'.made pc ((List.mem_append.mp hpc).resolve_left hl) i (by rw [h.kept pc hl, hi])

def Aimed (target pc : Nat) (i j : Instruction) : Prop :=
  ∃ op, i.op? = some op ∧ op.isJump = true ∧ j.IsAsBx op i.argA (target - (pc + 1))

def Closing (level : Nat) (i j : Instruction) : Prop :=
  i.op? = some .jmp ∧ j.IsAsBx .jmp (level + 1) i.argSBx

abbrev Patched (l : List Nat) (target : Nat) := Remade (Aimed target) l

abbrev Closed (l : List Nat) (level : Nat) := Remade (fun _ => Closing level) l

lemma Aimed.trans {k : Instruction} (h : Aimed target pc i j) (h' : Aimed target pc j k) :
    Aimed target pc i k := by
  obtain ⟨op, hop, hj, hx⟩ := h
  obtain ⟨op', hop', -, hx'⟩ := h'
  cases hx.op.symm.trans hop'
  exact ⟨op, hop, hj, by rw [← hx.argA]; exact hx'⟩

lemma Closing.trans {k : Instruction} (h : Closing n i j) (h' : Closing n j k) :
    Closing n i k :=
  ⟨h.1, by rw [← h.2.argSBx]; exact h'.2⟩

section

variable (h : Patched l target code code')
include h

lemma Patched.get (hi : code[pc]? = some i) :
    ∃ j, code'[pc]? = some j ∧ j.op? = i.op? ∧ j.argA = i.argA := by
  by_cases hpc : pc ∈ l
  · obtain ⟨j, hj, op, hop, -, hx⟩ := h.made pc hpc i hi
    exact ⟨j, hj, by rw [hx.op, hop], hx.argA⟩
  · exact ⟨i, by rw [h.kept pc hpc, hi], rfl, rfl⟩

lemma Patched.closable (hc : Closable code n pc) :
    Closable code' n pc := by
  obtain ⟨i, hi, hop, ha⟩ := hc
  obtain ⟨j, hj, hop', ha'⟩ := h.get hi
  exact ⟨j, hj, by rw [hop', hop], by rw [ha']; exact ha⟩

lemma Patched.replaces (hc : Coded bs code)
    (hi : code[pc]? = some i) : ∃ j, code'[pc]? = some j ∧ i.Replaces bs j := by
  by_cases hpc : pc ∈ l
  · obtain ⟨j, hj, op, hop, hju, hx⟩ := h.made pc hpc i hi
    exact ⟨j, hj, hx.replaces (mode_of_isJump hju) hop (hc.fits pc i hi) (.inr rfl)⟩
  · exact ⟨i, by rw [h.kept pc hpc, hi], .refl (hc.fits pc i hi)⟩

lemma Patched.coded (hc : Coded bs code) (ht : target ≤ code.size) : Coded bs code' := by
  refine hc.recode h.size fun pc i hi => ?_
  obtain ⟨j, hj, hr⟩ := h.replaces hc hi
  refine ⟨j, hj, hr, fun hju => ?_⟩
  by_cases hpc : pc ∈ l
  · obtain ⟨j', hj', op, -, -, hx⟩ := h.made pc hpc i hi
    cases hj.symm.trans hj'
    rw [hx.argSBx]
    omega
  · cases hj.symm.trans ((h.kept pc hpc).trans hi)
    exact hc.targets pc i hi hju

lemma Patched.linkAt_eq (hc : Coded bs code) (k : Nat) : linkAt code' k = linkAt code k :=
  linkAt_recode h.size fun _ _ hi => by
    obtain ⟨j, hj, hr⟩ := h.replaces hc hi
    exact ⟨j, hj, hr.after⟩

end

section

variable (h : Closed l n code code')
include h

lemma Closed.closable (hm : m ≤ n) (hc : Closable code m pc) :
    Closable code' m pc := by
  obtain ⟨i, hi, hop, ha⟩ := hc
  by_cases hpc : pc ∈ l
  · obtain ⟨j, hj, -, hx⟩ := h.made pc hpc i hi
    exact ⟨j, hj, hx.op, .inr (by rw [hx.argA]; omega)⟩
  · exact ⟨i, by rw [h.kept pc hpc, hi], hop, ha⟩

lemma Closed.replaces (hc : Coded bs code)
    (hi : code[pc]? = some i) : ∃ j, code'[pc]? = some j ∧ i.Replaces bs j ∧
      (j.isJump = true → 0 ≤ (pc : Int) + 1 + j.argSBx ∧
        (pc : Int) + 1 + j.argSBx ≤ code.size) := by
  by_cases hpc : pc ∈ l
  · obtain ⟨j, hj, hop, hx⟩ := h.made pc hpc i hi
    refine ⟨j, hj, hx.replaces rfl hop (hc.fits pc i hi) (.inl rfl), fun _ => ?_⟩
    rw [hx.argSBx]
    exact hc.targets pc i hi (by simp [isJump, hop, OpCode.isJump])
  · exact ⟨i, by rw [h.kept pc hpc, hi], .refl (hc.fits pc i hi), hc.targets pc i hi⟩

lemma Closed.coded (hc : Coded bs code) : Coded bs code' :=
  hc.recode h.size fun _ _ hi => h.replaces hc hi

lemma Closed.linkAt_eq (hc : Coded bs code) (k : Nat) : linkAt code' k = linkAt code k :=
  linkAt_recode h.size fun _ _ hi => by
    obtain ⟨j, hj, hr, -⟩ := h.replaces hc hi
    exact ⟨j, hj, hr.after⟩

end

lemma Closable.push (h : Closable code n pc) : Closable (code.push i) n pc := by
  obtain ⟨j, hj, h⟩ := h
  have hlt := lt_size hj
  exact ⟨j, by rw [Array.getElem?_push, if_neg (by omega), hj], h⟩

lemma Instruction.isJump_of_op {op : OpCode} (h : i.op? = some op) : i.isJump = op.isJump := by
  simp [isJump, h]

lemma Closable.isJump (h : Closable code n pc) : ∃ i, code[pc]? = some i ∧ i.isJump = true := by
  obtain ⟨i, hi, hop, -⟩ := h
  exact ⟨i, hi, by rw [isJump_of_op hop]; rfl⟩

namespace Draft

variable {d d' : Draft}

lemma fixJump_cases (hi : d.code[pc]? = some i) (hj : i.isJump = true) (target : Nat) :
    (∃ j, Aimed target pc i j ∧
      d.fixJump target pc = .ok { d with code := d.code.setIfInBounds pc j }) ∨
    Rejected (d.fixJump target pc) := by
  cases hf : fitsOffset (target - (pc + 1)) with
  | false => exact .inr ⟨_, by simp [fixJump, hf]; rfl, rfl⟩
  | true =>
    obtain ⟨op, hop, hm⟩ := op_of_isJump hj
    obtain ⟨j, hw, hx⟩ := withSBx?_eq_some hop hm hf
    rw [isJump_of_op hop] at hj
    exact .inl ⟨j, ⟨op, hop, hj, hx⟩, by simp [fixJump, hf, hi, hw]⟩

lemma fixJumps_cases (target : Nat) (l : List Nat) (d : Draft)
    (h : ∀ pc ∈ l, ∃ i, d.code[pc]? = some i ∧ i.isJump = true) :
    (∃ code, Patched l target d.code code ∧ fixJumps target l d = .ok { d with code := code }) ∨
    Rejected (fixJumps target l d) := by
  induction l generalizing d with
  | nil => exact .inl ⟨d.code, .nil, rfl⟩
  | cons pc rest ih =>
    obtain ⟨i, hi, hj⟩ := h pc (by simp)
    rcases fixJump_cases hi hj target with ⟨j, ha, hf⟩ | ⟨e, hf, hc⟩
    · have hr : ∀ k ∈ rest, ∃ i', (d.code.setIfInBounds pc j)[k]? = some i' ∧ i'.isJump = true := by
        intro k hk
        rw [getElem?_setIfInBounds_of_some hi]
        split
        · obtain ⟨op, -, ho, hx⟩ := ha
          exact ⟨j, rfl, by rw [isJump_of_op hx.op, ho]⟩
        · exact h k (by simp [hk])
      rcases ih { d with code := d.code.setIfInBounds pc j } hr with
        ⟨code, hp, hok⟩ | ⟨e, he, hc⟩
      · exact .inl ⟨code, .cons (fun _ _ _ _ => Aimed.trans) hi ha hp,
          by rw [fixJumps, hf]; exact hok⟩
      · exact .inr ⟨e, by rw [fixJumps, hf]; exact he, hc⟩
    · exact .inr ⟨e, by rw [fixJumps, hf], hc⟩

lemma closeAt_eq_ok (h : Closable d.code n pc) (hn : n < 255) : ∃ i j, d.code[pc]? = some i ∧
    Closing n i j ∧ d.closeAt n pc = .ok { d with code := d.code.setIfInBounds pc j } := by
  obtain ⟨i, hi, hop, ha⟩ := h
  obtain ⟨j, hw, hx⟩ := withA?_eq_some (n + 1).toUInt8 hop rfl
  rw [toNat_toUInt8 (by omega)] at hx
  refine ⟨i, j, hi, ⟨hop, hx⟩, ?_⟩
  have hc : (i.op? ≠ some .jmp || (i.argA ≠ 0 && i.argA < n + 1)) = false := by
    simp [hop]
    omega
  simp only [closeAt, hi, hc, hw, Bool.false_eq_true, ↓reduceIte]

lemma closeAll_eq_ok (hn : n < 255) (l : List Nat) (d : Draft)
    (h : ∀ pc ∈ l, Closable d.code n pc) :
    ∃ code, Closed l n d.code code ∧ closeAll n l d = .ok { d with code := code } := by
  induction l generalizing d with
  | nil => exact ⟨d.code, .nil, rfl⟩
  | cons pc rest ih =>
    obtain ⟨i, j, hi, hcl, hf⟩ := closeAt_eq_ok (h pc (by simp)) hn
    have hr : ∀ k ∈ rest, Closable (d.code.setIfInBounds pc j) n k := by
      intro k hk
      obtain ⟨i', hi', hop, ha⟩ := h k (by simp [hk])
      by_cases heq : pc = k
      · exact ⟨j, by rw [getElem?_setIfInBounds_of_some hi, if_pos heq], hcl.2.op,
          .inr (by rw [hcl.2.argA]; omega)⟩
      · exact ⟨i', by rw [getElem?_setIfInBounds_of_some hi, if_neg heq, hi'], hop, ha⟩
    obtain ⟨code, hc, hok⟩ := ih { d with code := d.code.setIfInBounds pc j } hr
    exact ⟨code, .cons (fun _ _ _ _ => Closing.trans) hi hcl hc,
      by rw [closeAll, hf]; exact hok⟩

def emitted (d : Draft) (code : Array Instruction) (i : Instruction) : Draft :=
  { d with code := code.push i, lineInfo := d.lineInfo.push (.ofInt d.line), pending := [] }

lemma emit_cases (i : Instruction)
    (h : ∀ pc ∈ d.pending, ∃ i, d.code[pc]? = some i ∧ i.isJump = true) :
    (∃ code, Patched d.pending d.code.size d.code code ∧ d.emit i = .ok (d.emitted code i)) ∨
    Rejected (d.emit i) := by
  rcases fixJumps_cases d.code.size d.pending { d with pending := [] } h with
    ⟨code, hp, hok⟩ | ⟨e, he, hc⟩
  · exact .inl ⟨code, hp, by simp only [emit, hok]; rfl⟩
  · exact .inr ⟨e, by simp only [emit, he], hc⟩

end Draft

def Chained (upvalues : Array UpvalueDescriptor) : List Draft → Prop
  | [] => upvalues.any (·.name == environmentName) = true
  | d :: outer =>
    (∀ u ∈ upvalues, d.Provides u) ∧ d.Sound ∧ d.active.size ≤ d.firstFree ∧
      Chained d.upvalues outer

namespace OpCode

structure Fits (bs : Bounds) (a b c bx : Nat) (op : OpCode) : Prop where
  registers : ∀ r ∈ op.registers a b c, r < bs.stack
  constants : ∀ k ∈ op.constants b c bx, k < bs.constants
  upvalues : ∀ u ∈ op.upvalues a b, u < bs.upvalues
  closures : ∀ f ∈ op.closures bx, f < bs.functions

def Takes (b : Nat) (op : OpCode) : Link → Prop
  | .jump | .constant => False
  | .bool => op = .loadBool
  | link => op.before b = link

end OpCode

namespace Instruction

variable {op : OpCode} {a b c : Nat} {l : Link} {x : Int}

lemma IsABC.argBx_eq (h : i.IsABC op a b c) (hm : op.mode = .abc) : i.argBx = 0 := by
  simp [argBx, mode?_of_op? h.op, hm]

lemma fits_of_op? (h : i.op? = some op) (hf : op.Fits bs i.argA i.argB i.argC i.argBx) :
    i.Fits bs where
  opcode := by rw [h]; rfl
  registers := by simpa [Instruction.registers, h] using hf.registers
  constants := by simpa [Instruction.constants, h] using hf.constants
  upvalues := by simpa [Instruction.upvalues, h] using hf.upvalues
  closures := by simpa [Instruction.closures, h] using hf.closures

lemma IsABC.fits (h : i.IsABC op a b c) (hm : op.mode = .abc) (hf : op.Fits bs a b c 0) :
    i.Fits bs :=
  fits_of_op? h.op (by rwa [h.argA, h.argB, h.argC, h.argBx_eq hm])

lemma IsABC.follows (h : i.IsABC op a b c) (ht : op.Takes b l) : i.Follows n l := by
  cases l <;> simp_all [Follows, OpCode.Takes, before, h.op, h.argB]

lemma IsAsBx.fits (h : i.IsAsBx op a x) (hm : op.mode = .asbx) (hf : op.Fits bs a 0 0 0) :
    i.Fits bs := by
  obtain ⟨hb, hc, hbx, -⟩ := args_of_asbx h.op hm
  exact fits_of_op? h.op (by rwa [h.argA, hb, hc, hbx])

lemma IsAsBx.follows (h : i.IsAsBx op a x) (hm : op.mode = .asbx) (ht : op.Takes 0 l) :
    i.Follows n l := by
  obtain ⟨hb, -⟩ := args_of_asbx h.op hm
  cases l <;> simp_all [Follows, OpCode.Takes, before, h.op]

lemma IsAsBx.after_eq (h : i.IsAsBx op a x) (hm : op.mode = .asbx) : i.after = op.after 0 0 := by
  obtain ⟨hb, hc, -⟩ := args_of_asbx h.op hm
  simp [after, h.op, hb, hc]

lemma IsABC.after_eq (h : i.IsABC op a b c) : i.after = op.after b c := by
  simp [after, h.op, h.argB, h.argC]

lemma IsABC.isJump_eq (h : i.IsABC op a b c) (hm : op.mode = .abc) : i.isJump = false := by
  rw [isJump_of_op h.op]
  cases hj : op.isJump with
  | false => rfl
  | true => rw [mode_of_isJump hj] at hm; cases hm

end Instruction

namespace Generator

variable {g g' g'' : Generator} {m' r r' : Nat} {l l' : Link}

structure Alters (S : Nat → Prop) (g g' : Generator) : Prop where
  frame : g.Keeps S 255 g'.toDraft
  active : g'.active = g.active
  localVariables : g'.localVariables = g.localVariables
  breaks : g'.breaks = g.breaks
  shapes : g'.blocks.map Block.shape = g.blocks.map Block.shape
  outer : List.Forall₂ Draft.Touched g.enclosing g'.enclosing

abbrev Within (g g' : Generator) : Prop := g.Alters (· ∈ g.pending) g'

lemma forall₂_touched_refl (ds : List Draft) : List.Forall₂ Draft.Touched ds ds := by
  induction ds with
  | nil => exact .nil
  | cons d ds ih => exact .cons (.refl d) ih

lemma forall₂_touched_trans {ds ds' ds'' : List Draft} (h : List.Forall₂ Draft.Touched ds ds')
    (h' : List.Forall₂ Draft.Touched ds' ds'') : List.Forall₂ Draft.Touched ds ds'' := by
  induction h generalizing ds'' with
  | nil => exact h'
  | cons hd _ ih =>
    cases h' with
    | cons hd' ht' => exact .cons (hd.trans hd') (ih ht')

lemma Alters.refl (g : Generator) : g.Within g :=
  ⟨Draft.Frame.refl _, rfl, rfl, rfl, rfl, forall₂_touched_refl _⟩

lemma Alters.trans {S S' : Nat → Prop} (h : g.Alters S g') (h' : g'.Alters S' g'')
    (hS : ∀ pc, S' pc → S pc ∨ g.code.size ≤ pc) : g.Alters S g'' where
  frame := h.frame.trans h'.frame .refl hS
  active := h'.active.trans h.active
  localVariables := h'.localVariables.trans h.localVariables
  breaks := h'.breaks.trans h.breaks
  shapes := h'.shapes.trans h.shapes
  outer := forall₂_touched_trans h.outer h'.outer

lemma Alters.alter (h : g.Within g') (h' : g'.Alters g.Loose g'') : g.Within g'' :=
  h.trans h' fun _ hpc => hpc

lemma Alters.append (h : g.Within g') (h' : g'.Within g'') : g.Within g'' :=
  h.trans h' h.frame.pending

structure Steady (l : Link) (g : Generator) : Prop where
  sound : g.Sound
  chained : Chained g.upvalues g.enclosing
  link : g.link = l
  top : g.active.size ≤ g.firstFree

structure Ready (m : Nat) (l : Link) (g : Generator) : Prop extends Steady l g where
  settled : g.Settled m
  level : m ≤ 255

structure Reaches (m : Nat) (l : Link) (r : Nat) (g g' : Generator) : Prop extends
    g.Within g' where
  ready : g'.Ready m l
  top : g'.firstFree = r

lemma Ready.mono (h : g.Ready m l) (hm : m' ≤ m) : g.Ready m' l :=
  { h with
    settled := fun pc hpc => (h.settled pc hpc).mono hm
    level := Nat.le_trans hm h.level }

lemma Ready.refl (h : g.Ready m l) : g.Reaches m l g.firstFree g := ⟨.refl g, h, rfl⟩

variable (h : g.Reaches m l r g')
include h

lemma Reaches.restart : g'.Reaches m l r g' := ⟨.refl g', h.ready, h.top⟩

lemma Reaches.mono (hm : m' ≤ m) : g.Reaches m' l r g' :=
  { h with ready := h.ready.mono hm }

lemma Reaches.trans (h' : g'.Reaches m' l' r' g'') :
    g.Reaches m' l' r' g'' :=
  ⟨h.toAlters.append h'.toAlters, h'.ready, h'.top⟩

lemma Reaches.active_le : g.active.size ≤ r := by
  have := h.ready.top
  rw [h.active, h.top] at this
  exact this

lemma Reaches.le_stack : r ≤ g'.bounds.stack := by
  have := h.ready.sound.top
  rw [h.top] at this
  exact this

lemma Reaches.stack_le : g'.bounds.stack ≤ 254 := h.ready.sound.stack

end Generator

end LuaBytecode
