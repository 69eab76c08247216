import LuaBytecode.Generator.Statement
import LuaBytecode.Proofs.FloatingByte
import LuaBytecode.Proofs.Generator.Expression

namespace LuaBytecode

open OpCode

variable {function : ExprCode} {base b : Nat} {values : List ExprCode} {t : AssignTarget}

namespace Gen

open Operand ExprCode

variable {lax : Prop} {g g0 : Generator} {m r dst : Nat} {n : ResultCount}

lemma meets_arguments {args : List ExprCode} (ha : ∀ e ∈ args, e.Sound lax)
    (h : g.Reaches m .plain r g0) :
    Meets lax g0 (arguments args) fun isOpen g' => ∃ r', r ≤ r' ∧
      g.Reaches m (if isOpen then .open else .plain) r' g' := by
  induction args generalizing g0 r with
  | nil => exact meets_pure ⟨r, .refl, h⟩
  | cons e rest ih =>
    have he := ha e (by simp)
    unfold arguments
    split
    · next results hr =>
      refine (meets_reserve h 1).bind ?_
      rintro k g1 ⟨rfl, h1⟩
      have hd : ResultDest g.active.size (k + 1) k true .all := ⟨rfl, h.active_le⟩
      refine (he.results results hr h1 hd).bind fun _ g2 h2 => ?_
      exact meets_pure ⟨k + 1, by omega, h2.1.mono h.ready.level⟩
    · refine (he.nextReg h).discard_bind ?_
      rintro _ g1 ⟨-, h1⟩
      refine (ih (fun e' hm => ha e' (by simp [hm])) (h1.mono h.ready.level)).mono ?_
      rintro isOpen g2 ⟨r', hle, h2⟩
      exact ⟨r', by omega, h2⟩

lemma meets_self {object : Nat} (method : Ident) (h : g.Reaches m .plain r g0) (ho : object ≤ r) :
    Meets lax g0 (do
      discard <| reserve 2
      let key ← operandOfValue (.string method.name)
      setPos method.span.start
      discard <| emitABC .self r object key
      freeOperand key) fun _ g' => ∃ r', r < r' ∧ g.Reaches m .plain r' g' := by
  refine (meets_reserve h 2).discard_bind ?_
  rintro _ g1 ⟨-, h1⟩
  refine (meets_operandOfValue h1 (.string method.name)).bind ?_
  rintro key g2 ⟨r', h2, hp, hf⟩
  have hle := hp.le
  refine ((meets_setPos h2 method.span.start).and (silent_setPos method.span.start)).bind ?_
  rintro - g3 ⟨h3, hs3⟩
  have hs := h3.le_stack
  have hs' := h3.stack_le
  refine (meets_emitABC .self r object key h3 rfl (by omega) (by omega) hf.le
    (fits_self (by omega) (by omega) (hf.mono hs3.bounds)) rfl).discard_bind ?_
  rintro - g4 ⟨h4, -⟩
  have ha := h.active_le
  exact (meets_freeOperand h4 hp (by omega)).mono fun _ _ h' =>
    ⟨r + 2, by omega, h'.1.mono h.ready.level⟩

lemma meets_loadCallee (hf : function.Sound lax) (method : Option Ident)
    (h : g.Reaches m .plain r g0) :
    Meets lax g0 (loadCallee r function method) fun _ g' => ∃ r', r < r' ∧
      g.Reaches m .plain r' g' := by
  cases method with
  | none =>
    exact (hf.nextReg h).discard fun _ g1 h1 =>
      ⟨r + 1, Nat.lt_succ_self r, h1.2.mono h.ready.level⟩
  | some method =>
    refine (meets_local? function h).bind ?_
    rintro o g1 ⟨rfl, ho⟩
    cases o with
    | some k =>
      exact meets_self method h (Nat.le_of_lt (Nat.lt_of_lt_of_le (ho k rfl) h.active_le))
    | none =>
      refine (hf.nextReg h).bind ?_
      rintro k g2 ⟨rfl, h2⟩
      refine (meets_lower h2 h.active_le (Nat.le_succ k) fun hl =>
        free_placed_eq hl .temporary (Nat.lt_succ_self k) h.active_le).bind fun _ g3 h3 => ?_
      exact meets_self method (h3.1.mono h.ready.level) .refl

lemma fits_call {bs : Bounds} {top : Nat} (hb : base + max b 1 ≤ top)
    (hn : base + (n.arg - 1) ≤ bs.stack) (ht : top ≤ bs.stack) :
    OpCode.call.Fits bs base b n.arg 0 := by
  refine ⟨fun k hk => ?_, by simp, by simp, by simp⟩
  simp only [OpCode.registers, List.mem_append, List.mem_range'_1] at hk
  omega

lemma endsInCall_of_emits {g' : Generator} {i : Instruction} {a c : Nat} (he : g.Emits i g')
    (hi : i.IsABC .call a b c) : g.EndsInCall g'.toDraft := by
  exact ⟨by simp [he.size], i, Array.back?_eq_getElem?.trans he.last, hi.op⟩

lemma meets_call {isOpen : Bool} (h : g.Reaches m (if isOpen then .open else .plain) r g0)
    (hba : base < r) (hn : base + (n.arg - 1) ≤ g0.bounds.stack) :
    Meets lax g0 (emitABC .call base (if isOpen then 0 else r - base) n.arg) fun _ g' =>
      g.Reaches 255 n.link r g' ∧ g0.EndsInCall g'.toDraft := by
  have hs := h.le_stack
  have hs' := h.stack_le
  have hl : ∀ b, call.after b n.arg = n.link := by
    intro b
    cases n <;> rfl
  have ht : call.Takes (if isOpen then 0 else r - base) (if isOpen then .open else .plain) := by
    cases isOpen with
    | true => rfl
    | false =>
      show call.before (r - base) = .plain
      rw [before, if_neg (by omega)]
  have hb : base + max (if isOpen then 0 else r - base) 1 ≤ r := by
    cases isOpen <;> simp <;> omega
  refine (meets_emitABC .call base _ n.arg h rfl (by omega) (by omega) (by omega)
    (fits_call hb hn hs) ht).mono ?_
  rintro pc g' ⟨hr, -, i, hi, he⟩
  rw [hl] at hr
  exact ⟨hr, endsInCall_of_emits he hi⟩

lemma meets_finishCall {line : Int} {args : List ExprCode} {inPlace : Bool}
    (ha : ∀ e ∈ args, e.Sound lax) (h : g.Reaches m .plain r g0) (hb : base < r)
    (hac : g.active.size ≤ base) (hn : base + n.slots ≤ g0.bounds.stack)
    (hd : inPlace = false → n = .exactly 1 ∧ dst < g.active.size) :
    Meets lax g0 (finishCall line args inPlace dst base n) fun _ g' =>
      g.Reaches 255 n.link (if inPlace then base + n.slots else base) g' ∧
        (n = .all → g0.EndsInCall g'.toDraft) := by
  refine ((meets_arguments ha h).and (meets_arguments ha h.ready.refl)).bind ?_
  rintro isOpen g1 ⟨⟨r1, hr1, h1⟩, _, -, h1'⟩
  refine meets_read ?_
  rw [h1.top]
  refine ((meets_setLine h1 line).and (silent_setLine line)).bind ?_
  rintro - g2 ⟨h2, hs2⟩
  have hst := (h1'.frame.bounds.trans hs2.bounds).stack
  have har : n.arg - 1 ≤ n.slots := by
    cases n <;> simp only [ResultCount.arg, ResultCount.slots] <;> omega
  refine (meets_call h2 (by omega) (by omega)).discard_bind ?_
  rintro - g3 ⟨h3, hc⟩
  refine ((meets_setFirstFree h3 hac ?_).and (silent_setFirstFree base)).bind ?_
  · have := h3.le_stack
    omega
  rintro - g4 ⟨h4, hs4⟩
  refine ((meets_reserve h4 n.slots).and (silent_reserve n.slots)).discard_bind ?_
  rintro _ g5 ⟨⟨-, h5⟩, hs5⟩
  have he : g0.EndsInCall g5.toDraft := by
    have hsi := h1'.frame.size
    rw [← hs2.code] at hsi
    rw [Draft.EndsInCall, hs5.code, hs4.code]
    exact ⟨Nat.lt_of_le_of_lt hsi hc.1, hc.2⟩
  cases inPlace with
  | true => exact meets_pure ⟨h5, fun _ => he⟩
  | false =>
    obtain ⟨rfl, hds⟩ := hd rfl
    have hs := h5.le_stack
    have hs' := h5.stack_le
    simp only [ResultCount.slots] at hs
    have hm : Meets lax g5 (moveAll dst base 1 0) fun _ =>
        g.Reaches 255 .plain (base + 1) := by
      refine (meets_emitABC .move dst base 0 h5 rfl (by omega) (by omega) (Nat.zero_le _)
        (fits_move (by simp) (by omega) (by omega)) rfl).discard_bind ?_
      exact fun _ g6 h6 => meets_pure h6.1
    refine hm.bind fun _ g6 h6 => ?_
    have hs6 := h6.le_stack
    refine (meets_setFirstFree h6 hac (by omega)).mono fun _ g7 h7 => ⟨h7, ?_⟩
    intro hal
    cases hal

end Gen

namespace ExprCode

open Gen

variable {lax : Prop}

lemma ofCall_sound {start : Position} {method : Option Ident} {args : List ExprCode}
    (hf : function.Sound lax) (ha : ∀ e ∈ args, e.Sound lax) :
    (ofCall start function method args).Sound lax := by
  refine ofResults_sound fun {g g0 m r dst fresh n} h hd => ?_
  refine meets_read ?_
  rw [h.top]
  cases fresh with
  | true =>
    obtain ⟨hr, hac⟩ := hd
    have hs := h.le_stack
    simp only [hr, decide_true, Bool.and_self, if_pos]
    refine ((meets_setFirstFree h hac (by omega)).and (silent_setFirstFree dst)).bind ?_
    rintro - g1 ⟨h1, hs1⟩
    refine meets_read ?_
    rw [h1.top]
    have hst := hs1.bounds.stack
    refine ((meets_loadCallee hf method h1).and (meets_loadCallee hf method h1.restart)).bind ?_
    rintro - g2 ⟨⟨r', hlt, h2⟩, _, -, h2'⟩
    have hs2 := h2'.frame.bounds.stack
    refine (meets_finishCall ha h2 hlt hac (by omega) (by simp)).mono ?_
    rintro - g3 ⟨h3, hc⟩
    rw [← hr]
    refine ⟨h3, fun _ hal => (hc hal).since ?_⟩
    rw [← hs1.code]
    exact h2'.frame.size
  | false =>
    obtain ⟨rfl, hds⟩ := hd
    refine meets_read ?_
    rw [h.top]
    refine (meets_loadCallee hf method h).bind ?_
    rintro - g1 ⟨r', hlt, h1⟩
    have hs := h1.le_stack
    refine (meets_finishCall ha h1 hlt h.active_le ?_ fun _ => ⟨rfl, hds⟩).mono ?_
    · simp only [ResultCount.slots]
      omega
    · rintro - g2 ⟨h2, -⟩
      exact ⟨h2, fun _ hal => by cases hal⟩

end ExprCode

section Fits

variable {bs : Bounds} {a c : Nat}

lemma OpCode.fits_setTable (ha : a < bs.stack) (hb : Operand.Fits bs b)
    (hc : Operand.Fits bs c) : setTable.Fits bs a b c 0 := by
  refine ⟨?_, List.forall_mem_append.2 ⟨hb.constants, hc.constants⟩, by simp, by simp⟩
  exact List.forall_mem_cons.2 ⟨ha, List.forall_mem_append.2 ⟨hb.registers, hc.registers⟩⟩

lemma OpCode.fits_setList (h : a + b < bs.stack) : setList.Fits bs a b c 0 := by
  refine ⟨fun r hm => ?_, by simp, by simp, by simp⟩
  simp only [registers, List.mem_range'_1] at hm
  omega

lemma OpCode.fits_newTable (ha : a < bs.stack) : newTable.Fits bs a b c 0 := by
  constructor <;> simp [ha]

end Fits

structure FieldCode.Sound (lax : Prop) (f : FieldCode) : Prop where
  key : f.key.Sound lax
  value : f.value.Sound lax

namespace Gen

open Operand ExprCode

variable {lax : Prop} {g g0 : Generator} {m r t : Nat} {l : Link}

def Waiting (t top : Nat) (l : Link) : Option Nat → Prop
  | some k => l = .plain ∧ 0 < k ∧ t + k < top
  | none => l = .open ∧ t < top

lemma meets_setList (t n : Nat) (pending : Option Nat) (h : g.Reaches m l r g0)
    (hw : Waiting t r l pending) (ha : g.active.size ≤ t + 1) :
    Meets lax g0 (setList t n pending) fun _ => g.Reaches 255 .plain (t + 1) := by
  have hs := h.le_stack
  have hs' := h.stack_le
  have hc : t + pending.getD 0 < r := by
    cases pending with
    | some k => exact hw.2.2
    | none => exact hw.2
  have ht : OpCode.setList.Takes (pending.getD 0) l := by
    cases pending with
    | some k =>
      obtain ⟨rfl, hk, -⟩ := hw
      show OpCode.setList.before k = .plain
      rw [OpCode.before, if_neg (by omega)]
    | none =>
      obtain ⟨rfl, -⟩ := hw
      rfl
  have he : ∀ {g1 : Generator}, g.Reaches 255 .plain r g1 →
      Meets lax g1 (setFirstFree (t + 1)) fun _ => g.Reaches 255 .plain (t + 1) := by
    intro g1 h1
    have := h1.le_stack
    exact meets_setFirstFree h1 ha (by omega)
  unfold setList
  simp only
  split
  · next hle =>
    simp only [Instruction.maxC] at hle
    refine (meets_emitABC .setList t _ _ h rfl (by omega) (by omega) hle
      (OpCode.fits_setList (by omega)) ht).discard_bind ?_
    rintro - g1 ⟨h1, -⟩
    exact he h1
  · split
    · next hle =>
      refine (meets_emitABC .setList t _ 0 h rfl (by omega) (by omega) (Nat.zero_le _)
        (OpCode.fits_setList (by omega)) ht).discard_bind ?_
      rintro - g1 ⟨h1, -⟩
      refine (meets_extraArgument h1 hle (.inl rfl)).discard_bind fun _ g2 h2 => he h2.1
    · exact meets_fail_bind fun h => absurd h Bool.false_ne_true

lemma meets_storePair {f : FieldCode} (hf : f.Sound lax) (h : g.Reaches m .plain r g0)
    (ht : t < r) : Meets lax g0 (storePair t f) fun _ => g.Reaches 255 .plain r := by
  refine meets_read ?_
  rw [h.top]
  refine (hf.key.operand h).bind ?_
  rintro key g1 ⟨r1, h1, hp1, hf1⟩
  refine ((hf.value.operand h1).and (hf.value.operand h1.restart)).bind ?_
  rintro value g2 ⟨⟨r2, h2, hp2, hf2⟩, _, h2', -⟩
  refine ((meets_setPos h2 f.start).and (silent_setPos f.start)).bind ?_
  rintro - g3 ⟨h3, hs3⟩
  have hs := h3.le_stack
  have hs' := h3.stack_le
  have hle1 := hp1.le
  have hle2 := hp2.le
  have ha := h.active_le
  refine (meets_emitABC .setTable t key value h3 rfl (by omega) hf1.le hf2.le
    (fits_setTable (by omega) (hf1.mono (h2'.frame.bounds.trans hs3.bounds))
      (hf2.mono hs3.bounds)) rfl).discard_bind ?_
  rintro - g4 ⟨h4, -⟩
  refine (meets_freeOperand h4 hp2 (by omega)).bind fun _ g5 h5 => ?_
  refine (meets_freeOperand h5.1 hp1 ha).bind fun _ g6 h6 => ?_
  exact meets_setFirstFree h6.1 ha h6.1.le_stack

lemma meets_storeFields {fields : List FieldCode} {n : FieldCount}
    (hf : ∀ f ∈ fields, f.Sound lax) (h : g.Reaches m .plain (t + 1 + n.pending) g0)
    (ha : g.active.size ≤ t) :
    Meets lax g0 (storeFields t fields n) fun n' g' => g.Reaches m .plain (t + 1) g' ∧
      n'.items ≤ n.items + fields.length ∧ n'.pairs ≤ n.pairs + fields.length := by
  induction fields generalizing g0 n with
  | nil =>
    simp only [storeFields]
    split
    · next hpos =>
      refine (meets_setList t n.items (some n.pending) h ⟨rfl, hpos, by omega⟩
        (by omega)).bind fun _ g1 h1 => ?_
      exact meets_pure ⟨h1.mono h.ready.level, by simp, by simp⟩
    · next hz =>
      rw [show t + 1 + n.pending = t + 1 by omega] at h
      exact meets_pure ⟨h, by simp, by simp⟩
  | cons f rest ih =>
    have hfs := hf f (by simp)
    have hre : ∀ f' ∈ rest, f'.Sound lax := fun f' hm => hf f' (by simp [hm])
    have hl : (f :: rest).length = rest.length + 1 := rfl
    refine (meets_setPos h f.start).bind fun _ g1 h1 => ?_
    split
    · refine (meets_storePair hfs h1 (by omega)).bind fun _ g2 h2 => ?_
      refine (ih (n := ⟨n.items, n.pairs + 1, n.pending⟩) hre (h2.mono h.ready.level)).mono ?_
      rintro n' g3 ⟨h3, hi, hp⟩
      simp only at hi hp
      exact ⟨h3, by omega, by omega⟩
    · split
      · next results hr =>
        refine (meets_reserve h1 1).bind ?_
        rintro k g2 ⟨rfl, h2⟩
        have hd : ResultDest g.active.size (t + 1 + n.pending + 1)
            (t + 1 + n.pending) true .all := ⟨rfl, h.active_le⟩
        refine (hfs.value.results results hr h2 hd).bind fun _ g3 h3 => ?_
        refine (meets_setList t (n.items + 1) none h3.1 ⟨rfl, by omega⟩
          (by omega)).bind fun _ g4 h4 => ?_
        exact meets_pure ⟨h4.mono h.ready.level, by simp, by simp⟩
      · refine (hfs.value.nextReg h1).discard_bind ?_
        rintro _ g2 ⟨-, h2⟩
        have h2 := h2.mono h.ready.level
        simp only
        split
        · refine (meets_setList t (n.items + 1) (some (n.pending + 1)) h2
            ⟨rfl, by omega, by omega⟩ (by omega)).bind fun _ g3 h3 => ?_
          refine (ih (n := ⟨n.items + 1, n.pairs, 0⟩) hre (h3.mono h.ready.level)).mono ?_
          rintro n' g4 ⟨h4, hi, hp⟩
          simp only at hi hp
          exact ⟨h4, by omega, by omega⟩
        · refine (ih (n := ⟨n.items + 1, n.pairs, n.pending + 1⟩) hre h2).mono ?_
          rintro n' g4 ⟨h4, hi, hp⟩
          simp only at hi hp
          exact ⟨h4, by omega, by omega⟩

end Gen

namespace ExprCode

open Gen

variable {lax : Prop}

lemma ofTable_sound {start : Position} {fields : List FieldCode}
    (hf : ∀ f ∈ fields, f.Sound lax) (hle : lax ∨ fields.length < 2 ^ 64) :
    (ofTable start fields).Sound lax where
  body _ g g0 m r dst fresh h hd := by
    have hds := hd.lt h.active_le
    have ha := h.active_le
    refine meets_read ?_
    extract_lets isTop build
    -- The table is built in `t`, which is the register below the top.
    have hbu : ∀ {g1 : Generator} {t : Nat}, g.Reaches m .plain (t + 1) g1 →
        g.active.size ≤ t → (t = dst → t + 1 = r) → (t ≠ dst → t = r) →
        Meets lax g1 (build t) fun _ => g.Reaches (if fresh then 255 else m) .plain r := by
      intro g1 t h₁ hat heq hne
      have hs := h₁.le_stack
      have hs' := h₁.stack_le
      refine ((meets_emitABC .newTable t 0 0 h₁ rfl (by omega) (Nat.zero_le _) (Nat.zero_le _)
        (fits_newTable (by omega)) rfl)).bind ?_
      rintro pc g2 ⟨h₂, rfl, i, hi, he⟩
      have hat2 : g2.active.size ≤ t := by rw [h₂.active]; exact hat
      refine ((meets_storeFields (n := ⟨0, 0, 0⟩) hf h₂ hat).and
        (meets_storeFields (n := ⟨0, 0, 0⟩) hf h₂.restart hat2)).bind ?_
      rintro n g3 ⟨⟨h3, hit, hpa⟩, h3', -⟩
      simp only [Nat.zero_add] at hit hpa
      have hc : g3.code[g1.code.size]? = some i :=
        h3'.frame.kept he.getElem? (by simp [he.pending]) (by simp [hi.op])
      cases hx : Instruction.abc .newTable t.toUInt8 (FloatingByte.ofNat n.items)
          (FloatingByte.ofNat n.pairs) with
      | error e =>
        rcases hle with hla | hle
        · exact meets_fault_bind hla
        · have h1 := FloatingByte.ofNat_le (x := n.items) (by omega)
          have h2 := FloatingByte.ofNat_le (x := n.pairs) (by omega)
          obtain ⟨j, hj, -⟩ := Instruction.abc_eq_ok (a := t.toUInt8)
            (rfl : newTable.mode = .abc) h1 h2
          cases hj.symm.trans hx
      | ok j =>
        have hj := Instruction.isABC_of_abc hx
        rw [toNat_toUInt8 (by omega)] at hj
        have hs3 := h3.le_stack
        have hs3' := h3.stack_le
        have hre : i.Replaces g3.bounds j :=
          { fits := hj.fits rfl (fits_newTable (by omega))
            after := by rw [hj.after_eq, hi.after_eq]; rfl
            follows := fun l hl => by
              cases l <;> simp_all [Instruction.Follows, Instruction.before, hi.op, hj.op, before] }
        have h4 := h3.replace hc h₁.frame.size hre (hi.isJump_eq rfl) (hj.isJump_eq rfl)
        refine (meets_replace h4).bind fun _ g4 h4 => ?_
        split
        · next hne' =>
          obtain rfl := hne hne'
          refine (meets_setPos h4 start).bind fun _ g5 h5 => ?_
          have hs5 := h5.le_stack
          have hs5' := h5.stack_le
          refine (meets_emitABC .move dst t 0 h5 rfl (by omega) (by omega) (Nat.zero_le _)
            (fits_move (by simp) (by omega) (by omega)) rfl).discard_bind ?_
          rintro - g6 ⟨h6, -⟩
          have hs6 := h6.le_stack
          exact (meets_setFirstFree h6 hat (by omega)).mono fun _ _ h' =>
            h'.mono (level_le h fresh)
        · next heq' =>
          have heq' : t = dst := by simpa using heq'
          rw [← heq heq']
          exact meets_pure (h4.mono (level_le h fresh))
    have ht : isTop = (fresh && dst + 1 = r) := by rw [← h.top]
    cases fresh with
    | true =>
      obtain ⟨rfl, hda⟩ := hd.fresh rfl
      rw [if_pos (by simp [ht])]
      exact hbu h hda (fun _ => rfl) (fun hne => absurd rfl hne)
    | false =>
      rw [if_neg (by simp [ht])]
      refine (meets_reserve h 1).bind ?_
      rintro k g1 ⟨rfl, h₁⟩
      exact hbu h₁ ha (fun heq => by omega) (fun _ => rfl)
  branch := nofun
  results := nofun
  chain := nofun

end ExprCode

section Fits

variable {bs : Bounds} {a c : Nat}

lemma OpCode.fits_setUpval (ha : a < bs.stack) (hb : b < bs.upvalues) :
    setUpval.Fits bs a b c 0 := by
  constructor <;> simp [ha, hb]

lemma OpCode.fits_setTabUp (ha : a < bs.upvalues) (hb : Operand.Fits bs b)
    (hc : Operand.Fits bs c) : setTabUp.Fits bs a b c 0 :=
  ⟨List.forall_mem_append.2 ⟨hb.registers, hc.registers⟩,
    List.forall_mem_append.2 ⟨hb.constants, hc.constants⟩, by simp [ha], by simp⟩

end Fits

lemma AssignTarget.Fits.protect {active extra : Nat} {bs : Bounds} {t : AssignTarget}
    (h : t.Fits active bs) (assigned : AssignTarget) (hx : extra < bs.stack) (hs : bs.stack ≤ 254) :
    (AssignTarget.protect extra assigned t).Fits active bs := by
  have he := Operand.fits_register hx hs
  unfold AssignTarget.protect
  split
  · exact ⟨by split <;> [exact hx; exact h.1], by split <;> [exact he; exact h.2]⟩
  · exact ⟨h.1, by split <;> [exact he; exact h.2]⟩
  · split
    · exact ⟨hx, h.2⟩
    · exact h
  · exact h

namespace Gen

open Generator Operand

variable {lax : Prop} {g g0 : Generator} {m r : Nat}

lemma meets_evaluate (values : List ExprCode) (hv : ∀ e ∈ values, e.Sound lax) :
    ∀ {g0 : Generator} {m r : Nat} (wanted : Nat), g.Reaches m .plain r g0 →
    Meets lax g0 (evaluate values wanted) fun _ g' => ∃ r',
      g.Reaches (if values = [] ∧ wanted = 0 then m else 255) .plain r' g' := by
  induction values with
  | nil =>
    intro g0 m r wanted h
    unfold evaluate
    split
    · next hw =>
      refine (meets_reserve h wanted).bind ?_
      rintro _ g1 ⟨rfl, h1⟩
      refine (meets_loadNil h1 hw .refl).mono ?_
      rintro - g2 ⟨h2, -⟩
      exact ⟨_, by rwa [if_neg (by omega)]⟩
    · next hw => exact meets_pure ⟨r, by rw [if_pos ⟨rfl, by omega⟩]; exact h⟩
  | cons e rest ih =>
    intro g0 m r wanted h
    have he := hv e (by simp)
    unfold evaluate
    split
    · next results hre =>
      refine (meets_reserve h (max wanted 1)).bind ?_
      rintro base g1 ⟨rfl, h1⟩
      have hd : ResultDest g.active.size (base + max wanted 1) base true
          (.exactly wanted) := ⟨rfl, h.active_le⟩
      refine (he.results results hre h1 hd).mono ?_
      rintro - g2 ⟨h2, -⟩
      exact ⟨_, by simpa [ResultCount.link] using h2⟩
    · refine (he.nextReg h).discard_bind ?_
      rintro - g1 ⟨-, h1⟩
      refine (ih (fun e' he' => hv e' (by simp [he'])) (wanted - 1) h1).mono ?_
      rintro - g2 ⟨r', h2⟩
      exact ⟨r', by simpa using h2⟩

lemma meets_assignValues (hv : ∀ e ∈ values, e.Sound lax) (h : g.Reaches m .plain r g0) (n : Nat) :
    Meets lax g0 (assignValues values n) fun base g' => base = r ∧
      g.Reaches (if values = [] ∧ n = 0 then m else 255) .plain (r + n) g' := by
  refine meets_read ?_
  rw [h.top]
  refine (meets_evaluate values hv n h).bind ?_
  rintro - g1 ⟨r', h1⟩
  have hle := h1.le_stack
  refine Meets.bind (P := fun _ g' =>
    g.Reaches (if values = [] ∧ n = 0 then m else 255) .plain (r + n) g') ?_
    fun _ g' h' => meets_pure ⟨rfl, h'⟩
  refine meets_read ?_
  rw [h1.top]
  split
  · next hlt =>
    refine (meets_reserve h1 (r + n - r')).discard ?_
    rintro - g2 ⟨-, h2⟩
    rwa [Nat.add_sub_cancel' (Nat.le_of_lt hlt)] at h2
  · have ha := h.active_le
    exact meets_setFirstFree h1 (by omega) (by omega)

lemma meets_nextRegs (values : List ExprCode) (hv : ∀ e ∈ values, e.Sound lax) :
    ∀ {g0 : Generator} {r : Nat}, g.Reaches m .plain r g0 →
    Meets lax g0 (nextRegs values) fun _ => g.Reaches m .plain (r + values.length) := by
  induction values with
  | nil => exact fun h => meets_pure h
  | cons e rest ih =>
    intro g0 r h
    refine ((hv e (by simp)).nextReg h).discard_bind ?_
    rintro - g1 ⟨-, h1⟩
    refine (ih (fun e' he' => hv e' (by simp [he'])) (h1.mono h.ready.level)).mono ?_
    intro _ g2 h2
    rwa [List.length_cons, Nat.add_comm rest.length, ← Nat.add_assoc]

lemma meets_reserve_emitted {i : Instruction} {g1 : Generator} (h : g.Reaches m .plain r g0)
    (he : g0.Emits i g1)
    (hf : ∀ s, r < s → g0.bounds.stack ≤ s → i.Fits { g0.bounds with stack := s })
    (hl : i.Follows g0.constants.size .plain) (hj : i.isJump = false)
    (ha : i.after = .plain) :
    Meets lax g1 (reserve 1) fun _ => g.Reaches 255 .plain (r + 1) := by
  obtain ⟨code, hp, rfl⟩ := he
  obtain rfl := h.top
  refine (meets_reserve_eq 1).mono ?_
  rintro _ _ ⟨-, s, rfl, hs, hn, hs'⟩
  replace hn : g0.firstFree + 1 ≤ s := hn
  have h1 : g.Reaches m .plain (g0.firstFree + 1) { g0 with toDraft :=
      { g0.toDraft with maxStackSize := s, firstFree := g0.firstFree + 1 } } :=
    h.modify (.inl rfl) (Nat.le_succ_of_le h.active_le) hn hs
      (Nat.le_trans hs' (Nat.max_le.mpr ⟨h.stack_le, .refl⟩)) h.pending .inl
  have h2 := h1.ready.emits (i := i) (hf s (by omega) hs) hl (by simp [hj]) ⟨code, hp, rfl⟩
  rw [ha] at h2
  exact h1.trans h2

lemma meets_protectTargets {earlier : List AssignTarget} {assigned : AssignTarget}
    (h : g.Reaches m .plain r g0)
    (he : ∀ t ∈ earlier, t.Fits g.active.size g0.bounds)
    (ha : assigned.Fits g.active.size g0.bounds) :
    Meets lax g0 (protectTargets earlier assigned) fun ts g' => ∃ r', r ≤ r' ∧
      g.Reaches m .plain r' g' ∧ ts.length = earlier.length ∧
      ∀ t ∈ ts, t.Fits g.active.size g'.bounds := by
  have hs := h.le_stack
  have hs' := h.stack_le
  -- The copy is written, and then its register is taken.
  have hc : ∀ {op : OpCode} {b : Nat}, op.mode = .abc → op.Takes b .plain →
      op.after b 0 = .plain → b ≤ 511 → (∀ s, r < s → g0.bounds.stack ≤ s →
        op.Fits { g0.bounds with stack := s } r b 0 0) →
      Meets lax g0 (do
        discard (emitABC op r b 0)
        discard (reserve 1)
        pure (earlier.map (AssignTarget.protect r assigned))) fun ts g' => ∃ r', r ≤ r' ∧
          g.Reaches m .plain r' g' ∧ ts.length = earlier.length ∧
          ∀ t ∈ ts, t.Fits g.active.size g'.bounds := by
    intro op b hm ht haf hb hf
    obtain ⟨i, hi, hx⟩ := Instruction.abc_eq_ok (a := r.toUInt8) hm hb (Nat.zero_le 511)
    rw [toNat_toUInt8 (by omega)] at hx
    refine (meets_emit hi fun pc hpc => (h.ready.settled pc hpc).isJump).discard_bind ?_
    rintro - g1 ⟨-, hem⟩
    have hre : ∀ {g' : Generator}, g'.Reaches m .plain r g0 →
        Meets lax g1 (reserve 1) fun _ g'' => g'.Reaches 255 .plain (r + 1) g'' := fun h' =>
      meets_reserve_emitted h' hem (fun s hr hle => hx.fits hm (hf s hr hle)) (hx.follows ht)
        (hx.isJump_eq hm) (hx.after_eq.trans haf)
    refine ((hre h).and (hre h.restart)).discard_bind ?_
    rintro - g2 ⟨h2, hw⟩
    have hle := h2.le_stack
    refine meets_pure ⟨r + 1, Nat.le_succ r, h2.mono h.ready.level, by simp, fun t ht => ?_⟩
    obtain ⟨t', ht', rfl⟩ := List.mem_map.mp ht
    exact ((he t' ht').mono hw.frame.bounds).protect assigned (by omega) h2.stack_le
  refine meets_read ?_
  rw [h.top]
  by_cases hch : earlier.map (AssignTarget.protect r assigned) = earlier
  · simp only [if_pos hch]
    exact meets_pure ⟨r, .refl, h, rfl, he⟩
  · simp only [if_neg hch]
    cases assigned with
    | «local» k =>
      have hk : k < g.active.size := ha
      have hac := h.active_le
      exact hc rfl rfl rfl (by omega) fun s hr hle =>
        fits_move (by simp) hr (show k < s by omega)
    | upvalue i =>
      have hi : i < g0.bounds.upvalues := ha
      have hma : g0.bounds.upvalues ≤ 255 := h.ready.sound.upvalues
      exact hc rfl rfl rfl (by omega) fun s hr hle => fits_getUpval hr hi
    | indexed table key =>
      have hid : AssignTarget.protect r (.indexed table key) = id := by
        funext t
        cases t <;> rfl
      exact absurd (by rw [hid, List.map_id]) hch
    | indexedUpvalue table key =>
      have hid : AssignTarget.protect r (.indexedUpvalue table key) = id := by
        funext t
        cases t <;> rfl
      exact absurd (by rw [hid, List.map_id]) hch

lemma meets_targets (es : List ExprCode) (ht : ∀ e ∈ es, e.TargetSound lax) :
    ∀ {g0 : Generator} {r : Nat} {done : List AssignTarget}, g.Reaches m .plain r g0 →
    (∀ t ∈ done, t.Fits g.active.size g0.bounds) →
    Meets lax g0 (targets es done) fun ts g' => ∃ r', r ≤ r' ∧ g.Reaches m .plain r' g' ∧
      ts.length = done.length + es.length ∧
      ∀ t ∈ ts, t.Fits g.active.size g'.bounds := by
  induction es with
  | nil => exact fun h hd => meets_pure ⟨_, .refl, h, rfl, hd⟩
  | cons e rest ih =>
    intro g0 r done h hd
    refine ((ht e (by simp) h).and (ht e (by simp) h.restart)).bind ?_
    rintro t g1 ⟨⟨r1, hr1, h1, hf⟩, _, _, hw, _⟩
    have hd1 := fun t' ht' => (hd t' ht').mono hw.frame.bounds
    refine ((meets_protectTargets h1 hd1 hf).and
      (meets_protectTargets h1.restart (by rw [h1.active]; exact hd1)
        (by rw [h1.active]; exact hf))).bind ?_
    rintro done' g2 ⟨⟨r2, hr2, h2, hl, hd2⟩, _, _, hw', _⟩
    have ha : ∀ t' ∈ t :: done', t'.Fits g.active.size g2.bounds := by
      intro t' ht'
      rcases List.mem_cons.mp ht' with rfl | ht'
      · exact hf.mono hw'.frame.bounds
      · exact hd2 t' ht'
    refine (ih (fun e' he' => ht e' (by simp [he'])) h2 ha).mono ?_
    rintro ts g3 ⟨r3, hr3, h3, hl', hfi⟩
    refine ⟨r3, by omega, h3, ?_, hfi⟩
    simp only [List.length_cons] at hl' ⊢
    omega

lemma meets_storeOperand {arg : Nat} (h : g.Reaches m .plain r g0)
    (ht : t.Fits g.active.size g0.bounds) (ha : Fits g0.bounds arg)
    (hr : (∀ table key, t ≠ .indexed table key ∧ t ≠ .indexedUpvalue table key) →
      arg < g0.bounds.stack) :
    Meets lax g0 (storeOperand t arg) fun _ g' => g.Reaches m .plain r g' ∧
      ((∀ k, t ≠ .local k) → 0 < g'.code.size) := by
  have hs := h.le_stack
  have hs' := h.stack_le
  have hac := h.active_le
  have hma : g0.bounds.upvalues ≤ 255 := h.ready.sound.upvalues
  have hw : ∀ (op : OpCode) {a b c : Nat}, op.mode = .abc → op.Takes b .plain →
      op.after b c = .plain → a < 256 → b ≤ 511 → c ≤ 511 → op.Fits g0.bounds a b c 0 →
      Meets lax g0 (discard (emitABC op a b c)) fun _ g' => g.Reaches m .plain r g' ∧
        0 < g'.code.size := by
    intro op a b c hm htakes haf ha hb hc hf
    refine (meets_emitABC op a b c h hm ha hb hc hf htakes).discard ?_
    rintro - g1 ⟨h1, -, i, -, he⟩
    rw [haf] at h1
    exact ⟨h1.mono h.ready.level, by simp [he.size]⟩
  cases t with
  | «local» k =>
    have hk : k < g.active.size := ht
    have har := hr (by simp)
    simp only [storeOperand]
    split
    · exact meets_pure ⟨h, fun hne => absurd rfl (hne k)⟩
    · exact (hw .move rfl rfl rfl (by omega) (by omega) (Nat.zero_le _)
        (fits_move (by simp) (by omega) har)).mono fun _ _ h' => ⟨h'.1, fun _ => h'.2⟩
  | upvalue i =>
    have hi : i < g0.bounds.upvalues := ht
    have har := hr (by simp)
    exact (hw .setUpval rfl rfl rfl (by omega) (by omega) (Nat.zero_le _)
      (fits_setUpval har hi)).mono fun _ _ h' => ⟨h'.1, fun _ => h'.2⟩
  | indexed table key =>
    have hta : table < g0.bounds.stack := ht.1
    exact (hw .setTable rfl rfl rfl (by omega) ht.2.le ha.le
      (fits_setTable hta ht.2 ha)).mono fun _ _ h' => ⟨h'.1, fun _ => h'.2⟩
  | indexedUpvalue table key =>
    have hta : table < g0.bounds.upvalues := ht.1
    exact (hw .setTabUp rfl rfl rfl (by omega) ht.2.le ha.le
      (fits_setTabUp hta ht.2 ha)).mono fun _ _ h' => ⟨h'.1, fun _ => h'.2⟩

lemma meets_store {e : ExprCode} (he : e.Sound lax) (h : g.Reaches m .plain r g0)
    (ht : t.Fits g.active.size g0.bounds) :
    Meets lax g0 (store t e) fun _ g' => g.Reaches m .plain r g' ∧
      ((∀ k, t ≠ .local k) → 0 < g'.code.size) := by
  unfold store
  split
  · next k =>
    have hd : Dest g.active.size r k false := ht
    exact (he.toReg h hd).mono fun _ _ h' => ⟨h', fun hn => absurd rfl (hn k)⟩
  · refine ((he.anyReg h).and (he.anyReg h.restart)).bind ?_
    rintro arg g1 ⟨⟨r', h1, hp, hlt⟩, _, hw, _⟩
    have hs := h1.le_stack
    refine (meets_storeOperand h1 (ht.mono hw.frame.bounds)
      (ExprCode.fits_of_lt h1 hlt) fun _ => by omega).bind ?_
    rintro - g2 ⟨h2, hc⟩
    exact (meets_lower h2 h.active_le hp.le fun hl => free_placed_eq hl hp hlt h.active_le).mono
      fun _ _ h3 => ⟨h3.1, by rw [h3.2.code]; exact hc⟩
  · next hl hu =>
    refine ((he.operand h).and (he.operand h.restart)).bind ?_
    rintro arg g1 ⟨⟨r', h1, hp, hf⟩, _, hw, _⟩
    refine (meets_storeOperand h1 (ht.mono hw.frame.bounds) hf fun hn => ?_).bind ?_
    · cases t with
      | «local» k => exact absurd rfl (hl k)
      | upvalue i => exact absurd rfl (hu i)
      | indexed table key => exact absurd rfl (hn table key).1
      | indexedUpvalue table key => exact absurd rfl (hn table key).2
    · rintro - g2 ⟨h2, hc⟩
      exact (meets_freeOperand h2 hp h.active_le).mono
        fun _ _ h3 => ⟨h3.1, by rw [h3.2.code]; exact hc⟩

lemma meets_storeDown (ts : List AssignTarget) :
    ∀ {g0 : Generator} {top : Nat}, g.Reaches m .plain r g0 →
    (∀ t ∈ ts, t.Fits g.active.size g0.bounds) → ts.length ≤ top →
    top ≤ g0.bounds.stack →
    Meets lax g0 (storeDown ts top) fun _ => g.Reaches m .plain r := by
  induction ts with
  | nil => exact fun h _ _ _ => meets_pure h
  | cons t rest ih =>
    intro g0 top h ht hl hto
    have hp : 0 < top := Nat.lt_of_lt_of_le (Nat.succ_pos _) hl
    have ha : top - 1 < g0.bounds.stack := by omega
    have hf := fits_register ha h.stack_le
    refine ((meets_storeOperand h (ht t (by simp)) hf fun _ => ha).and
      (meets_storeOperand h.restart (by rw [h.active]; exact ht t (by simp)) hf
        fun _ => ha)).bind ?_
    rintro - g1 ⟨⟨h1, -⟩, hw, -⟩
    have hb := hw.frame.bounds
    refine ih h1 (fun t' ht' => (ht t' (by simp [ht'])).mono hb) ?_ ?_
    · rw [List.length_cons] at hl
      omega
    · have := hb.stack
      omega

lemma meets_assignAll {ts : List AssignTarget} (hv : ∀ e ∈ values, e.Sound lax)
    (h : g.Reaches m .plain r g0) (ht : ∀ t ∈ ts, t.Fits g.active.size g0.bounds) : Meets lax g0 (do
      let base ← assignValues values ts.length
      storeDown ts (base + ts.length)) fun _ g' => ∃ r', g.Reaches m .plain r' g' := by
  refine ((meets_assignValues hv h ts.length).and
    (meets_assignValues hv h.restart ts.length)).bind ?_
  rintro base g1 ⟨⟨rfl, h1⟩, -, hw⟩
  have hl : m ≤ if values = [] ∧ ts.length = 0 then m else 255 := by
    have := h.ready.level
    split <;> omega
  refine (meets_storeDown ts (h1.mono hl)
    (fun t hm => (ht t hm).mono hw.frame.bounds) (Nat.le_add_left _ _)
    h1.le_stack).mono fun _ g2 h2 => ⟨_, h2⟩

lemma meets_assign {targets : List ExprCode} (start : Position)
    (ht : ∀ e ∈ targets, e.TargetSound lax) (hv : ∀ e ∈ values, e.Sound lax)
    (h : g.Reaches m .plain r g0) :
    Meets lax g0 (assign start targets values) fun _ g' => ∃ r', g.Reaches m .plain r' g' := by
  refine (meets_targets targets ht h (by simp)).bind ?_
  rintro ts g1 ⟨r1, -, h1, -, hf⟩
  refine ((meets_setPos h1 start).and (silent_setPos start)).bind ?_
  rintro - g2 ⟨h2, hs⟩
  replace hf := fun t ht' => (hf t ht').mono hs.bounds
  have ha := meets_assignAll hv h2 hf
  split
  · next last earlier value hla =>
    by_cases hl : values.length = (last :: earlier).length
    · simp only [if_pos hl]
      refine meets_read ?_
      rw [h2.top]
      have hd : ∀ e ∈ values.dropLast, e.Sound lax :=
        fun e hm => hv e (List.dropLast_subset values hm)
      refine ((meets_nextRegs values.dropLast hd h2).and
        (meets_nextRegs values.dropLast hd h2.restart)).bind ?_
      rintro - g3 ⟨h3, hw3⟩
      have hf3 := fun t ht' => (hf t ht').mono hw3.frame.bounds
      have hva := hv value (List.mem_of_getLast? hla)
      refine ((meets_store hva h3 (hf3 last (by simp))).and
        (meets_store hva h3.restart (by rw [h3.active]; exact hf3 last (by simp)))).bind ?_
      rintro - g4 ⟨⟨h4, -⟩, hw4, -⟩
      have hle := h4.le_stack
      simp only [List.length_cons] at hl ⊢
      rw [List.length_dropLast] at hle
      exact (meets_storeDown earlier h4 (fun t ht' =>
        (hf3 t (by simp [ht'])).mono hw4.frame.bounds) (by omega) (by omega)).mono
        fun _ _ h5 => ⟨_, h5⟩
    · simp only [if_neg hl]
      exact ha
  · exact ha

end Gen

end LuaBytecode
