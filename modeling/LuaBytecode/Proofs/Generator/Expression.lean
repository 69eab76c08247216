import LuaBytecode.Generator.Expression
import LuaBytecode.Proofs.Generator.Operand

namespace LuaBytecode

open OpCode

variable {pieces : List (Gen Unit)} {top dst : Nat}

section Fits

variable {bs : Bounds} {a b c : Nat} {op : OpCode}

lemma OpCode.fits_move (hop : op ∈ [move, .unm, .bnot, .not, .len]) (ha : a < bs.stack)
    (hb : b < bs.stack) : op.Fits bs a b c 0 := by
  simp only [List.mem_cons, List.not_mem_nil, or_false] at hop
  rcases hop with rfl | rfl | rfl | rfl | rfl <;> constructor <;> simp [ha, hb]

lemma OpCode.fits_concat (ha : a < bs.stack) (hc : c < bs.stack) :
    concat.Fits bs a b c 0 := by
  refine ⟨fun k hk => ?_, by simp, by simp, by simp⟩
  simp only [registers, List.mem_cons, List.mem_range'_1] at hk
  omega

def OpCode.arithmetic : List OpCode :=
  [.add, .sub, .mul, .mod, .pow, .div, .idiv, .band, .bor, .bxor, .shl, .shr]

lemma OpCode.fits_arithmetic (hop : op ∈ arithmetic) (ha : a < bs.stack)
    (hb : Operand.Fits bs b) (hc : Operand.Fits bs c) : op.Fits bs a b c 0 := by
  obtain ⟨hr, hk, hu, hf⟩ : op.registers a b c = a :: (Operand.registers b ++ Operand.registers c) ∧
      op.constants b c 0 = Operand.constants b ++ Operand.constants c ∧ op.upvalues a b = [] ∧
      op.closures 0 = [] := by
    revert hop
    cases op <;> simp [arithmetic]
  constructor
  · rw [hr]
    exact List.forall_mem_cons.2 ⟨ha, List.forall_mem_append.2 ⟨hb.registers, hc.registers⟩⟩
  · rw [hk]
    exact List.forall_mem_append.2 ⟨hb.constants, hc.constants⟩
  · rw [hu]; simp
  · rw [hf]; simp

lemma OpCode.fits_comparison (hop : op ∈ [eq, .lt, .le]) (hb : Operand.Fits bs b)
    (hc : Operand.Fits bs c) : op.Fits bs a b c 0 := by
  obtain ⟨hr, hk, hu, hf⟩ : op.registers a b c = Operand.registers b ++ Operand.registers c ∧
      op.constants b c 0 = Operand.constants b ++ Operand.constants c ∧ op.upvalues a b = [] ∧
      op.closures 0 = [] := by
    revert hop
    cases op <;> simp
  constructor
  · rw [hr]
    exact List.forall_mem_append.2 ⟨hb.registers, hc.registers⟩
  · rw [hk]
    exact List.forall_mem_append.2 ⟨hb.constants, hc.constants⟩
  · rw [hu]; simp
  · rw [hf]; simp

lemma OpCode.fits_getTable (ha : a < bs.stack) (hb : b < bs.stack) (hc : Operand.Fits bs c) :
    getTable.Fits bs a b c 0 :=
  ⟨by simpa [ha, hb] using hc.registers, hc.constants, by simp, by simp⟩

lemma OpCode.fits_getTabUp (ha : a < bs.stack) (hb : b < bs.upvalues) (hc : Operand.Fits bs c) :
    getTabUp.Fits bs a b c 0 :=
  ⟨by simpa [ha] using hc.registers, hc.constants, by simp [hb], by simp⟩

lemma OpCode.fits_self (ha : a + 1 < bs.stack) (hb : b < bs.stack) (hc : Operand.Fits bs c) :
    self.Fits bs a b c 0 :=
  ⟨by simpa [Nat.lt_of_succ_lt ha, ha, hb] using hc.registers, hc.constants, by simp, by simp⟩

lemma OpCode.fits_getUpval (ha : a < bs.stack) (hb : b < bs.upvalues) :
    getUpval.Fits bs a b c 0 := by
  constructor <;> simp [ha, hb]

end Fits

def AssignTarget.Fits (active : Nat) (bs : Bounds) : AssignTarget → Prop
  | .local r => r < active
  | .upvalue i => i < bs.upvalues
  | .indexed table key => table < bs.stack ∧ Operand.Fits bs key
  | .indexedUpvalue table key => table < bs.upvalues ∧ Operand.Fits bs key

lemma AssignTarget.Fits.mono {active : Nat} {bs bs' : Bounds} {t : AssignTarget}
    (h : t.Fits active bs) (hb : bs.Le bs') : t.Fits active bs' := by
  cases t with
  | «local» r => exact h
  | upvalue i => exact Nat.lt_of_lt_of_le h hb.upvalues
  | indexed table key => exact ⟨Nat.lt_of_lt_of_le h.1 hb.stack, h.2.mono hb⟩
  | indexedUpvalue table key => exact ⟨Nat.lt_of_lt_of_le h.1 hb.upvalues, h.2.mono hb⟩

def ExprCode.TargetSound (lax : Prop) (e : ExprCode) : Prop :=
  ∀ {g g0 : Generator} {m r : Nat}, g.Reaches m .plain r g0 →
    Gen.Meets lax g0 e.target fun t g' => ∃ r', r ≤ r' ∧ g.Reaches m .plain r' g' ∧
      t.Fits g.active.size g'.bounds

namespace Gen

open Operand

variable {lax : Prop} {g g0 : Generator} {m r : Nat}

lemma meets_getTable {table key r' : Nat} (h : g.Reaches m .plain r' g0) (hd : dst < r')
    (ht : table < g0.bounds.stack) (hk : Fits g0.bounds key) :
    Meets lax g0 (emitABC .getTable dst table key) fun _ => g.Reaches 255 .plain r' := by
  have hs := h.le_stack
  have hs' := h.stack_le
  exact (meets_emitABC .getTable dst table key h rfl (by omega) (by omega) hk.le
    (fits_getTable (by omega) ht hk) rfl).mono fun _ _ h => h.1

lemma meets_getTabUp {table key r' : Nat} (h : g.Reaches m .plain r' g0) (hd : dst < r')
    (ht : table < g0.upvalues.size) (hk : Fits g0.bounds key) :
    Meets lax g0 (emitABC .getTabUp dst table key) fun _ => g.Reaches 255 .plain r' := by
  have hs := h.le_stack
  have hs' := h.stack_le
  have hu := h.ready.sound.upvalues
  simp only [maxUpvalues] at hu
  exact (meets_emitABC .getTabUp dst table key h rfl (by omega) (by omega) hk.le
    (fits_getTabUp (by omega) ht hk) rfl).mono fun _ _ h => h.1

lemma meets_loadName {fresh : Bool} (name : Bytes) (h : g.Reaches m .plain r g0)
    (hd : Dest g.active.size r dst fresh) :
    Meets lax g0 (loadName name dst) fun _ =>
      g.Reaches (if fresh then 255 else m) .plain r := by
  have hm := ExprCode.level_le h fresh
  have hds := hd.lt h.active_le
  refine (meets_resolve h name).bind ?_
  rintro v g1 ⟨h1, hv⟩
  have hs := h1.le_stack
  have hs' := h1.stack_le
  cases v with
  | «local» k =>
    have hk : k < r := Nat.lt_of_lt_of_le hv h.active_le
    simp only
    split
    · next heq =>
      subst heq
      cases fresh with
      | true =>
        have hle : g.active.size ≤ k := hd.2
        have hlt : k < g.active.size := hv
        omega
      | false => exact meets_pure h1
    · exact (meets_emitABC .move dst k 0 h1 rfl (by omega) (by omega) (Nat.zero_le _)
        (fits_move (by simp) (by omega) (by omega)) rfl).discard
        fun _ _ h => h.1.mono hm
  | upvalue i =>
    have hi : i < g1.upvalues.size := hv
    have hu := h1.ready.sound.upvalues
    simp only [maxUpvalues] at hu
    exact (meets_emitABC .getUpval dst i 0 h1 rfl (by omega) (by omega) (Nat.zero_le _)
      (fits_getUpval (by omega) hi) rfl).discard fun _ _ h => h.1.mono hm
  | global =>
    refine (meets_resolveEnvironment h1).bind ?_
    rintro env g2 ⟨h2, he⟩
    refine ((meets_operandOfValue h2 (.string name)).and
      (meets_operandOfValue h2.ready.refl (.string name))).bind ?_
    rintro key g3 ⟨⟨r', h3, hp, hf⟩, _, h3', -⟩
    have hle := hp.le
    cases env with
    | «local» k =>
      have hk : k < r := Nat.lt_of_lt_of_le he h.active_le
      have hs3 := h3.le_stack
      refine (meets_getTable h3 (by omega) (Nat.lt_of_lt_of_le hk (by omega)) hf).discard_bind
        fun _ g4 h4 => ?_
      exact (meets_freeOperand h4 hp h.active_le).mono fun _ _ h => h.1.mono hm
    | upvalue i =>
      have hi : i < g3.upvalues.size := Nat.lt_of_lt_of_le he h3'.frame.bounds.upvalues
      refine (meets_getTabUp h3 (by omega) hi hf).discard_bind fun _ g4 h4 => ?_
      exact (meets_freeOperand h4 hp h.active_le).mono fun _ _ h => h.1.mono hm
    | global => exact absurd rfl he

lemma meets_nameTarget (name : Bytes) (h : g.Reaches m .plain r g0) :
    Meets lax g0 (nameTarget name) fun t g' => ∃ r', r ≤ r' ∧ g.Reaches m .plain r' g' ∧
      t.Fits g.active.size g'.bounds := by
  refine (meets_resolve h name).bind ?_
  rintro v g1 ⟨h1, hv⟩
  cases v with
  | «local» k => exact meets_pure ⟨r, .refl, h1, hv⟩
  | upvalue i => exact meets_pure ⟨r, .refl, h1, hv⟩
  | global =>
    refine (meets_resolveEnvironment h1).bind ?_
    rintro env g2 ⟨h2, he⟩
    refine ((meets_operandOfValue h2 (.string name)).and
      (meets_operandOfValue h2.ready.refl (.string name))).bind ?_
    rintro key g3 ⟨⟨r', h3, hp, hf⟩, _, h3', -⟩
    cases env with
    | «local» k =>
      have hk : k < r := Nat.lt_of_lt_of_le he h.active_le
      have hs := h3.le_stack
      have hle := hp.le
      exact meets_pure ⟨r', hle, h3, Nat.lt_of_lt_of_le hk (by omega), hf⟩
    | upvalue i =>
      exact meets_pure ⟨r', hp.le, h3, Nat.lt_of_lt_of_le he h3'.frame.bounds.upvalues, hf⟩
    | global => exact absurd rfl he

lemma meets_vararg {fresh : Bool} {n : ResultCount} (h : g.Reaches m .plain r g0)
    (hd : ResultDest g.active.size r dst fresh n) :
    Meets lax g0 (emitABC .vararg dst n.arg 0) fun _ => g.Reaches 255 n.link r := by
  have hs := h.le_stack
  have hs' := h.stack_le
  have hle : dst + max (n.arg - 1) 1 ≤ r := by
    have ha := h.active_le
    cases fresh with
    | true =>
      have hd : dst + n.slots = r := hd.1
      cases n <;> simp only [ResultCount.arg, ResultCount.slots] at hd ⊢ <;> omega
    | false =>
      obtain ⟨rfl, hlt⟩ := hd
      simp only [ResultCount.arg]
      omega
  have hf : OpCode.vararg.Fits g0.bounds dst n.arg 0 0 := by
    refine ⟨fun k hk => ?_, by simp, by simp,
      by simp⟩
    have hk' : dst ≤ k ∧ k < dst + max (n.arg - 1) 1 := by
      simp only [OpCode.registers] at hk
      split at hk
      · simp only [List.mem_singleton] at hk
        omega
      · rw [List.mem_range'_1] at hk
        omega
    omega
  have hl : OpCode.vararg.after n.arg 0 = n.link := by
    cases n <;> rfl
  refine (meets_emitABC .vararg dst n.arg 0 h rfl (by omega) (by omega) (Nat.zero_le _) hf
    rfl).mono fun _ _ h => ?_
  rw [hl] at h
  exact h.1

end Gen

namespace ExprCode

open Gen Operand

variable {lax : Prop} {start : Position}

lemma ofName_sound (id : Ident) : (ofName id).Sound lax where
  body _ := meets_loadName id.name
  branch := nofun
  results := nofun
  chain := nofun

lemma ofName_targetSound (id : Ident) : (ofName id).TargetSound lax := meets_nameTarget id.name

lemma ofLiteral_sound (start : Position) (value : Except CompileCause Value)
    (h : lax ∨ value.isOk = true) : (ofLiteral start value).Sound lax := by
  cases value with
  | ok v =>
    exact
      { body := nofun
        branch := nofun
        results := nofun
        chain := nofun }
  | error cause =>
    exact
      { body := fun _ _ _ _ _ _ _ _ _ => meets_fail fun _ => h.resolve_right nofun
        branch := nofun
        results := nofun
        chain := nofun }

lemma ofNumber_sound (start : Position) {raw : Bytes}
    (h : lax ∨ (parseNumeral? raw).isSome = true) : (ofNumber start raw).Sound lax := by
  let h := ofLiteral_sound start
    (((parseNumeral? raw).map Value.ofNumber).elim (.error (.malformedNumber raw)) .ok)
    (h.imp_right fun h => by
      obtain ⟨n, hn⟩ := Option.isSome_iff_exists.mp h
      rw [hn]
      rfl)
  exact ⟨h.body, h.branch, h.results, h.chain⟩

lemma ofString_sound (start : Position) {raw : Bytes} {long : Bool}
    (h : lax ∨ (stringValue raw long).isOk = true) : (ofString start raw long).Sound lax :=
  ofLiteral_sound start _ (h.imp_right fun h => by
    cases hv : stringValue raw long with
    | ok s => rfl
    | error e =>
      rw [hv] at h
      cases h)

lemma ofParen_sound {inner : ExprCode} (h : inner.Sound lax) : (ofParen start inner).Sound lax where
  body _ := h.toReg
  branch _ _ hb := by
    cases hb
    exact h.jumpIf
  results := nofun
  chain := nofun

lemma ofResults_sound {isCall : Bool}
    {results : (dst : Nat) → (fresh : Bool) → ResultCount → Gen Unit}
    (h : ∀ {g g0 : Generator} {m r dst : Nat} {fresh : Bool} {n : ResultCount},
      g.Reaches m .plain r g0 → ResultDest g.active.size r dst fresh n →
      Meets lax g0 (results dst fresh n) fun _ g' => g.Reaches 255 n.link r g' ∧
        (isCall = true → n = .all → g0.EndsInCall g'.toDraft)) :
    (ofResults start isCall results).Sound lax where
  body _ g g0 m r dst fresh hr hd := by
    have hd' : ResultDest g.active.size r dst fresh (.exactly 1) := by
      cases fresh with
      | true => exact hd
      | false => exact ⟨rfl, hd⟩
    exact (h hr hd').mono fun _ g' hg' => hg'.1.mono (level_le hr fresh)
  branch := nofun
  results _ hr := by
    cases hr
    exact h
  chain := nofun

lemma ofVararg_sound (start : Position) : (ofVararg start).Sound lax := by
  refine ofResults_sound fun {g g0 m r dst fresh n} h hd => ?_
  refine (meets_setPos h start).bind fun _ g1 h1 => meets_read ?_
  split
  · exact meets_fail_bind nofun
  · exact (meets_vararg h1 hd).discard fun _ _ h => ⟨h, fun hc => by cases hc⟩

lemma ofMember_sound {object key : ExprCode} (ho : object.Sound lax) (hk : key.Sound lax) :
    (ofMember start object key).Sound lax where
  body _ g g0 m r dst fresh h hd := by
    have hm := level_le h fresh
    have hds := hd.lt h.active_le
    refine (meets_upvalue? object h).bind ?_
    rintro o g1 ⟨h1, hi⟩
    cases o with
    | some i =>
      refine ((hk.operand h1).and (hk.operand h1.ready.refl)).bind ?_
      rintro arg g2 ⟨⟨r', h2, hp, hf⟩, _, h2', -⟩
      have hle := hp.le
      have hi2 := Nat.lt_of_lt_of_le (hi i rfl) h2'.frame.bounds.upvalues
      refine ((meets_setPos h2 start).and (meets_setPos h2.ready.refl start)).bind ?_
      rintro - g3 ⟨h3, h3'⟩
      have hb := h3'.frame.bounds
      refine (meets_getTabUp h3 (by omega) (Nat.lt_of_lt_of_le hi2 hb.upvalues)
        (hf.mono hb)).discard_bind fun _ g4 h4 => ?_
      exact (meets_freeOperand h4 hp h.active_le).mono fun _ _ h => h.1.mono hm
    | none =>
      refine (ho.operandReg h1 hd.fresh).bind ?_
      rintro table g2 ⟨r1, h2, hp1, hlt⟩
      refine (hk.operand h2).bind ?_
      rintro arg g3 ⟨r2, h3, hp2, hf⟩
      have hle1 := hp1.le
      have hle2 := hp2.le
      refine ((meets_setPos h3 start).and (meets_setPos h3.ready.refl start)).bind ?_
      rintro - g4 ⟨h4, h4'⟩
      have hs := h4.le_stack
      refine (meets_getTable h4 (by omega) (Nat.lt_of_lt_of_le hlt (by omega))
        (hf.mono h4'.frame.bounds)).discard_bind fun _ g5 h5 => ?_
      refine (meets_freeOperand h5 hp2 (Nat.le_trans h.active_le hle1)).bind ?_
      rintro - g6 ⟨h6, -⟩
      exact (meets_lower h6 h.active_le hle1 fun hl =>
        freeUnless_eq hl hp1 hlt hds h.active_le).mono fun _ _ h => h.1.mono hm
  branch := nofun
  results := nofun
  chain := nofun

lemma ofMember_targetSound {object key : ExprCode} (ho : object.Sound lax) (hk : key.Sound lax) :
    (ofMember start object key).TargetSound lax := by
  intro g g0 m r h
  refine (meets_upvalue? object h).bind ?_
  rintro o g1 ⟨h1, hi⟩
  cases o with
  | some i =>
    refine ((hk.operand h1).and (hk.operand h1.ready.refl)).bind ?_
    rintro arg g2 ⟨⟨r', h2, hp, hf⟩, _, h2', -⟩
    exact meets_pure ⟨r', hp.le, h2, Nat.lt_of_lt_of_le (hi i rfl) h2'.frame.bounds.upvalues, hf⟩
  | none =>
    refine (ho.anyReg h1).bind ?_
    rintro table g2 ⟨r1, h2, hp1, hlt⟩
    refine (hk.operand h2).bind ?_
    rintro arg g3 ⟨r2, h3, hp2, hf⟩
    have hle1 := hp1.le
    have hle2 := hp2.le
    have hs := h3.le_stack
    exact meets_pure ⟨r2, by omega, h3, Nat.lt_of_lt_of_le hlt (by omega), hf⟩

end ExprCode

lemma BinaryOp.arithmetic?_mem {op : BinaryOp} {code : OpCode} (h : op.arithmetic? = some code) :
    code ∈ arithmetic := by
  cases op <;> cases h <;> decide

namespace Folding

variable {op : OpCode}

lemma integer?_isSome (hop : op ∈ arithmetic ∨ op = .unm ∨ op = .bnot)
    (hd : op ≠ .div) (hp : op ≠ .pow) (a b : Int64) : ∃ i, integer? op a b = some i := by
  revert hop hd hp
  cases op <;> simp [arithmetic, integer?]

lemma float?_isSome (hop : op ∈ arithmetic ∨ op = .unm ∨ op = .bnot)
    (hint : op.isIntegral = false) (x y : Binary64) : ∃ z, float? op x y = some z := by
  revert hop hint
  cases op <;> simp [arithmetic, isIntegral, float?]

lemma numbers_isOk (hop : op ∈ arithmetic ∨ op = .unm ∨ op = .bnot) (v w : Value)
    (x y : Binary64) : ∃ o, numbers op v w x y = .ok o := by
  have hf : op.isIntegral = false → ∃ o, floatResult op x y = .ok o := by
    intro hint
    obtain ⟨z, hz⟩ := float?_isSome hop hint x y
    exact ⟨_, by rw [floatResult, hz]⟩
  have hin : op ≠ .div → op ≠ .pow → ∀ a b, ∃ o, integerResult op a b = .ok o := by
    intro hd hp a b
    obtain ⟨i, hi⟩ := integer?_isSome hop hd hp a b
    exact ⟨_, by rw [integerResult, hi]⟩
  unfold numbers
  cases hint : op.isIntegral with
  | true =>
    have hne : op ≠ .div ∧ op ≠ .pow := by
      constructor <;> rintro rfl <;> cases hint
    simp only [if_pos]
    split
    · exact hin hne.1 hne.2 _ _
    · exact ⟨none, rfl⟩
  | false =>
    simp only [Bool.false_eq_true, if_false]
    split
    · exact ⟨none, rfl⟩
    · split
      · exact hf hint
      · next hne =>
        simp only [Bool.or_eq_true, decide_eq_true_eq, not_or] at hne
        split
        · exact hin hne.1 hne.2 _ _
        · exact hf hint

end Folding

lemma fold_isOk {op : OpCode} (hop : op ∈ arithmetic ∨ op = .unm ∨ op = .bnot)
    (v w : Value) : ∃ o, fold op v w = .ok o := by
  simp only [fold]
  split
  · exact Folding.numbers_isOk hop _ _ _ _
  · exact ⟨none, rfl⟩

namespace Operand

def PairPlaced (kept : Option Nat) (active top b c top' : Nat) : Prop :=
  ∃ x y mid, Placed kept active top x mid ∧ Placed kept active mid y top' ∧
    ((b = x ∧ c = y) ∨ (b = y ∧ c = x))

lemma Placed.keep {active arg top' : Nat} {fresh : Bool}
    (h : Placed (keptReg dst fresh) active top arg top') :
    Placed (some dst) active top arg top' := by
  cases fresh with
  | true => exact h
  | false => exact ExprCode.Placed.weaken h

end Operand

namespace ExprCode

open Gen Operand

variable {lax : Prop} {g g0 : Generator} {m r : Nat} {fresh : Bool} {left right : ExprCode}
  {start : Position} {op : OpCode}

lemma ofFolded_sound {folded : Except FoldingFault (Option Value)}
    {code : Option Value → ExprCode} (hf : ∃ o, folded = .ok o) (h : ∀ o, (code o).Sound lax) :
    (ofFolded start folded code).Sound lax := by
  obtain ⟨o, rfl⟩ := hf
  exact h o

lemma foldedUnary_isOk (op : UnaryOp) (operand : ExprCode) :
    ∃ o, foldedUnary op operand = .ok o := by
  unfold foldedUnary
  split
  · exact fold_isOk (.inr (.inl rfl)) _ _
  · exact fold_isOk (.inr (.inr rfl)) _ _
  · exact ⟨none, rfl⟩

lemma foldedBinary_isOk (hop : op ∈ arithmetic) (left right : ExprCode) :
    ∃ o, foldedBinary op left right = .ok o := by
  unfold foldedBinary
  split
  · exact fold_isOk (.inl hop) _ _
  · exact ⟨none, rfl⟩

lemma ofUnary_sound {op : UnaryOp} {operand : ExprCode} (ho : operand.Sound lax) :
    (ofUnary start op operand).Sound lax := by
  have hc : op.opCode ∈ [OpCode.move, .unm, .bnot, .not, .len] ∧ op.opCode.mode = .abc ∧
      (∀ b, op.opCode.before b = .plain) ∧ ∀ b c, op.opCode.after b c = .plain := by
    cases op <;> exact ⟨by decide, rfl, fun _ => rfl, fun _ _ => rfl⟩
  obtain ⟨hme, hmo, hbe, ha⟩ := hc
  refine ofFolded_sound (foldedUnary_isOk op operand) fun numeral => ?_
  exact
    { body := fun _ g g0 m r dst fresh h hd => by
        have hm := level_le h fresh
        have hds := hd.lt h.active_le
        refine (ho.operandReg h hd.fresh).bind ?_
        rintro arg g1 ⟨r', h1, hp, hlt⟩
        have hle := hp.le
        refine (meets_setPos h1 start).bind fun _ g2 h2 => ?_
        have hs := h2.le_stack
        have hs' := h2.stack_le
        refine (meets_emitABC op.opCode dst arg 0 h2 hmo (by omega) (by omega) (Nat.zero_le _)
          (fits_move hme (by omega) (by omega)) (hbe arg)).discard_bind ?_
        rintro - g3 ⟨h3, -⟩
        rw [ha] at h3
        exact (meets_lower h3 h.active_le hle fun hl =>
          freeUnless_eq hl hp hlt hds h.active_le).mono fun _ _ h => h.1.mono hm
      branch := fun _ branch hb => by
        split at hb
        · cases hb
          intro g g0 m r wanted h
          exact ho.jumpIf _ h
        · cases hb
      results := nofun
      chain := nofun }

lemma meets_arithmeticOperands (hl : left.Sound lax) (hr : right.Sound lax)
    (h : g.Reaches m .plain r g0) (hd : Dest g.active.size r dst fresh) :
    Meets lax g0 (arithmeticOperands left right dst fresh) fun args g' => ∃ r',
      g.Reaches m .plain r' g' ∧ Fits g'.bounds args.1 ∧ Fits g'.bounds args.2 ∧
      PairPlaced (some dst) g.active.size r args.1 args.2 r' := by
  unfold arithmeticOperands
  split
  · refine (hr.operand h).bind ?_
    rintro c g1 ⟨r1, h1, hp1, hf1⟩
    refine ((hl.operand h1).and (hl.operand h1.ready.refl)).bind ?_
    rintro b g2 ⟨⟨r2, h2, hp2, hf2⟩, _, h2', -⟩
    exact meets_pure ⟨r2, h2, hf2, hf1.mono h2'.frame.bounds,
      c, b, r1, Placed.weaken hp1, Placed.weaken hp2, .inr ⟨rfl, rfl⟩⟩
  · refine (hl.leftOperand h hd.fresh).bind ?_
    rintro b g1 ⟨r1, h1, hp1, hf1⟩
    refine ((hr.operand h1).and (hr.operand h1.ready.refl)).bind ?_
    rintro c g2 ⟨⟨r2, h2, hp2, hf2⟩, _, h2', -⟩
    exact meets_pure ⟨r2, h2, hf1.mono h2'.frame.bounds, hf2,
      b, c, r1, hp1.keep, Placed.weaken hp2, .inl ⟨rfl, rfl⟩⟩

lemma ofArithmetic_sound (hop : op ∈ arithmetic) (hl : left.Sound lax) (hr : right.Sound lax) :
    (ofArithmetic start op left right).Sound lax := by
  have hco : op.mode = .abc ∧ (∀ b, op.before b = .plain) ∧ ∀ b c, op.after b c = .plain := by
    revert hop
    cases op <;> simp [arithmetic, before, after] <;> rfl
  obtain ⟨hm, hbe, ha⟩ := hco
  refine ofFolded_sound (foldedBinary_isOk hop left right) fun numeral => ?_
  exact
    { body := fun _ g g0 m r dst fresh h hd => by
        have hds := hd.lt h.active_le
        refine (meets_arithmeticOperands hl hr h hd).bind ?_
        rintro ⟨b, c⟩ g1 ⟨r', h1, hb, hc, x, y, mid, hx, hy, hbc⟩
        have hle := hx.le
        have hle' := hy.le
        refine ((meets_setPos h1 start).and (silent_setPos start)).bind ?_
        rintro - g2 ⟨h2, hs2⟩
        have hs := h2.le_stack
        have hs' := h2.stack_le
        refine (meets_emitABC op dst b c h2 hm (by omega) hb.le hc.le
          (fits_arithmetic hop (by omega) (hb.mono hs2.bounds) (hc.mono hs2.bounds))
          (hbe b)).discard_bind ?_
        rintro - g3 ⟨h3, -⟩
        rw [ha] at h3
        refine (meets_freeOperands h3 hx hy hbc ?_ h.active_le).mono fun _ _ h' =>
          h'.1.mono (level_le h fresh)
        rintro _ ⟨⟩
        exact hds
      branch := fun _ _ hb => by cases hb
      results := fun _ hr => by cases hr
      chain := fun _ hp => by cases hp }

lemma comparison_mem (op : BinaryOp) : (comparison op).1 ∈ [eq, .lt, .le] := by
  cases op <;> decide

lemma meets_comparisonOperands (op : BinaryOp) (hl : left.Sound lax) (hr : right.Sound lax)
    (h : g.Reaches m .plain r g0)
    (hd : fresh = true → dst + 1 = r ∧ g.active.size ≤ dst) :
    Meets lax g0 (comparisonOperands op left right dst fresh) fun args g' => ∃ r',
      g.Reaches m .plain r' g' ∧ Fits g'.bounds args.1 ∧ Fits g'.bounds args.2 ∧
      PairPlaced (keptReg dst fresh) g.active.size r args.1 args.2 r' := by
  refine (hl.leftOperand h hd).bind ?_
  rintro b g1 ⟨r1, h1, hp1, hf1⟩
  refine ((hr.operand h1).and (hr.operand h1.ready.refl)).bind ?_
  rintro c g2 ⟨⟨r2, h2, hp2, hf2⟩, _, h2', -⟩
  have hf1' := hf1.mono h2'.frame.bounds
  split
  · exact ⟨r2, h2, hf2, hf1', b, c, r1, hp1, Placed.weaken hp2, .inr ⟨rfl, rfl⟩⟩
  · exact ⟨r2, h2, hf1', hf2, b, c, r1, hp1, Placed.weaken hp2, .inl ⟨rfl, rfl⟩⟩

lemma meets_compare (hop : op ∈ [eq, .lt, .le]) (flag : Bool) {b c : Nat}
    (h : g.Reaches m .plain r g0) (hb : Fits g0.bounds b) (hc : Fits g0.bounds c) :
    Meets lax g0 (emitABC op flag.toNat b c) fun _ => g.Reaches 255 .jump r := by
  have hco : op.mode = .abc ∧ op.before b = .plain ∧ op.after b c = .jump := by
    revert hop
    cases op <;> simp [before, after] <;> rfl
  obtain ⟨hm, hbe, ha⟩ := hco
  refine (meets_emitABC op flag.toNat b c h hm (by cases flag <;> decide) hb.le hc.le
    (fits_comparison hop hb hc) hbe).mono fun _ _ h => ?_
  rw [ha] at h
  exact h.1

lemma meets_loadBool {l : Link} (value skip : Bool) (h : g.Reaches m l r g0) (hds : dst < r)
    (hl : l = .plain ∨ l = .bool) :
    Meets lax g0 (emitABC .loadBool dst value.toNat skip.toNat) fun _ =>
      g.Reaches 255 (if skip then .bool else .plain) r := by
  have hs := h.le_stack
  have hs' := h.stack_le
  refine (meets_emitABC .loadBool dst value.toNat skip.toNat h rfl (by omega)
    (by cases value <;> decide) (by cases skip <;> decide) ?_ ?_).mono fun _ _ h => ?_
  · have hd : dst < g0.bounds.stack := by omega
    constructor <;> simp [hd]
  · rcases hl with rfl | rfl <;> rfl
  · cases skip <;> exact h.1

lemma ofComparison_sound {op : BinaryOp} (hl : left.Sound lax) (hr : right.Sound lax) :
    (ofComparison start op left right).Sound lax where
  body _ g g0 m r dst fresh h hd := by
    have hds := hd.lt h.active_le
    refine (meets_comparisonOperands op hl hr h hd.fresh).bind ?_
    rintro ⟨b, c⟩ g1 ⟨r', h1, hb, hc, x, y, mid, hx, hy, hbc⟩
    refine ((meets_setPos h1 start).and (silent_setPos start)).bind ?_
    rintro - g2 ⟨h2, hs2⟩
    refine (meets_freeOperands h2 hx.keep hy.keep hbc ?_ h.active_le).bind ?_
    · rintro _ ⟨⟩
      exact hds
    rintro - g3 ⟨h3, hs3⟩
    have hbo := hs2.bounds.trans hs3.bounds
    refine (meets_compare (comparison_mem op) _ h3 (hb.mono hbo)
      (hc.mono hbo)).discard_bind fun _ g4 h4 => ?_
    refine (meets_jump h4 (.inr rfl)).bind ?_
    rintro js g5 ⟨h5, hj⟩
    refine ((meets_label h5).and (meets_label h5.ready.refl)).discard_bind ?_
    rintro - g6 ⟨⟨h6, -⟩, h6', -⟩
    refine ((meets_loadBool false true h6 hds (.inl rfl)).and
      (meets_loadBool false true h6.ready.refl (by rw [h6.top]; exact hds)
        (.inl rfl))).discard_bind ?_
    rintro - g7 ⟨h7, h7'⟩
    refine ((meets_label h7).and (meets_label h7.ready.refl)).bind ?_
    rintro k g8 ⟨⟨h8, rfl, hco⟩, h8', -⟩
    have hj8 := ((hj.frame h6'.frame .refl).frame h7'.frame .refl).frame h8'.frame .refl
    refine (meets_patchTo h8 hj8 (Nat.le_of_eq (by rw [hco]))).bind fun _ g9 h9 => ?_
    refine (meets_loadBool true false h9 hds (.inr rfl)).discard_bind fun _ g10 h10 => ?_
    exact (meets_label h10).discard fun _ _ h' => h'.1.mono (level_le h fresh)
  branch _ branch hb := by
    cases hb
    intro g g0 m r wanted h
    refine (meets_comparisonOperands op hl hr h (fun hf => by cases hf)).bind ?_
    rintro ⟨b, c⟩ g1 ⟨r', h1, hb, hc, x, y, mid, hx, hy, hbc⟩
    refine ((meets_setPos h1 start).and (silent_setPos start)).bind ?_
    rintro - g2 ⟨h2, hs2⟩
    refine (meets_freeOperands h2 hx hy hbc (fun _ hf => by cases hf) h.active_le).bind ?_
    rintro - g3 ⟨h3, hs3⟩
    have hbo := hs2.bounds.trans hs3.bounds
    refine (meets_compare (comparison_mem op) _ h3 (hb.mono hbo)
      (hc.mono hbo)).discard_bind fun _ g4 h4 => ?_
    refine (meets_jump h4 (.inr rfl)).mono ?_
    rintro js g5 ⟨h5, hj⟩
    exact ⟨h5.mono h.ready.level, hj.mono h.ready.level⟩
  results := nofun
  chain := nofun

lemma meets_decide {arg r' : Nat} (isOr : Bool) (h : g.Reaches m .plain r' g0)
    (hp : Placed (keptReg dst fresh) g.active.size r arg r') (hlt : arg < r')
    (hds : dst < r) (hr : g.active.size ≤ r) {k : Unit → Gen Unit}
    {Q : Unit → Generator → Prop}
    (hk : ∀ g', g.Reaches 255 .jump r g' → Meets lax g' (k ()) Q) :
    Meets lax g0 (if arg = dst then (do discard <| emitABC .test dst 0 isOr.toNat; k ())
      else (do free arg; discard <| emitABC .testSet dst arg isOr.toNat; k ())) Q := by
  have hs := h.le_stack
  have hs' := h.stack_le
  have hf : isOr.toNat ≤ 511 := by cases isOr <;> decide
  split
  · next heq =>
    subst heq
    cases hp.top_eq hds
    have hd : arg < g0.bounds.stack := by omega
    refine (meets_emitABC .test arg 0 isOr.toNat h rfl (by omega) (Nat.zero_le _) hf ?_
      rfl).discard_bind fun _ g1 h1 => hk g1 h1.1
    constructor <;>
      simp [hd]
  · next hne =>
    have hle := hp.le
    refine (meets_lower h hr hle fun hl => free_placed_eq hl (hp.of_ne hne) hlt hr).bind ?_
    rintro - g1 ⟨h1, hs1⟩
    have hst := hs1.bounds.stack
    refine (meets_emitABC .testSet dst arg isOr.toNat h1 rfl (by omega) (by omega) hf ?_
      rfl).discard_bind fun _ g2 h2 => hk g2 h2.1
    have hd : dst < g1.bounds.stack := by omega
    have ha : arg < g1.bounds.stack := by omega
    constructor <;>
      simp [hd, ha]

lemma ofLogical_sound {isOr : Bool} (hl : left.Sound lax) (hr : right.Sound lax) :
    (ofLogical start isOr left right).Sound lax where
  body _ g g0 m r dst fresh h hd := by
    have hds := hd.lt h.active_le
    refine (hl.operandReg h hd.fresh).bind ?_
    rintro arg g1 ⟨r', h1, hp, hlt⟩
    refine (meets_setPos h1 start).bind fun _ g2 h2 => ?_
    refine meets_decide (k := fun _ => do let done ← jump; right.toReg dst fresh; patchToHere done)
      isOr h2 hp hlt hds h.active_le fun g3 h3 => ?_
    refine (meets_jump h3 (.inr rfl)).bind ?_
    rintro js g4 ⟨h4, hj⟩
    have hd4 : Dest g4.active.size g4.firstFree dst fresh := by
      rw [h4.active, h4.top]
      exact hd
    refine ((hr.toReg h4 hd).and (hr.toReg h4.ready.refl hd4)).bind ?_
    rintro - g5 ⟨h5, h5'⟩
    have h5 : g.Reaches 255 .plain r g5 := h5.mono (by cases fresh <;> exact .refl)
    refine (meets_patchToHere h5 (hj.frame h5'.frame .refl)).mono ?_
    exact fun _ _ h' => h'.mono (level_le h fresh)
  branch _ branch hb := by
    cases hb
    intro g g0 m r wanted h
    by_cases heq : isOr = wanted
    · simp only [heq, if_pos]
      refine (hl.jumpIf wanted h).bind ?_
      rintro first g1 ⟨h1, hj1⟩
      refine ((hr.jumpIf wanted h1).and (hr.jumpIf wanted h1.ready.refl)).bind ?_
      rintro second g2 ⟨⟨h2, hj2⟩, h2', -⟩
      exact meets_pure ⟨h2, (hj1.frame h2'.frame h.ready.level).append hj2⟩
    · simp only [heq, if_false]
      refine (hl.jumpIf (!wanted) h).bind ?_
      rintro skip g1 ⟨h1, hj1⟩
      refine ((hr.jumpIf wanted h1).and (hr.jumpIf wanted h1.ready.refl)).bind ?_
      rintro js g2 ⟨⟨h2, hj2⟩, h2', hj2'⟩
      have hs := hj1.frame h2'.frame h.ready.level
      refine ((meets_patchToHere h2 hs).and meets_patchToHere_eq).bind ?_
      rintro - g3 ⟨h3, rfl⟩
      exact meets_pure ⟨h3, hj2.patchToHere (hj1.disjoint hj2')⟩
  results := nofun
  chain := nofun

lemma meets_forM (hp : ∀ piece ∈ pieces, FillsNext lax piece) (h : g.Reaches m .plain r g0) :
    Meets lax g0 (pieces.forM id) fun _ => g.Reaches m .plain (r + pieces.length) := by
  induction pieces generalizing g0 r with
  | nil => exact meets_pure h
  | cons piece rest ih =>
    refine (hp piece (by simp) h).bind fun _ g1 h1 => ?_
    refine (ih (fun p hm => hp p (by simp [hm])) (h1.mono h.ready.level)).mono ?_
    intro _ g2 h2
    rw [List.length_cons, show r + (rest.length + 1) = r + 1 + rest.length by omega]
    exact h2

lemma meets_concatAt (hp : ∀ piece ∈ pieces, FillsNext lax piece) (h : g.Reaches m .plain r g0)
    (hl : 0 < pieces.length) (hd : dst < r + pieces.length) (ha : g.active.size ≤ top)
    (ht : top ≤ r + pieces.length) : Meets lax g0 (do
      pieces.forM id
      setPos start
      discard <| emitABC .concat dst r (r + pieces.length - 1)
      setFirstFree top) fun _ => g.Reaches 255 .plain top := by
  refine (meets_forM hp h).bind fun _ g1 h1 => ?_
  refine (meets_setPos h1 start).bind fun _ g2 h2 => ?_
  have hs := h2.le_stack
  have hs' := h2.stack_le
  refine ((meets_emitABC .concat dst r (r + pieces.length - 1) h2 rfl (by omega) (by omega)
    (by omega) (fits_concat (by omega) (by omega)) rfl)).discard_bind ?_
  rintro - g3 ⟨h3, -⟩
  have hs3 := h3.le_stack
  exact meets_setFirstFree h3 ha (by omega)

lemma ofConcat_sound (hl : left.Sound lax) (hr : right.Sound lax) :
    (ofConcat start left right).Sound lax := by
  have hc : ∀ piece ∈ (discard left.nextReg :: right.operands : List (Gen Unit)),
      FillsNext lax piece := by
    intro piece hm g g0 m r h
    rcases List.mem_cons.mp hm with rfl | hm
    · exact (hl.nextReg h).discard fun _ _ h => h.2
    · exact hr.operands piece hm h
  exact
    { body := fun _ g g0 m r dst fresh h hd => by
        refine meets_read ?_
        rw [h.top]
        cases fresh with
        | true =>
          obtain ⟨rfl, ha⟩ := hd.fresh rfl
          have hs := h.le_stack
          simp only [Bool.true_and, decide_true, if_pos]
          refine (meets_setFirstFree h ha (by omega)).bind fun _ g1 h1 => meets_read ?_
          rw [h1.top]
          exact meets_concatAt hc h1 (by simp) (by simp) (by omega) (by simp)
        | false =>
          have hds := hd.lt h.active_le
          refine meets_read ?_
          rw [h.top]
          exact (meets_concatAt hc h (by simp) (by simp; omega) h.active_le (by simp)).mono
            fun _ _ h' => h'.mono (level_le h false)
      branch := nofun
      results := nofun
      chain := hc }

lemma ofBinary_sound {op : BinaryOp} (hl : left.Sound lax) (hr : right.Sound lax) :
    (ofBinary start op left right).Sound lax := by
  unfold ofBinary
  split
  · exact ofLogical_sound hl hr
  · exact ofLogical_sound hl hr
  · exact ofConcat_sound hl hr
  · split
    · next hop => exact ofArithmetic_sound (BinaryOp.arithmetic?_mem hop) hl hr
    · exact ofComparison_sound hl hr

end ExprCode

end LuaBytecode
