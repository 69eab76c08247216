import LuaBytecode.Proofs.Grammar.Derived
import LuaBytecode.Proofs.Placement.Tree

namespace LuaBytecode

open Token

variable {t : Token} {r : Expr × TokenStream} {ts rest : List Token} {e : Expr}

namespace Expr

def leftPowers : Expr → List Nat
  | .binary _ op left _ => op.powers.1 :: left.leftPowers
  | _ => []

def rightPowers : Expr → List Nat
  | .unary _ _ operand => UnaryOp.power :: operand.rightPowers
  | .binary _ op _ right => op.powers.2 :: right.rightPowers
  | _ => []

/-- No operator on the right edge of a left operand binds the operator behind it, and the operators
on the left edge of a right operand bind tighter than the one before it. -/
def Canonical : Expr → Prop
  | .unary _ _ operand => (∀ p ∈ operand.leftPowers, UnaryOp.power < p) ∧ operand.Canonical
  | .binary _ op left right =>
    (∀ p ∈ left.rightPowers, op.powers.1 ≤ p) ∧ (∀ p ∈ right.leftPowers, op.powers.2 < p) ∧
      left.Canonical ∧ right.Canonical
  | .paren _ inner => inner.Canonical
  | _ => True

def isOperand : Expr → Bool
  | .unary .. | .binary .. | .paren .. => false
  | _ => true

/-- The tokens of a tree of operators and parentheses, with so many levels of nesting left, over
operands with given tokens. -/
inductive Prints (operand : (depth : Nat) → Expr → List Token → Prop) :
    (depth : Nat) → Expr → List Token → Prop
  | operand {depth e ts} : e.isOperand = true → operand depth e ts → Prints operand depth e ts
  | paren {depth span inner left ts right} : left.Spells "(" → Prints operand depth inner ts →
      right.Spells ")" → Prints operand (depth + 1) (.paren span inner) (left :: (ts ++ [right]))
  | unary {depth span op e t ts} : t.Operates UnaryOp.ofText? op → Prints operand depth e ts →
      Prints operand (depth + 1) (.unary span op e) (t :: ts)
  | binary {depth span op left right ts t ts'} : Prints operand (depth + 1) left ts →
      t.Operates BinaryOp.ofText? op → Prints operand depth right ts' →
      Prints operand (depth + 1) (.binary span op left right) (ts ++ t :: ts')

lemma leftPowers_pos (e : Expr) : ∀ p ∈ e.leftPowers, 0 < p := by
  fun_induction leftPowers e with
  | case1 _ op left _ ih =>
    rintro p (_ | ⟨_, hp⟩)
    · cases op <;> decide
    · exact ih p hp
  | case2 => simp

lemma edges_of_isOperand (h : e.isOperand = true) :
    e.leftPowers = [] ∧ e.rightPowers = [] ∧ e.Canonical := by
  cases e <;> simp_all [isOperand, leftPowers, rightPowers, Canonical]

end Expr

def suffixSigns : List Bytes := [".", "[", ":", "(", "\x7b"].map .ofString

def Token.atom? (t : Token) : Option Expr :=
  match t.kind with
  | .number => some (.number t.span t.value)
  | .string => some (.string t.span t.value t.long)
  | .nil => some (.nil t.span)
  | .boolean => some (.bool t.span (t.value == "true"))
  | .name => some (.ident ⟨t.span, t.value⟩)
  | _ => if t.is "..." then some (.vararg t.span) else none

def Token.startsSuffix (t : Token) : Bool := suffixSigns.any t.is || t.kind = .string

def Token.continuesExpr (t : Token) : Bool :=
  t.startsSuffix || (Parser.operator? BinaryOp.ofText? t).isSome

lemma Token.startsSuffix_eq_false (hk : t.kind ≠ .string) (hv : t.value ∉ suffixSigns) :
    t.startsSuffix = false := by
  have hs : ∀ text ∈ suffixSigns, t.is text = false := by
    intro text ht
    have hne : t.value ≠ text := fun heq => hv (heq ▸ ht)
    simp [is, hne]
  simpa [startsSuffix, hk] using hs

namespace Parser

def Ends {α : Type} (s : TokenStream) (p : Parser α) (R : α → TokenStream → Prop) : Prop :=
  ∀ a s', p s = .ok (a, s') → R a s'

variable {α β : Type} {s s' : TokenStream} {lv : Level} {k loops depth limit : Nat}
  {R : β → TokenStream → Prop} {f : α → Parser β} {p : Parser α}

lemma ends_pure {a : α} {R : α → TokenStream → Prop} (h : R a s) : Ends s (pure a) R := by
  intro a' s' heq
  cases heq
  exact h

lemma ends_unexpected {R : α → TokenStream → Prop} {expected : Expected} :
    Ends s (unexpected expected) R := by
  rintro _ _ ⟨⟩

lemma Ends.bind {P : α → TokenStream → Prop} (hp : Ends s p P)
    (hf : ∀ a s', P a s' → Ends s' (f a) R) : Ends s (p >>= f) R := by
  intro b s'' heq
  cases hps : p s with
  | error e => simp [Bind.bind, StateT.bind, Except.bind, hps] at heq
  | ok r =>
    obtain ⟨a, s'⟩ := r
    refine hf a s' (hp a s' hps) b s'' ?_
    simpa [Bind.bind, StateT.bind, Except.bind, hps] using heq

lemma ends_current {f : Token → Parser β} (h : Ends s (f s.current) R) :
    Ends s (current >>= f) R := h

lemma ends_advance {f : Unit → Parser β} (h : Ends s.advance (f ()) R) :
    Ends s (advance >>= f) R := h

lemma ends_spanFrom {start : Position} {f : Span → Parser β} (h : ∀ span, Ends s
    (f span) R) : Ends s (spanFrom start >>= f) R := h _

lemma Ends.skip (h : ∀ a s', Ends s' (f a) R) : Ends s (p >>= f) R :=
  .bind (P := fun _ _ => True) (fun _ _ _ => trivial) fun a s' _ => h a s'

def Stops (limit : Nat) (t : Token) : Prop :=
  ∀ op, operator? BinaryOp.ofText? t = some op → op.powers.1 ≤ limit

structure Parsed (loops depth limit : Nat) (s : TokenStream) (e : Expr) (s' : TokenStream) :
    Prop where
  prints : ∃ ts, s.tokens = ts ++ s'.tokens ∧ e.Prints (fun _ => Expr.Derives) depth ts
  ready : s'.Ready loops
  canonical : e.Canonical
  left : ∀ p ∈ e.leftPowers, limit < p
  right : ∀ p ∈ e.rightPowers, Stops p s'.current

def Level.Canonizes (depth : Nat) (lv : Level) : Prop :=
  ∀ limit s, s.Ready lv.loops → Ends s (lv.expr limit) fun e s' =>
    ∃ d, depth = d + 1 ∧ Parsed lv.loops d limit s e s' ∧ Stops limit s'.current

lemma Parsed.operand {ts : List Token} (he : e.isOperand = true) (hs : s'.Ready loops)
    (ht : s.tokens = ts ++ s'.tokens) (hts : e.Derives ts) :
    Parsed loops depth limit s e s' := by
  obtain ⟨hl, hr, hc⟩ := Expr.edges_of_isOperand he
  exact ⟨⟨ts, ht, .operand he hts⟩, hs, hc, by simp [hl], by simp [hr]⟩

lemma ends_suffixesFrom (start : Position) (n : Nat) (s : TokenStream) (e : Expr) :
    Ends s (suffixesFrom lv start n e) fun e' s' =>
      e'.isOperand = true ∨ e' = e ∧ s' = s := by
  induction n generalizing s e with
  | zero => exact ends_pure (.inr ⟨rfl, rfl⟩)
  | succ n ih =>
    have hs : ∀ s1 (e₁ : Expr), e₁.isOperand = true →
        Ends s1 (suffixesFrom lv start n e₁) fun e' s' =>
          e'.isOperand = true ∨ e' = e ∧ s' = s := by
      intro s1 e₁ he1 e' s' heq
      rcases ih s1 e₁ e' s' heq with he' | ⟨rfl, -⟩
      · exact .inl he'
      · exact .inl he1
    refine ends_current ?_
    split
    · exact .skip fun _ _ => .skip fun _ s1 => hs s1 _ rfl
    · split
      · exact .skip fun _ _ => .skip fun _ _ => .skip fun _ _ => .skip fun _ s1 =>
          hs s1 _ rfl
      · split
        · exact .skip fun _ _ => .skip fun _ _ => .skip fun _ _ => .skip fun _ s1 =>
            hs s1 _ rfl
        · split
          · exact .skip fun _ _ => .skip fun _ s1 => hs s1 _ rfl
          · exact ends_pure (.inr ⟨rfl, rfl⟩)

lemma ends_suffixed (lv : Level) (s : TokenStream) :
    Ends s (suffixed lv) fun e s' => e.isOperand = true ∨ primary lv s = .ok (e, s') := by
  have hp : Ends s (primary lv) fun e s' => primary lv s = .ok (e, s') := fun _ _ h => h
  refine hp.bind fun e s1 he e' s' heq => ?_
  rcases ends_suffixesFrom _ _ s1 e e' s' heq with he' | ⟨rfl, rfl⟩
  · exact .inl he'
  · exact .inr he

lemma ends_simple (lv : Level) (s : TokenStream) :
    Ends s (simple lv) fun e s' => e.isOperand = true ∨ primary lv s = .ok (e, s') := by
  refine ends_current ?_
  split
  iterate 4
    · exact .skip fun _ _ => ends_pure (.inl rfl)
  · split
    · exact .skip fun _ _ => ends_pure (.inl rfl)
    · split
      · exact .skip fun _ _ => .skip fun _ _ => .skip fun _ _ => .skip fun _ _ => .skip fun _ _ =>
          ends_pure (.inl rfl)
      · split
        · exact .skip fun _ _ => .skip fun _ _ => ends_pure (.inl rfl)
        · exact ends_suffixed lv _

section

variable (h : Level.Canonizes depth lv)
include h

lemma ends_primary (hs : s.Ready lv.loops) :
    Ends s (primary lv) (Parsed lv.loops depth limit s) := by
  refine ends_current ?_
  split
  · refine fun e s' heq => ?_
    have hn : Since 0 lv.loops s s [] (do return Expr.ident (← name)) (fun _ => []) fun e ts =>
        e.isOperand = true ∧ e.Derives ts :=
      .name fun id t s1 _ ht _ => .pure ⟨rfl, .suffixed (.name ht)⟩ (by simp)
    obtain ⟨ts, hto, hl, he, hts⟩ := hn.ok hs heq
    exact .operand he hl.ready hto hts
  · split
    · next hl =>
      have hto := hs.advance (is_kind hl)
      have hs1 := hs.suffix [s.current] hto
      refine ends_advance ((h 0 _ hs1).bind ?_)
      rintro inner s2 ⟨d, rfl, hi, -⟩
      obtain ⟨ts, hts, hp⟩ := hi.prints
      refine Ends.bind (fun _ _ heq => (Since.symbol (k := 0) ")").ok hi.ready heq) ?_
      rintro - s3 ⟨_, hri, hs3, rfl, ht⟩
      refine ends_spanFrom fun span => ends_pure ⟨⟨_, ?_, .paren hl hp ht⟩, hs3.ready, ?_, ?_, ?_⟩
      · rw [hto, hts, hri]
        simp
      · exact hi.canonical
      · simp [Expr.leftPowers]
      · simp [Expr.rightPowers]
    · exact ends_unexpected

lemma ends_operand [lv.Builds k lv.loops] (hs : s.Ready lv.loops) :
    Ends s (operand lv s.current) (Parsed lv.loops depth limit s) := by
  unfold operand
  split
  · next op hop =>
    have ho := operator?_eq_some hop
    have ht := hs.advance ho.kind
    refine ends_advance ((h _ _ (hs.suffix [s.current] ht)).bind ?_)
    rintro e s2 ⟨d, rfl, he, hst⟩
    obtain ⟨ts, hts, hprints⟩ := he.prints
    refine ends_spanFrom fun span => ends_pure ⟨⟨_, ?_, .unary ho hprints⟩, he.ready, ?_, ?_, ?_⟩
    · rw [ht, hts, List.cons_append]
    · exact ⟨he.left, he.canonical⟩
    · simp [Expr.leftPowers]
    · rintro p (_ | ⟨_, hp⟩)
      · exact hst
      · exact he.right p hp
  · intro e s' heq
    rcases ends_simple lv s e s' heq with he | hpr
    · obtain ⟨ts, ht, hl, hts⟩ := ((builds_simple (k := k)).run s).ok hs heq
      exact .operand he hl.ready ht hts
    · exact ends_primary h hs e s' hpr

lemma ends_operationsFrom (start : Position) (n : Nat)
    (hn : s'.rest.length < n) (he : Parsed lv.loops depth limit s e s') :
    Ends s' (operationsFrom lv limit start n e) fun e' s'' =>
      Parsed lv.loops depth limit s e' s'' ∧ Stops limit s''.current := by
  induction n generalizing s' e with
  | zero => cases hn
  | succ n ih =>
    refine ends_current ?_
    split
    · next op hop =>
      split
      · next hle =>
        refine ends_pure ⟨he, fun op' hop' => ?_⟩
        cases hop.symm.trans hop'
        exact hle
      · next hlt =>
        have ho := operator?_eq_some hop
        have ht := he.ready.advance ho.kind
        refine ends_advance ((h _ _ (he.ready.suffix [s'.current] ht)).bind ?_)
        rintro right s2 ⟨d, rfl, hr, hs⟩
        obtain ⟨ts, hts, hpr⟩ := he.prints
        obtain ⟨ts', hts', hp'⟩ := hr.prints
        have hl : s2.rest.length < n := by
          have hlen := congrArg List.length (ht.trans (congrArg _ hts'))
          simp only [TokenStream.tokens, List.length_cons, List.length_append] at hlen
          omega
        refine ends_spanFrom fun span => ih hl ⟨⟨_, ?_, .binary hpr ho
          hp'⟩, hr.ready, ⟨fun p hp => he.right p hp op hop, hr.left,
            he.canonical, hr.canonical⟩, ?_, ?_⟩
        · rw [hts, ht, hts']
          simp
        · rintro p (_ | ⟨_, hp⟩)
          · exact Nat.lt_of_not_le hlt
          · exact he.left p hp
        · rintro p (_ | ⟨_, hp⟩)
          · exact hs
          · exact hr.right p hp
    · next hno => exact ends_pure ⟨he, fun op hop => by cases hno.symm.trans hop⟩

lemma ends_subExpression [lv.Builds k lv.loops] (limit : Nat) (hs : s.Ready lv.loops) :
    Ends s (subExpression lv limit) fun e s' =>
      Parsed lv.loops depth limit s e s' ∧ Stops limit s'.current :=
  ends_current ((ends_operand (k := k) h hs).bind fun _ _ he =>
    ends_operationsFrom h _ lv.loops he.ready.short he)

end

lemma canonizes_withDepth (loops depth : Nat) : Level.Canonizes depth (.withDepth loops depth) := by
  induction depth with
  | zero => exact fun _ _ _ _ _ heq => nomatch heq
  | succ depth ih =>
    have hl := Level.loops_withDepth loops depth
    have hb : (Level.withDepth loops depth).Builds (loops + 1)
        (Level.withDepth loops depth).loops := by
      rw [hl]
      exact Level.builds_withDepth (Nat.lt_succ_self loops) depth
    intro limit s hs e s' heq
    have hsu := ends_subExpression (k := loops + 1) ih limit (hl.symm ▸ hs) e s' heq
    rw [hl] at hsu
    exact ⟨depth, rfl, hsu⟩

lemma run_bind {a : α} (h : p s = .ok (a, s')) : (p >>= f) s = f a s' := by
  simp [Bind.bind, StateT.bind, Except.bind, h]

lemma run_current {f : Token → Parser β} : (current >>= f) s = f s.current s := rfl

lemma run_advance {f : Unit → Parser β} : (advance >>= f) s = f () s.advance := rfl

def Gives (p : Parser Expr) (s : TokenStream) (e : Expr) (rest : List Token) : Prop :=
  ∃ e' s', p s = .ok (e', s') ∧ s'.tokens = rest ∧ e'.flat = e.flat

def Reads (loops : Nat) (p : Parser Expr) (e : Expr) (ts : List Token) : Prop :=
  ∀ s t rest, s.Ready loops → s.tokens = ts ++ t :: rest → t.startsSuffix = false →
    Gives p s e (t :: rest)

def Operand (loops depth : Nat) : Expr → List Token → Prop :=
  Reads loops (simple (.withDepth loops depth))

lemma operator?_of_operates {ofText? : Bytes → Option α} {op : α} (h : t.Operates ofText? op) :
    operator? ofText? t = some op := by
  rw [operator?, if_pos (by simpa using h.1), h.2]

lemma operator?_of_simple (h : simple lv s = .ok r) :
    operator? UnaryOp.ofText? s.current = none := by
  cases hop : operator? UnaryOp.ofText? s.current with
  | none => rfl
  | some op =>
    obtain ⟨hk, hop⟩ := operator?_eq_some hop
    have hv : op.text = s.current.value := by simpa using List.find?_some hop
    have his : ∀ text, op.text ≠ text → ¬s.current.is text = true := by
      intro text hne his
      exact hne (hv.trans (by simpa using (Bool.and_eq_true_iff.1 his).2))
    have hno : Ends s (simple lv) fun _ _ => False := by
      refine ends_current ?_
      split
      · next hk' => simp [hk'] at hk
      · next hk' => simp [hk'] at hk
      · next hk' => simp [hk'] at hk
      · next hk' => simp [hk'] at hk
      · rw [if_neg (his _ (by cases op <;> decide)), if_neg (his _ (by cases op <;> decide)),
          if_neg (by simp only [isFunctionWord, Bool.or_eq_true, not_or]
                     exact ⟨his _ (by cases op <;> decide), his _ (by cases op <;> decide)⟩)]
        have hn : ¬s.current.kind = .name := by rcases hk with hk | hk <;> simp [hk]
        have hp : Ends s (primary lv) fun _ _ => False := by
          refine ends_current ?_
          rw [if_neg hn, if_neg (his _ (by cases op <;> decide))]
          exact ends_unexpected
        exact ends_current (hp.bind fun _ _ h => h.elim)
    exact (hno r.1 r.2 h).elim

lemma operand_of_simple (h : simple lv s = .ok r) : operand lv s.current s = .ok r := by
  rw [operand, operator?_of_simple h]
  exact h

lemma current_eq (h : s.tokens = t :: ts) : s.current = t := (List.cons.inj h).1

lemma advance_tokens {t' : Token} (h : s.tokens = t :: (ts ++ t' :: rest)) :
    s.advance.tokens = ts ++ t' :: rest := by
  obtain ⟨-, hr⟩ := List.cons.inj h
  cases ts <;> simp [TokenStream.advance, TokenStream.tokens, hr]

lemma suffixesFrom_of_startsSuffix (h : s.current.startsSuffix = false) (start : Position) (n : Nat)
    (e : Expr) : suffixesFrom lv start n e s = .ok (e, s) := by
  cases n with
  | zero => rfl
  | succ n =>
    simp only [startsSuffix, suffixSigns, List.map_cons, List.map_nil, List.any_cons,
      List.any_nil, Bool.or_eq_false_iff, decide_eq_false_iff_not] at h
    obtain ⟨⟨hd, hi, hc, hl, hb, -⟩, hs⟩ := h
    rw [suffixesFrom, run_current, if_neg (by simp [hd]),
      if_neg (by simp [hi]), if_neg (by simp [hc]), if_neg (by simp [hl, hb, hs])]
    rfl

lemma startsSuffix_of_operates {op : BinaryOp} (h : t.Operates BinaryOp.ofText? op) :
    t.startsSuffix = false := by
  have hv : op.text = t.value := by simpa using List.find?_some h.2
  refine startsSuffix_eq_false (by rcases h.1 with hk | hk <;> simp [hk]) ?_
  rw [← hv]
  cases op <;> decide

lemma closes_of_spells (h : t.Spells ")") :
    t.startsSuffix = false ∧ operator? BinaryOp.ofText? t = none := by
  obtain ⟨hk, hv⟩ := Bool.and_eq_true_iff.1 h
  have hv : t.value = ")" := by simpa using hv
  refine ⟨startsSuffix_eq_false (fun hs => ?_) ?_, ?_⟩
  · simp [hs] at hk
  · rw [hv]
    decide
  · rw [operator?, if_pos hk, hv]
    decide

lemma operationsFrom_of_stops (h : Stops limit s.current) (start : Position) (n : Nat) (e : Expr) :
    operationsFrom lv limit start n e s = .ok (e, s) := by
  cases n with
  | zero => rfl
  | succ n =>
    rw [operationsFrom, run_current]
    cases hop : operator? BinaryOp.ofText? s.current with
    | none => rfl
    | some op =>
      dsimp only
      rw [if_pos (h op hop)]
      rfl

lemma simple_paren {inner : Expr} (hl : s.current.Spells "(")
    (hi : lv.expr 0 s.advance = .ok (inner, s')) (hr : s'.current.Spells ")")
    (h : s'.advance.current.startsSuffix = false) :
    simple lv s = .ok (.paren ⟨s.current.span.start, s'.advance.prevEnd⟩ inner, s'.advance) := by
  unfold Spells at hl hr
  obtain ⟨hk, hv⟩ := Bool.and_eq_true_iff.1 hl
  have hv : s.current.value = "(" := by simpa using hv
  have hk : s.current.kind = .sign ∨ s.current.kind = .keyword := by simpa using hk
  have his : ∀ text : Bytes, "(" ≠ text → ¬s.current.is text = true := by
    intro text hne
    simp [is, hv, hne]
  have he : expect ")" s' = .ok ((), s'.advance) := by
    show expectSymbol ")" s' = _
    rw [expectSymbol, run_current, if_pos hr]
    rfl
  have hp : primary lv s =
      .ok (.paren ⟨s.current.span.start, s'.advance.prevEnd⟩ inner, s'.advance) := by
    rw [primary, run_current, if_neg (by rcases hk with hk | hk <;> simp [hk]), if_pos hl,
      run_advance, run_bind hi, run_bind he]
    rfl
  have hs : simple lv s = suffixed lv s := by
    rw [simple, run_current]
    have hno : ¬s.current.isFunctionWord = true := by
      simp only [isFunctionWord, Bool.or_eq_true, not_or]
      exact ⟨his _ (by decide), his _ (by decide)⟩
    rcases hk with hk | hk <;> rw [hk] <;> dsimp only <;>
      rw [if_neg (his _ (by decide)), if_neg (his _ (by decide)), if_neg hno]
  rw [hs, suffixed, run_current, run_bind hp, suffixesFrom_of_startsSuffix h]

lemma operand_atom (h : t.atom? = some e) : Operand loops depth e [t] := by
  intro s t' rest hs ht ht'
  have hc := current_eq ht
  have hr : s.advance.tokens = [] ++ t' :: rest := advance_tokens ht
  refine ⟨e, s.advance, ?_, hr, rfl⟩
  rw [simple, run_current, hc]
  unfold atom? at h
  split at h
  iterate 4
    · next hk =>
      cases h
      rw [hk]
      rfl
  · next hk =>
    cases h
    have hno : ∀ text, ¬t.is text = true := fun text => by simp [is, hk]
    have hp : primary (.withDepth loops depth) s = .ok (.ident ⟨t.span, t.value⟩, s.advance) := by
      have hn : name s = .ok (⟨t.span, t.value⟩, s.advance) := by
        rw [name, run_current, hc, if_pos hk]
        rfl
      rw [primary, run_current, hc, if_pos hk, run_bind hn]
      rfl
    rw [hk]
    dsimp only
    rw [if_neg (hno _), if_neg (hno _), if_neg (by simp [isFunctionWord, hno])]
    rw [suffixed, run_current, run_bind hp, suffixesFrom_of_startsSuffix]
    rwa [current_eq hr]
  · split at h
    · next hd =>
      cases h
      have hk : t.kind = .sign ∨ t.kind = .keyword := by
        simpa using (Bool.and_eq_true_iff.1 hd).1
      rcases hk with hk | hk <;> rw [hk] <;> dsimp only <;> rw [if_pos hd] <;> rfl
    · cases h

def Reaches (loops depth limit : Nat) (e : Expr) (s : TokenStream) (t : Token) (rest : List Token) :
    Prop :=
  ∃ e' s' n, subExpression (.withDepth loops depth) limit s =
      operationsFrom (.withDepth loops depth) limit s.current.span.start n e' s' ∧
    s'.tokens = t :: rest ∧ s'.rest.length < n ∧ e'.flat = e.flat

lemma Reaches.of_operand {e' : Expr} (hs : s.Ready loops)
    (h : operand (.withDepth loops depth) s.current s = .ok (e', s'))
    (ht : s.tokens = ts ++ t :: rest)
    (hr : s'.tokens = t :: rest) (he : e'.flat = e.flat) :
    Reaches loops depth limit e s t rest := by
  refine ⟨e', s', loops, ?_, hr, (hs.suffix ts (hr ▸ ht)).short, he⟩
  rw [subExpression, run_current, run_bind h, Level.loops_withDepth]

lemma Reaches.ends (h : Reaches loops depth limit e s t rest) (hs : Stops limit t) :
    Gives ((Level.withDepth loops (depth + 1)).expr limit) s e (t :: rest) := by
  obtain ⟨e', s', n, heq, ht, -, he⟩ := h
  refine ⟨e', s', heq.trans (operationsFrom_of_stops ?_ ..), ht, he⟩
  rwa [current_eq ht]

lemma Reaches.binary {span : Span} {op : BinaryOp} {left right : Expr} {t' : Token}
    {us : List Token} (h : Reaches loops (depth + 1) limit left s t (us ++ t' :: rest))
    (hop : t.Operates BinaryOp.ofText? op) (hl : limit < op.powers.1)
    (hr : ∀ s1 : TokenStream, s1.tokens = us ++ t' :: rest →
      Gives ((Level.withDepth loops (depth + 1)).expr op.powers.2) s1 right (t' :: rest)) :
    Reaches loops (depth + 1) limit (.binary span op left right) s t' rest := by
  obtain ⟨left', s1, n, heq, ht, hn, hle⟩ := h
  obtain ⟨n, rfl⟩ : ∃ m, n = m + 1 := ⟨n - 1, by omega⟩
  obtain ⟨right', s2, hru, ht', hr'⟩ := hr s1.advance (advance_tokens ht)
  refine ⟨.binary ⟨s.current.span.start, s2.prevEnd⟩ op left' right', s2, n, ?_, ht', ?_, ?_⟩
  · have ho : operator? BinaryOp.ofText? s1.current = some op := by
      rw [current_eq ht]
      exact operator?_of_operates hop
    rw [heq, operationsFrom, run_current, ho]
    dsimp only
    rw [if_neg (Nat.not_le.2 hl), run_advance, run_bind hru]
    rfl
  · have hlen := congrArg List.length ht'
    have hl' := congrArg List.length ht
    simp only [TokenStream.tokens, List.length_cons, List.length_append] at hlen hl'
    omega
  · rw [Expr.flat, hle, hr']
    rfl

lemma reaches_of_prints (h : e.Prints (Operand loops) depth ts) (hc : e.Canonical)
    (hs : s.Ready loops) (hle : ∀ p ∈ e.leftPowers, limit < p) (hto : s.tokens = ts ++ t :: rest)
    (ht : t.startsSuffix = false) (hri : ∀ p ∈ e.rightPowers, Stops p t) :
    Reaches loops depth limit e s t rest := by
  induction h generalizing limit s t rest with
  | @operand depth e ts he hreads =>
    obtain ⟨e', s', heq, hre, hf⟩ := hreads s t rest hs hto ht
    exact .of_operand hs (operand_of_simple heq) hto hre hf
  | @paren depth span inner left ts right hl hpr hr ih =>
    have ht' : s.tokens = left :: (ts ++ right :: t :: rest) := by simp [hto]
    have ha := advance_tokens ht'
    obtain ⟨hsu, hn⟩ := closes_of_spells hr
    have hst : ∀ p, Stops p right := fun p op hop => nomatch hn.symm.trans hop
    obtain ⟨inner', s1, hru, hre, hf⟩ := Reaches.ends (ih hc
      (hs.suffix [left] (by rw [ht', ha, List.singleton_append]))
      (fun p hp => inner.leftPowers_pos p hp) ha hsu fun p _ => hst p) (hst 0)
    have hre' : s1.advance.tokens = [] ++ t :: rest := advance_tokens hre
    have hsi := simple_paren (current_eq ht' ▸ hl) hru (current_eq hre ▸ hr) (current_eq hre' ▸ ht)
    exact .of_operand hs (operand_of_simple hsi) hto hre' (congrArg (Expr.paren _) hf)
  | @unary depth span op e u ts hop hpr ih =>
    obtain ⟨hpo, hc⟩ := hc
    have ht' : s.tokens = u :: (ts ++ t :: rest) := hto
    have ha := advance_tokens ht'
    obtain ⟨e', s1, hru, hre, hf⟩ := Reaches.ends (ih hc
      (hs.suffix [u] (by rw [ht', ha, List.singleton_append])) hpo ha ht
      fun p hp => hri p (by simp [Expr.rightPowers, hp])) (hri _ (by simp [Expr.rightPowers]))
    have ho : operand (.withDepth loops (depth + 1)) s.current s =
        .ok (.unary ⟨s.current.span.start, s1.prevEnd⟩ op e', s1) := by
      rw [current_eq ht', operand, operator?_of_operates hop]
      dsimp only
      rw [run_advance, run_bind hru]
      rfl
    exact .of_operand hs ho hto hre (congrArg (Expr.unary _ op) hf)
  | @binary depth span op left right ts u us hl hop hr ihl ihr =>
    obtain ⟨hl', hr', hcl, hcr⟩ := hc
    have ht' : s.tokens = ts ++ u :: (us ++ t :: rest) := by simp [hto]
    refine .binary (ihl hcl hs ?_ ht' (startsSuffix_of_operates hop) ?_) hop ?_ ?_
    · exact fun p hp => hle p (by simp [Expr.leftPowers, hp])
    · intro p hp op' hop'
      cases (operator?_of_operates hop).symm.trans hop'
      exact hl' p hp
    · exact hle _ (by simp [Expr.leftPowers])
    · intro s1 hs1
      refine Reaches.ends (ihr hcr (hs.suffix (ts ++ [u]) ?_) hr' hs1 ht ?_) ?_
      · rw [hs1]
        simp [hto]
      · exact fun p hp => hri p (by simp [Expr.rightPowers, hp])
      · exact hri _ (by simp [Expr.rightPowers])

/-- The parser gives a canonical tree for the tokens it takes, of operators that bind tighter than
the limit, and it gives every such tree, up to positions, for its tokens in front of a token that
cannot go on with an expression. So these have one canonical tree. -/
theorem subExpression_canonical (hs : s.Ready loops) :
    (∀ e s', subExpression (.withDepth loops depth) limit s = .ok (e, s') →
      ∃ ts, s.tokens = ts ++ s'.tokens ∧ e.Prints (fun _ => Expr.Derives) depth ts ∧ e.Canonical ∧
        ∀ p ∈ e.leftPowers, limit < p) ∧
    ∀ ts t rest, s.tokens = ts ++ t :: rest → t.continuesExpr = false →
      (∀ e : Expr, e.Prints (Operand loops) depth ts → e.Canonical →
        (∀ p ∈ e.leftPowers, limit < p) →
        Gives (subExpression (.withDepth loops depth) limit) s e (t :: rest)) ∧
      ∀ e₁ e₂ : Expr, e₁.Prints (Operand loops) depth ts → e₂.Prints (Operand loops) depth ts →
        e₁.Canonical → e₂.Canonical → e₁.flat = e₂.flat := by
  refine ⟨fun e s' heq => ?_, fun ts t rest htokens ht => ?_⟩
  · obtain ⟨d, hd, hparsed, -⟩ := canonizes_withDepth loops (depth + 1) limit s
      (by rwa [Level.loops_withDepth]) e s' heq
    cases hd
    obtain ⟨ts, htokens, hprints⟩ := hparsed.prints
    exact ⟨ts, htokens, hprints, hparsed.canonical, hparsed.left⟩
  · obtain ⟨hsuffix, hnone⟩ := Bool.or_eq_false_iff.1 ht
    have hstops : ∀ p, Stops p t := by
      intro p op hop
      simp [hop] at hnone
    have hparse : ∀ {limit : Nat} {e : Expr}, e.Prints (Operand loops) depth ts → e.Canonical →
        (∀ p ∈ e.leftPowers, limit < p) →
        Gives (subExpression (.withDepth loops depth) limit) s e (t :: rest) :=
      fun hprints hcanonical hleft =>
        (reaches_of_prints hprints hcanonical hs hleft htokens hsuffix fun p _ => hstops p).ends
        (hstops _)
    refine ⟨fun e => hparse, fun e₁ e₂ h1 h2 hc1 hc2 => ?_⟩
    obtain ⟨e', s', hrun, -, heq⟩ := hparse h1 hc1 e₁.leftPowers_pos
    obtain ⟨e'', s'', hrun', -, heq'⟩ := hparse h2 hc2 e₂.leftPowers_pos
    cases hrun.symm.trans hrun'
    exact heq.symm.trans heq'

/-- In `-a^2` the power is the operand of the sign. -/
theorem subExpression_canonical_signed_power :
    let word (kind : TokenKind) (text : String) : Token := ⟨kind, .at .first, .ofString text, false⟩
    let s : TokenStream := ⟨word .sign "-", [word .name "a", word .sign "^", word .number "2",
      ⟨.eof, .at .first, [], false⟩], [], .first, none⟩
    let span := Span.at .first
    let e : Expr := .unary span .neg (.binary span .pow (.ident ⟨span, .ofString "a"⟩)
      (.number span (.ofString "2")))
    s.Ready 5 ∧ e.Canonical ∧ ∃ e' s', subExpression (.withDepth 5 2) 0 s = .ok (e', s') ∧
      s'.current.kind = .eof ∧ e'.flat = e.flat := by
  intro word s span e
  have hs : s.Ready 5 := by
    refine ⟨⟨s.tokens.dropLast, ⟨.eof, .at .first, [], false⟩, rfl, .inl rfl, ?_⟩, by decide, ?_⟩
    · decide
    · unfold Token.Spelled
      decide
  have hc : e.Canonical := by
    refine ⟨by decide, ?_, ?_, trivial, trivial⟩ <;> decide
  have hp : e.Prints (Operand 5) 2 (s.tokens.take 4) :=
    .unary ⟨.inl rfl, rfl⟩ (.binary (.operand rfl (operand_atom rfl)) ⟨.inl rfl, rfl⟩
      (.operand rfl (operand_atom rfl)))
  obtain ⟨e', s', hrun, htokens, he⟩ :=
    ((subExpression_canonical hs).2 _ _ _ rfl rfl).1 e hp hc e.leftPowers_pos
  exact ⟨hs, hc, e', s', hrun, by rw [current_eq htokens], he⟩

end Parser

end LuaBytecode
