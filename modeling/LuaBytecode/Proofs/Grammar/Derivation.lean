import LuaBytecode.Grammar.Statement
import Mathlib.Data.List.Basic
import Mathlib.Tactic.Lemma

namespace LuaBytecode

def Token.Spells (t : Token) (text : String) : Prop := t.is (.ofString text) = true

def Token.Names (t : Token) (id : Ident) : Prop := t.kind = .name ∧ id = ⟨t.span, t.value⟩

def Token.Operates {α : Type} (ofText? : Bytes → Option α) (t : Token) (op : α) : Prop :=
  (t.kind = .sign ∨ t.kind = .keyword) ∧ ofText? t.value = some op

inductive NamesDerive : List Ident → List Token → Prop
  | one {id t} : t.Names id → NamesDerive [id] [t]
  | more {id ids t comma ts} : t.Names id → comma.Spells "," → NamesDerive ids ts →
      NamesDerive (id :: ids) (t :: comma :: ts)

inductive ParamsDerive : List Ident → (isVararg : Bool) → List Token → Prop
  | vararg {t} : t.Spells "..." → ParamsDerive [] true [t]
  | one {id t} : t.Names id → ParamsDerive [id] false [t]
  | more {id ids isVararg t comma ts} : t.Names id → comma.Spells "," →
      ParamsDerive ids isVararg ts → ParamsDerive (id :: ids) isVararg (t :: comma :: ts)

inductive TargetDerives : Expr → List Token → Prop
  | name {id t} : t.Names id → TargetDerives (.ident id) [t]
  | field {span object key ts dot t} : TargetDerives object ts → dot.Spells "." → t.Names key →
      TargetDerives (.member span object (.string key.span key.name false) false) (ts ++ [dot, t])

def Padded (values : List Expr) (n : Nat) (padded : List Expr) : Prop :=
  ∃ k pos, padded = values ++ List.replicate k (.nil (.at pos)) ∧ (k = 0 ∨ values.length + k = n)

mutual

inductive Expr.Derives : Expr → List Token → Prop
  | number {t : Token} : t.kind = .number → Expr.Derives (.number t.span t.value) [t]
  | string {t : Token} : t.kind = .string → Expr.Derives (.string t.span t.value t.long) [t]
  | nil {t : Token} : t.kind = .nil → t.value = "nil" → Expr.Derives (.nil t.span) [t]
  | bool {t : Token} {b : Bool} : t.kind = .boolean →
      t.value = .ofString (if b then "true" else "false") → Expr.Derives (.bool t.span b) [t]
  | vararg {t} : t.Spells "..." → Expr.Derives (.vararg t.span) [t]
  | table {e ts} : ConstructorDerives e ts → Expr.Derives e ts
  | function {span params isVararg body t ts} : t.isFunctionWord = true →
      BodyDerives params isVararg body ts →
      Expr.Derives (.function span params isVararg body) (t :: ts)
  | unary {span op operand t ts} : t.Operates UnaryOp.ofText? op → Expr.Derives operand ts →
      Expr.Derives (.unary span op operand) (t :: ts)
  | binary {span op left right ts t ts'} : Expr.Derives left ts →
      t.Operates BinaryOp.ofText? op → Expr.Derives right ts' →
      Expr.Derives (.binary span op left right) (ts ++ t :: ts')
  | suffixed {e ts} : SuffixedDerives e ts → Expr.Derives e ts

inductive SuffixedDerives : Expr → List Token → Prop
  | name {id t} : t.Names id → SuffixedDerives (.ident id) [t]
  | paren {span inner left ts right} : left.Spells "(" → Expr.Derives inner ts →
      right.Spells ")" → SuffixedDerives (.paren span inner) (left :: (ts ++ [right]))
  | field {span object key ts dot t} : SuffixedDerives object ts → dot.Spells "." →
      t.Names key → SuffixedDerives
        (.member span object (.string key.span key.name false) false) (ts ++ [dot, t])
  | index {span object key ts left ts' right} : SuffixedDerives object ts → left.Spells "[" →
      Expr.Derives key ts' → right.Spells "]" →
      SuffixedDerives (.member span object key true) (ts ++ left :: (ts' ++ [right]))
  | call {span callee args ts ts'} : SuffixedDerives callee ts → ArgumentsDerive args ts' →
      SuffixedDerives (.call span callee none args) (ts ++ ts')
  | method {span callee method args ts colon t ts'} : SuffixedDerives callee ts →
      colon.Spells ":" → t.Names method → ArgumentsDerive args ts' →
      SuffixedDerives (.call span callee (some method) args) (ts ++ colon :: t :: ts')

inductive ArgumentsDerive : List Expr → List Token → Prop
  | string {t : Token} : t.kind = .string → ArgumentsDerive [.string t.span t.value t.long] [t]
  | table {e ts} : ConstructorDerives e ts → ArgumentsDerive [e] ts
  | none {left right} : left.Spells "(" → right.Spells ")" → ArgumentsDerive [] [left, right]
  | list {args left ts right} : left.Spells "(" → ExprsDerive args ts → right.Spells ")" →
      ArgumentsDerive args (left :: (ts ++ [right]))

inductive ExprsDerive : List Expr → List Token → Prop
  | one {e ts} : Expr.Derives e ts → ExprsDerive [e] ts
  | more {e es ts comma ts'} : Expr.Derives e ts → comma.Spells "," → ExprsDerive es ts' →
      ExprsDerive (e :: es) (ts ++ comma :: ts')

inductive ConstructorDerives : Expr → List Token → Prop
  | mk {span fields left ts right} : left.Spells "\x7b" → FieldsDerive 1 fields ts →
      right.Spells "\x7d" → ConstructorDerives (.table span fields) (left :: (ts ++ [right]))

inductive FieldsDerive : (index : Nat) → List Field → List Token → Prop
  | nil {index} : FieldsDerive index [] []
  | one {index index' f ts} : FieldDerives index f index' ts → FieldsDerive index [f] ts
  | more {index index' f fs ts separator ts'} : FieldDerives index f index' ts →
      separator.Spells "," ∨ separator.Spells ";" → FieldsDerive index' fs ts' →
      FieldsDerive index (f :: fs) (ts ++ separator :: ts')

inductive FieldDerives : (index : Nat) → Field → (next : Nat) → List Token → Prop
  | computed {span key value index left ts right equal ts'} : left.Spells "[" →
      Expr.Derives key ts → right.Spells "]" → equal.Spells "=" → Expr.Derives value ts' →
      FieldDerives index (.mk span .computed key value) index
        (left :: (ts ++ right :: equal :: ts'))
  | named {span key value index t equal ts} : t.Names key → equal.Spells "=" →
      Expr.Derives value ts →
      FieldDerives index (.mk span .named (.string key.span key.name false) value) index
        (t :: equal :: ts)
  | positional {span value index pos ts} : Expr.Derives value ts →
      FieldDerives index (.mk span .positional (.number (.at pos) (.ofNat index)) value)
        (index + 1) ts

inductive BodyDerives : List Ident → (isVararg : Bool) → List Stmt → List Token → Prop
  | none {body left right ts stop} : left.Spells "(" → right.Spells ")" → BlockDerives body ts →
      stop.Spells "end" → BodyDerives [] false body (left :: right :: (ts ++ [stop]))
  | some {params isVararg body left ts right ts' stop} : left.Spells "(" →
      ParamsDerive params isVararg ts → right.Spells ")" → BlockDerives body ts' →
      stop.Spells "end" →
      BodyDerives params isVararg body (left :: (ts ++ right :: (ts' ++ [stop])))

inductive BlockDerives : List Stmt → List Token → Prop
  | nil : BlockDerives [] []
  | empty {body t ts} : t.Spells ";" → BlockDerives body ts → BlockDerives body (t :: ts)
  | cons {s body ts ts'} : Stmt.Derives s ts → BlockDerives body ts' →
      BlockDerives (s :: body) (ts ++ ts')
  | return {span values t ts} : t.Spells "return" → ValuesDerive values ts →
      BlockDerives [.return span values] (t :: ts)
  | returnClosed {span values t ts t'} : t.Spells "return" → ValuesDerive values ts →
      t'.Spells ";" → BlockDerives [.return span values] (t :: (ts ++ [t']))

inductive ValuesDerive : List Expr → List Token → Prop
  | none : ValuesDerive [] []
  | some {values ts} : ExprsDerive values ts → ValuesDerive values ts

inductive TargetsDerive : List Expr → List Token → Prop
  | one {e ts} : SuffixedDerives e ts → e.isAssignable = true → TargetsDerive [e] ts
  | more {e es ts comma ts'} : SuffixedDerives e ts → e.isAssignable = true →
      comma.Spells "," → TargetsDerive es ts' → TargetsDerive (e :: es) (ts ++ comma :: ts')

inductive Stmt.Derives : Stmt → List Token → Prop
  | assign {span targets values padded ts equal ts'} : TargetsDerive targets ts →
      equal.Spells "=" → ExprsDerive values ts' → Padded values targets.length padded →
      Stmt.Derives (.assign span targets padded) (ts ++ equal :: ts')
  | call {span callee method args ts} : SuffixedDerives (.call span callee method args) ts →
      Stmt.Derives (.call span callee method args) ts
  | declare {span names t ts} : t.isLocalWord = true → NamesDerive names ts →
      Stmt.Derives (.declare span names []) (t :: ts)
  | define {span names values padded t ts equal ts'} : t.isLocalWord = true →
      NamesDerive names ts → equal.Spells "=" → ExprsDerive values ts' →
      Padded values names.length padded →
      Stmt.Derives (.declare span names padded) (t :: (ts ++ equal :: ts'))
  | function {span target bodySpan params isVararg body t ts ts'} : t.isFunctionWord = true →
      TargetDerives target ts → BodyDerives params isVararg body ts' →
      Stmt.Derives (.function span target false bodySpan params isVararg body) (t :: (ts ++ ts'))
  | method {span target key pos bodySpan params isVararg body t ts colon name ts'} :
      t.isFunctionWord = true → TargetDerives target ts → colon.Spells ":" → name.Names key →
      BodyDerives params isVararg body ts' →
      Stmt.Derives (.function span (Parser.fieldOf target key) true bodySpan
        (⟨.at pos, "self"⟩ :: params) isVararg body)
        (t :: (ts ++ colon :: name :: ts'))
  | localFunction {span id bodySpan params isVararg body t t' name ts} : t.isLocalWord = true →
      t'.isFunctionWord = true → name.Names id → BodyDerives params isVararg body ts →
      Stmt.Derives (.localFunction span id bodySpan params isVararg body) (t :: t' :: name :: ts)
  | scope {span body t ts stop} : t.Spells "do" → BlockDerives body ts → stop.Spells "end" →
      Stmt.Derives (.scope span body) (t :: (ts ++ [stop]))
  | while {span cond body t ts t' ts' stop} : t.Spells "while" → Expr.Derives cond ts →
      t'.Spells "do" → BlockDerives body ts' → stop.Spells "end" →
      Stmt.Derives (.while span cond body) (t :: (ts ++ t' :: (ts' ++ [stop])))
  | repeat {span body cond t ts t' ts'} : t.Spells "repeat" → BlockDerives body ts →
      t'.Spells "until" → Expr.Derives cond ts' →
      Stmt.Derives (.repeat span body cond) (t :: (ts ++ t' :: ts'))
  | cond {span test body otherwise t ts} : t.Spells "if" →
      ConditionalDerives test body otherwise ts →
      Stmt.Derives (.cond span test body otherwise) (t :: ts)
  | numericFor {span id first limit step body t name equal ts} : t.Spells "for" →
      name.Names id → equal.Spells "=" → RangeDerives first limit step body ts →
      Stmt.Derives (.numericFor span id first limit step body) (t :: name :: equal :: ts)
  | genericFor {span names exprs body t ts t' ts' t'' ts'' stop} : t.Spells "for" →
      NamesDerive names ts → t'.Spells "in" → ExprsDerive exprs ts' → t''.Spells "do" →
      BlockDerives body ts'' → stop.Spells "end" →
      Stmt.Derives (.genericFor span names exprs body)
        (t :: (ts ++ t' :: (ts' ++ t'' :: (ts'' ++ [stop]))))
  | break {span t} : t.Spells "break" → Stmt.Derives (.break span) [t]

inductive RangeDerives : Expr → Expr → Option Expr → List Stmt → List Token → Prop
  | plain {first limit body ts comma ts' t ts'' stop} : Expr.Derives first ts →
      comma.Spells "," → Expr.Derives limit ts' → t.Spells "do" → BlockDerives body ts'' →
      stop.Spells "end" →
      RangeDerives first limit none body (ts ++ comma :: (ts' ++ t :: (ts'' ++ [stop])))
  | stepped {first limit step body ts comma ts' comma' ts'' t us stop} :
      Expr.Derives first ts → comma.Spells "," → Expr.Derives limit ts' → comma'.Spells "," →
      Expr.Derives step ts'' → t.Spells "do" → BlockDerives body us → stop.Spells "end" →
      RangeDerives first limit (some step) body
        (ts ++ comma :: (ts' ++ comma' :: (ts'' ++ t :: (us ++ [stop]))))

inductive ConditionalDerives : Expr → List Stmt → Otherwise → List Token → Prop
  | mk {test body otherwise ts t ts' ts''} : Expr.Derives test ts → t.Spells "then" →
      BlockDerives body ts' → Otherwise.Derives otherwise ts'' →
      ConditionalDerives test body otherwise (ts ++ t :: (ts' ++ ts''))

inductive Otherwise.Derives : Otherwise → List Token → Prop
  | none {stop} : stop.Spells "end" → Otherwise.Derives .none [stop]
  | elseIf {span test body otherwise t ts} : t.Spells "elseif" →
      ConditionalDerives test body otherwise ts →
      Otherwise.Derives (.elseIf span test body otherwise) (t :: ts)
  | block {span body t ts stop} : t.Spells "else" → BlockDerives body ts → stop.Spells "end" →
      Otherwise.Derives (.block span body) (t :: (ts ++ [stop]))

end

section

def Token.Spelled (t : Token) : Prop := (t.kind = .nil → t.value = "nil") ∧
    (t.kind = .boolean → t.value = "true" ∨ t.value = "false")

namespace TokenStream

def tokens (s : TokenStream) : List Token := s.current :: s.rest

/-- The stream ends with the first end token or with an error token, and has less than `n` tokens
behind the current one. -/
structure Ready (n : Nat) (s : TokenStream) : Prop where
  ended : ∃ init last, s.tokens = init ++ [last] ∧ (last.kind = .eof ∨ last.kind = .error) ∧
    ∀ t ∈ init, t.kind ≠ .eof
  short : s.rest.length < n
  spelled : ∀ t ∈ s.tokens, t.Spelled

variable {n : Nat} {s s' : TokenStream}

lemma Ready.suffix (ts : List Token) (h : s.Ready n) (heq : s.tokens = ts ++ s'.tokens) :
    s'.Ready n := by
  obtain ⟨init, last, hi, hla, hno⟩ := h.ended
  have hta : init ++ [last] = ts ++ s'.tokens := hi.symm.trans heq
  obtain ⟨init', hi'⟩ : ∃ init', s'.tokens = init' ++ [last] := by
    refine ⟨s'.tokens.dropLast, ?_⟩
    have hne : s'.tokens ≠ [] := List.cons_ne_nil _ _
    have hl := congrArg List.getLast? hta
    rw [List.getLast?_concat, List.getLast?_append_of_ne_nil _ hne,
      List.getLast?_eq_some_getLast hne] at hl
    rw [Option.some.inj hl, List.dropLast_append_getLast hne]
  refine ⟨⟨init', last, hi', hla, fun t ht => hno t ?_⟩, ?_, fun t ht => h.spelled t ?_⟩
  · rw [hi', ← List.append_assoc] at hta
    rw [List.append_cancel_right hta]
    exact List.mem_append_right _ ht
  · have hle := congrArg List.length heq
    have hs := h.short
    simp only [tokens, List.length_append, List.length_cons] at hle
    omega
  · rw [heq]
    exact List.mem_append_right _ ht

lemma Ready.advance (h : s.Ready n) (hk : s.current.kind ≠ .eof ∧ s.current.kind ≠ .error) :
    s.tokens = s.current :: s.advance.tokens := by
  cases hr : s.rest with
  | cons t rest => simp [tokens, TokenStream.advance, hr]
  | nil =>
    obtain ⟨init, last, hi, hl, -⟩ := h.ended
    have hs : [] ++ [s.current] = init ++ [last] := by
      rw [← hi, tokens, hr, List.nil_append]
    obtain ⟨-, heq⟩ := List.append_inj' hs rfl
    cases heq
    rcases hl with hl | hl
    · exact absurd hl hk.1
    · exact absurd hl hk.2

lemma Ready.rest_of_eof (h : s.Ready n) (hk : s.current.kind = .eof) : s.rest = [] := by
  obtain ⟨init, last, hi, -, hno⟩ := h.ended
  cases init with
  | nil => exact (List.cons.inj hi).2
  | cons t init =>
    have heq := (List.cons.inj hi).1
    exact absurd (heq ▸ hk) (hno t (by simp))

end TokenStream

variable {t : Token}

lemma Token.is_kind {text : Bytes} (h : t.is text = true) : t.kind ≠ .eof ∧ t.kind ≠ .error := by
  simp only [Token.is, Bool.and_eq_true, Bool.or_eq_true, decide_eq_true_eq] at h
  rcases h.1 with hk | hk <;> simp [hk]

lemma Token.isFunctionWord_kind (h : t.isFunctionWord = true) :
    t.kind ≠ .eof ∧ t.kind ≠ .error := by
  rcases Bool.or_eq_true_iff.mp h with h | h <;> exact Token.is_kind h

lemma Token.Operates.kind {α : Type} {ofText? : Bytes → Option α} {op : α}
    (h : t.Operates ofText? op) : t.kind ≠ .eof ∧ t.kind ≠ .error := by
  rcases h.1 with hk | hk <;> simp [hk]

end

end LuaBytecode
