import LuaBytecode.Grammar.Statement
import Mathlib.Tactic.Lemma

namespace LuaBytecode

structure Move (σ ε : Type) where
  state : σ → σ
  error : ε → ε → Prop

namespace Move

variable {σ ε α β γ δ : Type} {m : Move σ ε} {E : α → β} {F : γ → δ}

def Follows (m : Move σ ε) (E : α → β) (p : StateT σ (Except ε) α) (q : StateT σ (Except ε) β) :
    Prop :=
  ∀ s, match p s with
    | .ok (a, s') => q (m.state s) = .ok (E a, m.state s')
    | .error e => ∃ e', q (m.state s) = .error e' ∧ m.error e e'

lemma follows_pure {a : α} {b : β} (h : b = E a) : m.Follows E (pure a) (pure b) := by
  subst h
  exact fun _ => rfl

namespace Follows

lemma bind {p : StateT σ (Except ε) α} {q : StateT σ (Except ε) β}
    {f : α → StateT σ (Except ε) γ} {f' : β → StateT σ (Except ε) δ}
    (h : m.Follows E p q) (hf : ∀ a, m.Follows F (f a) (f' (E a))) :
    m.Follows F (p >>= f) (q >>= f') := by
  intro s
  have hs := h s
  cases hp : p s with
  | error e =>
    rw [hp] at hs
    obtain ⟨e', hq, he⟩ := hs
    simp only [Bind.bind, StateT.bind, Except.bind, hp, hq]
    exact ⟨e', rfl, he⟩
  | ok r =>
    obtain ⟨a, s'⟩ := r
    rw [hp] at hs
    simp only [Bind.bind, StateT.bind, Except.bind, hp, hs]
    exact hf a s'

lemma split {c c' : Prop} [Decidable c] [Decidable c'] {p p' : StateT σ (Except ε) α}
    {q q' : StateT σ (Except ε) β} (hc : c ↔ c') (hp : c → m.Follows E p q)
    (hp' : ¬c → m.Follows E p' q') :
    m.Follows E (if c then p else p') (if c' then q else q') := by
  by_cases h : c
  · rw [if_pos h, if_pos (hc.mp h)]
    exact hp h
  · rw [if_neg h, if_neg (mt hc.mpr h)]
    exact hp' h

lemma ite {c c' : Prop} [Decidable c] [Decidable c'] {p p' : StateT σ (Except ε) α}
    {q q' : StateT σ (Except ε) β} (hc : c ↔ c') (hp : m.Follows E p q)
    (hp' : m.Follows E p' q') : m.Follows E (if c then p else p') (if c' then q else q') :=
  .split hc (fun _ => hp) fun _ => hp'

lemma toOption_eq {p : StateT σ (Except ε) α} {q : StateT σ (Except ε) β} (h : m.Follows E p q)
    (s : σ) : (p s).toOption.map (fun r => (E r.1, m.state r.2)) = (q (m.state s)).toOption := by
  have hs := h s
  cases hp : p s with
  | ok r =>
    rw [hp] at hs
    rw [hs]
    rfl
  | error e =>
    rw [hp] at hs
    obtain ⟨e', hq, -⟩ := hs
    rw [hq]
    rfl

end Follows

lemma follows_error {p : StateT σ (Except ε) α} {q : StateT σ (Except ε) β}
    (h : ∀ s, ∃ e e', p s = .error e ∧ q (m.state s) = .error e' ∧ m.error e e') :
    m.Follows E p q := by
  intro s
  obtain ⟨e, e', hp, hq, he⟩ := h s
  rw [hp]
  exact ⟨e', hq, he⟩

end Move

section

def Position.lineOne : Position := ⟨1, 0⟩

def Span.flat (_ : Span) : Span := .at .lineOne

def Ident.flat (id : Ident) : Ident := { id with span := id.span.flat }

mutual

def Expr.flat : Expr → Expr
  | .ident id => .ident id.flat
  | .nil s => .nil s.flat
  | .bool s b => .bool s.flat b
  | .number s raw => .number s.flat raw
  | .string s raw long => .string s.flat raw long
  | .vararg s => .vararg s.flat
  | .function s params isVararg body =>
    .function s.flat (params.map Ident.flat) isVararg (Stmt.flatAll body)
  | .binary s op left right => .binary s.flat op left.flat right.flat
  | .unary s op operand => .unary s.flat op operand.flat
  | .member s object key computed =>
    .member s.flat object.flat key.flat computed
  | .call s callee method args =>
    .call s.flat callee.flat (method.map Ident.flat) (Expr.flatAll args)
  | .paren s inner => .paren s.flat inner.flat
  | .table s fields => .table s.flat (Field.flatAll fields)

def Expr.flatAll : List Expr → List Expr
  | [] => []
  | e :: rest => e.flat :: Expr.flatAll rest

def Field.flat : Field → Field
  | .mk s kind key value => .mk s.flat kind key.flat value.flat

def Field.flatAll : List Field → List Field
  | [] => []
  | f :: rest => f.flat :: Field.flatAll rest

def Stmt.flat : Stmt → Stmt
  | .assign s targets values =>
    .assign s.flat (Expr.flatAll targets) (Expr.flatAll values)
  | .call s callee method args =>
    .call s.flat callee.flat (method.map Ident.flat) (Expr.flatAll args)
  | .declare s names values =>
    .declare s.flat (names.map Ident.flat) (Expr.flatAll values)
  | .function s target isMethod bodySpan params isVararg body =>
    .function s.flat target.flat isMethod bodySpan.flat
      (params.map Ident.flat) isVararg (Stmt.flatAll body)
  | .localFunction s name bodySpan params isVararg body =>
    .localFunction s.flat name.flat bodySpan.flat (params.map Ident.flat)
      isVararg (Stmt.flatAll body)
  | .scope s body => .scope s.flat (Stmt.flatAll body)
  | .while s cond body => .while s.flat cond.flat (Stmt.flatAll body)
  | .repeat s body cond => .repeat s.flat (Stmt.flatAll body) cond.flat
  | .cond s test body otherwise =>
    .cond s.flat test.flat (Stmt.flatAll body) otherwise.flat
  | .numericFor s name first limit none body =>
    .numericFor s.flat name.flat first.flat limit.flat none (Stmt.flatAll body)
  | .numericFor s name first limit (some step) body =>
    .numericFor s.flat name.flat first.flat limit.flat (some step.flat) (Stmt.flatAll body)
  | .genericFor s names exprs body =>
    .genericFor s.flat (names.map Ident.flat) (Expr.flatAll exprs) (Stmt.flatAll body)
  | .return s values => .return s.flat (Expr.flatAll values)
  | .break s => .break s.flat

def Stmt.flatAll : List Stmt → List Stmt
  | [] => []
  | s :: rest => s.flat :: Stmt.flatAll rest

def Otherwise.flat : Otherwise → Otherwise
  | .none => .none
  | .elseIf s test body otherwise =>
    .elseIf s.flat test.flat (Stmt.flatAll body) otherwise.flat
  | .block s body => .block s.flat (Stmt.flatAll body)

end

def SourceTree.flat (tree : SourceTree) : SourceTree := ⟨⟨.first, .lineOne⟩, Stmt.flatAll tree.body⟩

lemma Expr.flatAll_eq_map (es : List Expr) : Expr.flatAll es = es.map flat := by
  induction es with
  | nil => rfl
  | cons e es ih => rw [Expr.flatAll, ih, List.map_cons]

lemma Field.flatAll_eq_map (fs : List Field) : Field.flatAll fs = fs.map flat := by
  induction fs with
  | nil => rfl
  | cons f fs ih => rw [Field.flatAll, ih, List.map_cons]

lemma Stmt.flatAll_eq_map (body : List Stmt) : Stmt.flatAll body = body.map flat := by
  induction body with
  | nil => rfl
  | cons s body ih => rw [Stmt.flatAll, ih, List.map_cons]

@[simp] lemma Expr.span_flat (e : Expr) : e.flat.span = .at .lineOne := by
  cases e <;> rfl

@[simp] lemma Stmt.span_flat (s : Stmt) : s.flat.span = .at .lineOne := by
  cases s with
  | numericFor span name first limit step body => cases step <;> rfl
  | _ => rfl

@[simp] lemma Expr.isMultiValued_flat (e : Expr) : e.flat.isMultiValued = e.isMultiValued := by
  cases e <;> rfl

@[simp] lemma Expr.isAssignable_flat (e : Expr) : e.flat.isAssignable = e.isAssignable := by
  cases e <;> rfl

def plainWord (word : Bytes) : Bytes :=
  if word == "fun" then "function"
  else if word == "let" then "local"
  else word

namespace Token

def plainValue (t : Token) : Bytes := if t.kind = .keyword then plainWord t.value else t.value

def flat (t : Token) : Token :=
  { t with span := t.span.flat, value := t.plainValue }

def isPlain (text : Bytes) : Bool :=
  ["fun", "function", "let", "local"].all fun word => text != .ofString word

lemma plainWord_eq_iff {word text : Bytes} (h : isPlain text = true) :
    plainWord word = text ↔ word = text := by
  simp only [isPlain, List.all_cons, List.all_nil, Bool.and_true, Bool.and_eq_true, bne_iff_ne] at h
  obtain ⟨hfu, hf, hle, hl⟩ := h
  unfold plainWord
  split
  · next hw =>
    rw [beq_iff_eq] at hw
    subst hw
    exact ⟨fun heq => absurd heq.symm hf, fun heq => absurd heq.symm hfu⟩
  · split
    · next hw =>
      rw [beq_iff_eq] at hw
      subst hw
      exact ⟨fun heq => absurd heq.symm hl, fun heq => absurd heq.symm hle⟩
    · exact Iff.rfl

lemma is_iff {t : Token} {text : Bytes} :
    t.is text = true ↔ (t.kind = .sign ∨ t.kind = .keyword) ∧ t.value = text := by
  simp [Token.is]

variable (t : Token)

@[simp] lemma kind_flat : t.flat.kind = t.kind := rfl

lemma value_flat : t.flat.value = t.plainValue := rfl

lemma value_flat_of_ne {t : Token} (h : t.kind ≠ .keyword) : t.flat.value = t.value := by
  rw [value_flat, plainValue, if_neg h]

lemma is_flat (text : Bytes) (h : isPlain text = true) : t.flat.is text = t.is text := by
  rw [Bool.eq_iff_iff, is_iff, is_iff, kind_flat, value_flat, plainValue]
  split
  · rw [plainWord_eq_iff h]
  · exact Iff.rfl

lemma is_flat_or {long short : Bytes}
    (h : ∀ word, plainWord word = long ∨ plainWord word = short ↔ word = long ∨ word = short) :
    (t.flat.is long || t.flat.is short) = (t.is long || t.is short) := by
  rw [Bool.eq_iff_iff, Bool.or_eq_true, Bool.or_eq_true, is_iff, is_iff, is_iff, is_iff,
    kind_flat, value_flat, plainValue, ← and_or_left, ← and_or_left]
  split
  · rw [h]
  · exact Iff.rfl

lemma isFunctionWord_flat : t.flat.isFunctionWord = t.isFunctionWord := by
  refine t.is_flat_or fun word => ?_
  unfold plainWord
  split
  · next h => simp_all
  · split
    · next h =>
      rw [beq_iff_eq] at h
      subst h
      decide
    · exact Iff.rfl

lemma isLocalWord_flat : t.flat.isLocalWord = t.isLocalWord := by
  refine t.is_flat_or fun word => ?_
  unfold plainWord
  split
  · next h =>
    rw [beq_iff_eq] at h
    subst h
    decide
  · split
    · next h => simp_all
    · exact Iff.rfl

lemma endsBlock_flat : t.flat.endsBlock = t.endsBlock := by
  have hel := t.is_flat "else" (by decide)
  have he := t.is_flat "elseif" (by decide)
  have hen := t.is_flat "end" (by decide)
  have hu := t.is_flat "until" (by decide)
  simp only [endsBlock, hel, he, hen, hu]
  rfl

end Token

end

end LuaBytecode
