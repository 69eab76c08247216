import LuaBytecode.Proofs.Grammar.Derivation
import LuaBytecode.Proofs.Grammar.Stream

namespace LuaBytecode

namespace SyntaxNode

structure Nested (x : SyntaxNode) : Prop where
  ordered : x.span.start ≤ x.span.stop
  contains : ∀ c ∈ x.children, x.span.start ≤ c.span.start ∧ c.span.stop ≤ x.span.stop

structure Sound (k : Nat) (x : SyntaxNode) : Prop extends x.Nested where
  proper : x.Proper k

end SyntaxNode

namespace TokenStream

def here (s : TokenStream) : Position := s.current.span.start

def InOrder (s : TokenStream) : Prop := Token.InOrder s.prevEnd s.tokens

variable {s : TokenStream}

lemma InOrder.prevEnd_le (h : s.InOrder) : s.prevEnd ≤ s.here := h.head.1

lemma InOrder.span (h : s.InOrder) : s.here ≤ s.current.span.stop := h.head.2.1

lemma InOrder.proper (h : s.InOrder) (hk : s.current.kind ≠ .eof ∧ s.current.kind ≠ .error) :
    s.current.Proper := (h.head.2.2.resolve_left hk.1).resolve_left hk.2

lemma InOrder.advance (h : s.InOrder) : s.advance.InOrder := by
  obtain ⟨current, rest, marks, prevEnd, failure⟩ := s
  cases rest with
  | nil => exact h
  | cons t rest =>
    cases h with
    | cons _ _ _ h => exact h

lemma InOrder.prevEnd_advance (h : s.InOrder)
    (hk : s.current.kind ≠ .eof ∧ s.current.kind ≠ .error) :
    s.advance.prevEnd = s.current.span.stop := by
  obtain ⟨current, rest, marks, prevEnd, failure⟩ := s
  cases rest with
  | nil =>
    cases h with
    | last _ _ he => exact absurd he (not_or.mpr hk)
    | cons _ _ _ h => cases h
  | cons t rest => rfl

lemma length_le_of_append {s' : TokenStream} {ts : List Token} (h : s.tokens = ts ++ s'.tokens) :
    s'.rest.length ≤ s.rest.length := by
  have hl := congrArg List.length h
  simp only [tokens, List.length_append, List.length_cons] at hl
  omega

lemma length_lt_of_cons {s' : TokenStream} {t : Token} (h : s.tokens = t :: s'.tokens) :
    s'.rest.length < s.rest.length := by
  have hl := congrArg List.length h
  simp only [tokens, List.length_cons] at hl
  omega

end TokenStream

namespace Parser

variable {s s' s₀ s₁ s₂ : TokenStream} {ns ns' : List SyntaxNode} {x : SyntaxNode}
  {k : Nat}

def leaf (t : Token) : SyntaxNode := .block t.span []

structure Grows (k : Nat) (s s' : TokenStream) (ns : List SyntaxNode) : Prop where
  inOrder : s'.InOrder
  here_le : s.here ≤ s'.here
  prevEnd_le : s.prevEnd ≤ s'.prevEnd
  nodes : ∀ x ∈ ns, x.Everywhere (SyntaxNode.Sound k) ∧ s.here ≤ x.span.start ∧
    x.span.stop ≤ s'.prevEnd

namespace Grows

lemma refl (h : s.InOrder) : Grows k s s [] := ⟨h, le_rfl, le_rfl, nofun⟩

lemma sub (h : Grows k s s' ns) (hs : ∀ x ∈ ns', x ∈ ns) : Grows k s s' ns' :=
  { h with nodes := fun x hx => h.nodes x (hs x hx) }

lemma trans (h : Grows k s s₁ ns) (h' : Grows k s₁ s₂ ns') : Grows k s s₂ (ns' ++ ns) where
  inOrder := h'.inOrder
  here_le := h.here_le.trans h'.here_le
  prevEnd_le := h.prevEnd_le.trans h'.prevEnd_le
  nodes x hx := by
    rcases List.mem_append.mp hx with hx | hx
    · obtain ⟨hs, hst, hstop⟩ := h'.nodes x hx
      exact ⟨hs, h.here_le.trans hst, hstop⟩
    · obtain ⟨hs, hst, hstop⟩ := h.nodes x hx
      exact ⟨hs, hst, hstop.trans h'.prevEnd_le⟩

section

variable (h : Grows k s s' ns)
include h

lemma ordered (hx : x ∈ ns) : x.span.start ≤ x.span.stop := ((h.nodes x hx).1 x .self).ordered

lemma moved (hne : ns ≠ []) : s.here ≤ s'.prevEnd := by
  obtain ⟨x, hx⟩ := List.exists_mem_of_ne_nil ns hne
  obtain ⟨-, hs, hst⟩ := h.nodes x hx
  exact hs.trans ((h.ordered hx).trans hst)

lemma add (hs : s.here ≤ x.span.start) (hst : x.span.stop ≤ s'.prevEnd)
    (hsp : x.span.start ≤ x.span.stop)
    (hc : ∀ c ∈ x.children, c ∈ ns ∧ x.span.start ≤ c.span.start ∧ c.span.stop ≤ x.span.stop)
    (hp : x.Proper k) : Grows k s s' (x :: ns) := by
  refine { h with nodes := List.forall_mem_cons.mpr ⟨⟨?_, hs, hst⟩, h.nodes⟩ }
  exact SyntaxNode.everywhere_of ⟨⟨hsp, fun c hm => (hc c hm).2⟩, hp⟩
    fun c hm => (h.nodes c (hc c hm).1).1

lemma close (hne : ns ≠ []) (hs : x.span = ⟨s.here, s'.prevEnd⟩)
    (hc : ∀ c ∈ x.children, c ∈ ns) (hp : x.Proper k) : Grows k s s' (x :: ns) := by
  have hmo := h.moved hne
  refine h.add ?_ ?_ ?_ (fun c hm => ⟨hc c hm, ?_, ?_⟩) hp <;> rw [hs]
  · exact hmo
  · exact (h.nodes c (hc c hm)).2.1
  · exact (h.nodes c (hc c hm)).2.2

lemma point (hne : ns ≠ []) {p : Position} (hp : p = s.here ∨ p = s'.prevEnd)
    (hs : x.span = .at p) (hc : x.children = []) (hpr : x.Proper k) : Grows k s s' (x :: ns) := by
  have hm := h.moved hne
  refine h.add ?_ ?_ ?_ (by simp [hc]) hpr <;> rw [hs] <;>
    rcases hp with rfl | rfl <;> first | exact le_rfl | exact hm

end

lemma step (h : s.InOrder) : Grows k s s.advance [] := by
  refine ⟨h.advance, ?_, ?_, nofun⟩
  all_goals
    have hp := h.advance.prevEnd_le
    obtain ⟨current, rest, marks, prevEnd, failure⟩ := s
    cases rest with
    | nil => exact le_rfl
    | cons t rest => first | exact h.span.trans hp | exact h.prevEnd_le.trans h.span

lemma advance (h : s.InOrder) (hk : s.current.kind ≠ .eof ∧ s.current.kind ≠ .error)
    (hs : x.span = s.current.span) (hc : x.children = []) (hp : x.Proper k) :
    Grows k s s.advance [x] := by
  refine (step h).add ?_ ?_ ?_ (by simp [hc]) hp <;> rw [hs]
  · exact le_rfl
  · rw [h.prevEnd_advance hk]
  · exact h.span

end Grows

/-- The nodes that are made since `s₀`, for a text that is in order. -/
structure Left (k n : Nat) (s₀ s : TokenStream) (ns : List SyntaxNode) : Prop where
  ready : s.Ready n
  failure : s.failure = s₀.failure
  grows : s₀.InOrder → Grows k s₀ s ns

variable {α β : Type} {n : Nat} {p q : Parser α} {f : α → Parser β} {nodes : α → List SyntaxNode}
  {post : β → List SyntaxNode} {D : α → List Token → Prop} {Q : β → List Token → Prop}
  {R : α → TokenStream → Prop} {ts : List Token} {text : String}

def Blames (failure : Option LexicalError) (cause : ParseCause) : Prop :=
  cause ≠ .noMark ∧ ∀ e, cause = .lexical e → failure = some e

def Outcome (failure : Option LexicalError) (R : α → TokenStream → Prop) :
    Except ParseFault (α × TokenStream) → Prop
  | .ok r => R r.1 r.2
  | .error e => Blames failure e.cause

variable {failure : Option LexicalError}

lemma Outcome.mono {R' : α → TokenStream → Prop} {x : Except ParseFault (α × TokenStream)}
    (h : Outcome failure R x) (hi : ∀ a s, R a s → R' a s) : Outcome failure R' x := by
  cases x with
  | error e => exact h
  | ok r => exact hi r.1 r.2 h

lemma Outcome.bind {R' : β → TokenStream → Prop} (hp : Outcome failure R (p s))
    (hf : ∀ a s', R a s' → Outcome failure R' (f a s')) : Outcome failure R' ((p >>= f) s) := by
  show Outcome failure R' (p s >>= fun r => f r.1 r.2)
  cases hr : p s with
  | error e => exact (hr ▸ hp : Outcome failure R (.error e))
  | ok r => exact hf r.1 r.2 (hr ▸ hp : Outcome failure R (.ok r))

def Since (k n : Nat) (s₀ s : TokenStream) (ns : List SyntaxNode) (p : Parser α)
    (nodes : α → List SyntaxNode) (D : α → List Token → Prop) : Prop :=
  Left k n s₀ s ns → Outcome s₀.failure (fun a s' => ∃ ts, s.tokens = ts ++ s'.tokens ∧
    Left k n s₀ s' (nodes a) ∧ D a ts) (p s)

class Builds (k n : Nat) (nodes : outParam (α → List SyntaxNode))
    (D : outParam (α → List Token → Prop)) (p : Parser α) : Prop where
  run : ∀ s, Since k n s s [] p nodes D

namespace Since

lemma ok {a : α} (h : Since k n s s [] p nodes D) (hs : s.Ready n) (hr : p s = .ok (a, s')) :
    ∃ ts, s.tokens = ts ++ s'.tokens ∧ Left k n s s' (nodes a) ∧ D a ts := by
  have ho := h ⟨hs, rfl, .refl⟩
  rwa [hr] at ho

lemma cause {e : ParseFault} (h : Since k n s s [] p nodes D) (hs : s.Ready n)
    (hr : p s = .error e) : Blames s.failure e.cause := by
  have ho := h ⟨hs, rfl, .refl⟩
  rwa [hr] at ho

lemma error {e : ParseFault} (h : p s = .error e) (he : Blames s.failure e.cause) :
    Since k n s₀ s ns p nodes D := fun hl => h ▸ hl.failure ▸ he

lemma unexpected {want : Expected} : Since k n s₀ s ns (unexpected want) nodes D := by
  refine .error rfl ?_
  unfold faultAt
  split
  · next e _ hfailure => exact ⟨nofun, fun e' he => by cases he; exact hfailure⟩
  · exact ⟨nofun, nofun⟩

lemma pure {a : α} (hD : D a []) (h : ∀ x ∈ nodes a, x ∈ ns) :
    Since k n s₀ s ns (pure a) nodes D :=
  fun hl => ⟨[], rfl, { hl with grows := fun ho => (hl.grows ho).sub h }, hD⟩

lemma mono {D' : α → List Token → Prop} (h : Since k n s₀ s ns p nodes D)
    (hi : ∀ a ts, D a ts → D' a ts) : Since k n s₀ s ns p nodes D' :=
  fun hl => (h hl).mono fun a _ ⟨ts, ht, hl', hD⟩ => ⟨ts, ht, hl', hi a ts hD⟩

lemma sub {nodes' : α → List SyntaxNode} (h : Since k n s₀ s ns p nodes D)
    (hs : ∀ a, ∀ x ∈ nodes' a, x ∈ nodes a) : Since k n s₀ s ns p nodes' D :=
  fun hl => (h hl).mono fun a _ ⟨ts, ht, hl', hD⟩ =>
    ⟨ts, ht, { hl' with grows := fun ho => (hl'.grows ho).sub (hs a) }, hD⟩

lemma of_ready (h : s.Ready n → Since k n s₀ s ns p nodes D) : Since k n s₀ s ns p nodes D :=
  fun hl => h hl.ready hl

lemma of_grows (ns' : List SyntaxNode) (h : Since k n s₀ s ns' p nodes D)
    (hg : Grows k s₀ s ns → Grows k s₀ s ns') :
    Since k n s₀ s ns p nodes D := fun hl => h { hl with grows := fun ho => hg (hl.grows ho) }

lemma of_tokens {x : Except ParseFault (α × TokenStream)} (ts : List Token)
    (ht : s.tokens = ts ++ s'.tokens)
    (h : Since k n s₀ s' ns' p nodes fun a ts' => D a (ts ++ ts')) (hr : x = p s')
    (hl : Left k n s₀ s' ns') : Outcome s₀.failure (fun a s' => ∃ ts, s.tokens = ts ++ s'.tokens ∧
      Left k n s₀ s' (nodes a) ∧ D a ts) x := by
  rw [hr]
  refine (h hl).mono ?_
  rintro a s'' ⟨ts', ht', hb⟩
  exact ⟨ts ++ ts', by rw [ht, ht', List.append_assoc], hb⟩

lemma ite {c : Prop} [Decidable c] (hp : c → Since k n s₀ s ns p nodes D)
    (hq : ¬c → Since k n s₀ s ns q nodes D) : Since k n s₀ s ns (if c then p else q) nodes D := by
  split
  · next h => exact hp h
  · next h => exact hq h

lemma ite_bind {c : Prop} [Decidable c] (hp : c → Since k n s₀ s ns (p >>= f) post Q)
    (hq : ¬c → Since k n s₀ s ns (q >>= f) post Q) :
    Since k n s₀ s ns ((if c then p else q) >>= f) post Q := by
  split
  · next h => exact hp h
  · next h => exact hq h

lemma seq (hp : Since k n s₀ s ns p nodes D)
    (hf : ∀ a ts s', s.tokens = ts ++ s'.tokens → D a ts →
      Since k n s₀ s' (nodes a) (f a) post fun b ts' => Q b (ts ++ ts')) :
    Since k n s₀ s ns (p >>= f) post Q := by
  refine fun hl => (hp hl).bind ?_
  rintro a s' ⟨ts, ht, hl', hD⟩
  exact of_tokens ts ht (hf a ts s' ht hD) rfl hl'

/-- A parser that does not know of the nodes before it. -/
lemma on (hp : Since k n s s [] p nodes D) : Since k n s₀ s ns p (fun a => nodes a ++ ns) D := by
  intro hl
  have ho := hp ⟨hl.ready, rfl, .refl⟩
  rw [hl.failure] at ho
  exact ho.mono fun _ _ ⟨ts, ht, hl', hD⟩ => ⟨ts, ht, ⟨hl'.ready, hl'.failure.trans hl.failure,
    fun ho => (hl.grows ho).trans (hl'.grows (hl.grows ho).inOrder)⟩, hD⟩

lemma «then» [h : Builds k n nodes D p]
    (hf : ∀ a ts s', s.tokens = ts ++ s'.tokens → D a ts →
      Since k n s₀ s' (nodes a ++ ns) (f a) post fun b ts' => Q b (ts ++ ts')) :
    Since k n s₀ s ns (p >>= f) post Q := (h.run s).on.seq hf

lemma current {f : Token → Parser β} (h : Since k n s₀ s ns (f s.current) post Q) :
    Since k n s₀ s ns (current >>= f) post Q := h

lemma get {f : TokenStream → Parser β} (h : Since k n s₀ s ns (f s) post Q) :
    Since k n s₀ s ns (get >>= f) post Q := h

lemma «at» {f : Bool → Parser β} (h : ∀ b, Since k n s₀ s ns (f b) post Q) :
    Since k n s₀ s ns (at? text >>= f) post Q := h _

lemma advance {f : Unit → Parser β} (x : SyntaxNode)
    (hk : s.current.kind ≠ .eof ∧ s.current.kind ≠ .error) (hs : x.span = s.current.span)
    (hc : x.children = []) (hp : s.current.Proper → x.Proper k)
    (h : ∀ s', s.tokens = s.current :: s'.tokens →
      Since k n s₀ s' (x :: ns) (f ()) post fun b ts => Q b (s.current :: ts)) :
    Since k n s₀ s ns (advance >>= f) post Q := by
  intro hl
  have ht := hl.ready.advance hk
  have hr := hl.ready.suffix [s.current] ht
  have hf : s.advance.failure = s.failure := by
    unfold TokenStream.advance
    split <;> rfl
  refine of_tokens [s.current] ht (h s.advance ht) rfl ⟨hr, hf.trans hl.failure, fun ho => ?_⟩
  have hg := hl.grows ho
  exact hg.trans (.advance hg.inOrder hk hs hc (hp (hg.inOrder.proper hk)))

lemma skip {f : Unit → Parser β} (hk : s.current.kind ≠ .eof ∧ s.current.kind ≠ .error)
    (h : ∀ s', s.tokens = s.current :: s'.tokens →
      Since k n s₀ s' (leaf s.current :: ns) (f ()) post fun b ts => Q b (s.current :: ts)) :
    Since k n s₀ s ns (Parser.advance >>= f) post Q :=
  .advance (leaf s.current) hk rfl rfl (fun _ => trivial) h

lemma symbol (text : String) :
    Since k n s₀ s ns (Parser.expect text) (fun _ => leaf s.current :: ns) fun _ ts =>
      ts = [s.current] ∧ s.current.Spells text := by
  refine .current (.ite (fun h => ?_) fun _ => .unexpected)
  exact .skip (f := Pure.pure) (Token.is_kind h) fun _ _ => .pure ⟨rfl, h⟩ fun _ hx => hx

lemma expect {f : Unit → Parser β} (h : ∀ t s', t.Spells text →
      Since k n s₀ s' (leaf t :: ns) (f ()) post fun b ts => Q b (t :: ts)) :
    Since k n s₀ s ns (Parser.expect text >>= f) post Q := by
  refine (symbol text).seq ?_
  rintro - _ s' - ⟨rfl, ht⟩
  exact h s.current s' ht

lemma accept {f : Bool → Parser β}
    (hy : ∀ s', s.current.Spells text → s.tokens = s.current :: s'.tokens →
      Since k n s₀ s' (leaf s.current :: ns) (f true) post fun b ts => Q b (s.current :: ts))
    (hno : Since k n s₀ s ns (f false) post Q) :
    Since k n s₀ s ns (Parser.accept text >>= f) post Q := by
  have hr : (Parser.accept text >>= f) s = (if s.current.is (.ofString text) then
      Parser.advance >>= fun _ => f true else f false) s := by
    show ((if _ then _ else _ : Parser Bool) >>= f) s = _
    split <;> rfl
  intro hl
  refine of_tokens [] rfl ?_ hr hl
  exact .ite (fun h => .skip (Token.is_kind h) fun s' => hy s' h) fun _ => hno

lemma name {f : Ident → Parser β}
    (h : ∀ id t s', s.tokens = t :: s'.tokens → t.Names id →
      (s₀.InOrder → ∀ x ∈ ns, x.span.stop ≤ id.span.start) →
      Since k n s₀ s' (.ident id :: ns) (f id) post fun b ts => Q b (t :: ts)) :
    Since k n s₀ s ns (Parser.name >>= f) post Q := by
  have hr : (Parser.name >>= f) s = (if s.current.kind = .name
      then Parser.advance >>= fun _ => f ⟨s.current.span, s.current.value⟩
      else .unexpected .name) s := by
    show ((if _ then _ else _ : Parser Ident) >>= f) s = _
    split <;> rfl
  intro hl
  refine of_tokens [] rfl (.ite (fun hk => ?_) fun _ => .unexpected) hr hl
  refine .advance (.ident ⟨s.current.span, s.current.value⟩) (by simp [hk]) rfl rfl ?_
    fun s' ht => h _ s.current s' ht ⟨hk, rfl⟩ fun ho x hx => ?_
  · simp only [Token.Proper, hk]
    exact id
  · have hg := hl.grows ho
    exact (hg.nodes x hx).2.2.trans hg.inOrder.prevEnd_le

lemma node {f : Span → Parser β} (x : Span → SyntaxNode)
    (hc : ∀ span, ∀ c ∈ (x span).children, c ∈ ns)
    (h : ∀ span, Since k n s₀ s (x span :: ns) (f span) post Q)
    (hp : ∀ span, (x span).Proper k := by intro; trivial) (hne : ns ≠ [] := by simp)
    (hs : ∀ span, (x span).span = span := by intro; rfl) :
    Since k n s₀ s ns (spanFrom s₀.here >>= f) post Q :=
  (h ⟨s₀.here, s.prevEnd⟩).of_grows _ fun hg => hg.close hne (hs _) (hc _) (hp _)

/-- The last node is what is returned. -/
lemma last {x : Span → α} {node : α → SyntaxNode}
    (hc : ∀ span, ∀ c ∈ (node (x span)).children, c ∈ ns) (hD : ∀ span, D (x span) [])
    (hp : ∀ span, (node (x span)).Proper k := by intro; trivial) (hne : ns ≠ [] := by simp)
    (hs : ∀ span, (node (x span)).span = span := by intro; rfl) :
    Since k n s₀ s ns (do return x (← spanFrom s₀.here)) (fun a => [node a]) D :=
  .node (fun span => node (x span)) hc (fun span => .pure (hD span) (by simp)) hp hne hs

lemma point (x : SyntaxNode) (h : Since k n s₀ s (x :: ns) p nodes D)
    (hs : x.span = .at s₀.here ∨ x.span = .at s.prevEnd) (hc : x.children = [])
    (hp : x.Proper k) (hne : ns ≠ [] := by simp) : Since k n s₀ s ns p nodes D :=
  h.of_grows _ fun hg => hs.elim (fun hx => hg.point hne (.inl rfl) hx hc hp)
    fun hx => hg.point hne (.inr rfl) hx hc hp

/-- A list behind the part of it that is read. -/
lemma more {γ : Type} {a : γ} {done : List γ} {p : Parser (List γ)}
    {nodes : List γ → List SyntaxNode} {D D' : List γ → List Token → Prop}
    (h : Since k n s₀ s ns p nodes fun as ts => ∃ as', as = (a :: done).reverse ++ as' ∧ D as' ts)
    (hD : ∀ as ts, D as ts → D' (a :: as) ts) :
    Since k n s₀ s ns p nodes fun as ts => ∃ as', as = done.reverse ++ as' ∧ D' as' ts := by
  refine h.mono ?_
  rintro _ ts ⟨as, rfl, has⟩
  exact ⟨a :: as, by simp, hD as ts has⟩

lemma all {γ : Type} {p : Parser (List γ)} {nodes : List γ → List SyntaxNode}
    {D : List γ → List Token → Prop} (h : Since k n s₀ s ns p nodes fun as ts =>
      ∃ as', as = [].reverse ++ as' ∧ D as' ts) : Since k n s₀ s ns p nodes D := by
  refine h.mono ?_
  rintro _ ts ⟨as, rfl, has⟩
  exact has

end Since

end Parser

end LuaBytecode
