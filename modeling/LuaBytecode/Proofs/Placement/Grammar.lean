import LuaBytecode.Grammar
import LuaBytecode.Proofs.Placement.Tree

namespace LuaBytecode

open Token LuaBytecode.Parser

def TokenStream.flat (s : TokenStream) : TokenStream where
  current := s.current.flat
  rest := s.rest.map Token.flat
  marks := s.marks.map (·.map Token.flat)
  prevEnd := .lineOne
  failure := none

lemma TokenStream.advance_flat (s : TokenStream) : s.flat.advance = s.advance.flat := by
  obtain ⟨current, rest, marks, prevEnd, failure⟩ := s
  cases rest <;> rfl

namespace Parser

variable {α β γ δ : Type} {E : α → β} {F : γ → δ} {text : Bytes} {p p' : Parser α} {q q' : Parser β}

def move : Move TokenStream ParseFault := ⟨TokenStream.flat, fun _ _ => True⟩

class Follows (E : outParam (α → β)) (p : Parser α) (q : Parser β) : Prop where
  run : move.Follows E p q

lemma Follows.bind {p : Parser α} {q : Parser β} {f : α → Parser γ} {f' : β → Parser δ}
    (h : Follows E p q) (hf : ∀ a, Follows F (f a) (f' (E a))) : Follows F (p >>= f) (q >>= f') :=
  ⟨h.run.bind fun a => (hf a).run⟩

lemma Follows.then {p : Parser α} {q : Parser β} {f : α → Parser γ} {f' : β → Parser δ}
    [h : Follows E p q] (hf : ∀ a, Follows F (f a) (f' (E a))) : Follows F (p >>= f) (q >>= f') :=
  h.bind hf

lemma Follows.pure {a : α} {b : β} (h : b = E a := by rfl) : Follows E (pure a) (pure b) :=
  ⟨Move.follows_pure h⟩

lemma Follows.split {c c' : Prop} [Decidable c] [Decidable c'] (hc : c ↔ c')
    (hp : c → Follows E p q) (hp' : ¬c → Follows E p' q') :
    Follows E (if c then p else p') (if c' then q else q') :=
  ⟨.split hc (fun h => (hp h).run) fun h => (hp' h).run⟩

lemma Follows.ite {c c' : Prop} [Decidable c] [Decidable c'] (hp : Follows E p q)
    (hp' : Follows E p' q') (hc : c ↔ c' := by exact Iff.rfl) :
    Follows E (if c then p else p') (if c' then q else q') :=
  .split hc (fun _ => hp) fun _ => hp'

lemma is_iff_flat (t : Token) (h : isPlain text = true) :
    t.is text = true ↔ t.flat.is text = true := by
  rw [t.is_flat text h]

lemma Follows.is {t : Token} (hp : Follows E p q) (hp' : Follows E p' q')
    (h : isPlain text = true := by decide) :
    Follows E (if t.is text then p else p') (if t.flat.is text then q else q') :=
  .ite hp hp' (is_iff_flat t h)

lemma follows_error {p : Parser α} {q : Parser β} (hp : ∀ s, ∃ e, p s = .error e)
    (hq : ∀ s, ∃ e, q s = .error e) : Follows E p q := by
  refine ⟨Move.follows_error fun s => ?_⟩
  obtain ⟨e, he⟩ := hp s
  obtain ⟨e', he'⟩ := hq s.flat
  exact ⟨e, e', he, he', trivial⟩

lemma follows_unexpected {want : Expected} :
    Follows E (unexpected want : Parser α) (unexpected want : Parser β) :=
  follows_error (fun _ => ⟨_, rfl⟩) fun _ => ⟨_, rfl⟩

instance follows_current : Follows Token.flat current current := ⟨fun _ => rfl⟩

instance follows_get : Follows TokenStream.flat get get := ⟨fun _ => rfl⟩

instance follows_advance : Follows id advance advance := by
  refine ⟨fun s => ?_⟩
  show advance s.flat = .ok ((), s.advance.flat)
  rw [← s.advance_flat]
  rfl

instance follows_peek : Follows (Option.map Token.flat) peek peek := by
  refine ⟨fun s => ?_⟩
  obtain ⟨current, rest, marks, prevEnd, failure⟩ := s
  cases rest <;> rfl

instance follows_spanFrom (start : Position) :
    Follows Span.flat (spanFrom start) (spanFrom .lineOne) := ⟨fun _ => rfl⟩

instance follows_spanFrom_token (start : Position) (t : Token) :
    Follows Span.flat (spanFrom start) (spanFrom t.flat.span.start) :=
  follows_spanFrom start

lemma follows_expectSymbol (h : isPlain text = true) :
    Follows id (expectSymbol text) (expectSymbol text) :=
  .then fun _ => .is follows_advance follows_unexpected h

lemma follows_acceptSymbol (h : isPlain text = true) :
    Follows id (acceptSymbol text) (acceptSymbol text) :=
  .then fun _ => .is (.then fun _ => .pure) .pure h

lemma Follows.expect {text : String} {f : Unit → Parser α} {f' : Unit → Parser β}
    (hf : ∀ a, Follows E (f a) (f' a)) (h : isPlain (.ofString text) = true := by decide) :
    Follows E (expect text >>= f) (expect text >>= f') :=
  (follows_expectSymbol h).bind hf

lemma Follows.accept {text : String} {f : Bool → Parser α} {f' : Bool → Parser β}
    (hf : ∀ a, Follows E (f a) (f' a)) (h : isPlain (.ofString text) = true := by decide) :
    Follows E (accept text >>= f) (accept text >>= f') :=
  (follows_acceptSymbol h).bind hf

lemma Follows.at {text : String} {f : Bool → Parser α} {f' : Bool → Parser β}
    (hf : ∀ a, Follows E (f a) (f' a)) (h : isPlain (.ofString text) = true := by decide) :
    Follows E (at? text >>= f) (at? text >>= f') := by
  refine .bind (E := id) (.then fun t => .pure (t.is_flat _ h)) hf

instance follows_name : Follows Ident.flat name name := by
  refine .then fun t => ?_
  refine .split Iff.rfl (fun hk => ?_) fun _ => follows_unexpected
  have hv : t.flat.value = t.value := value_flat_of_ne (by simp [hk])
  refine .then fun _ => .pure ?_
  rw [hv]
  rfl

end Parser

class Level.Blind (lv : Level) : Prop where
  expr : ∀ limit, Follows Expr.flat (lv.expr limit) (lv.expr limit)
  stmt : Follows (Option.map Stmt.flat) lv.stmt lv.stmt
  elseIf : Follows Otherwise.flat lv.elseIf lv.elseIf

attribute [instance] Level.Blind.expr Level.Blind.stmt Level.Blind.elseIf

namespace Parser

variable {α β : Type} {E : α → β} {lv : Level} [lv.Blind]

instance follows_exprListFrom (n : Nat) (done : List Expr) :
    Follows Expr.flatAll (exprListFrom lv n done) (exprListFrom lv n (Expr.flatAll done)) := by
  have hr : ∀ es : List Expr, (Expr.flatAll es).reverse = Expr.flatAll es.reverse :=
    fun es => by simp only [Expr.flatAll_eq_map, List.map_reverse]
  induction n generalizing done with
  | zero => exact .pure (hr done)
  | succ n ih =>
    refine .then fun e => .accept fun more => ?_
    exact .ite (ih (e :: done)) (.pure (hr (e :: done)))

instance follows_exprList : Follows Expr.flatAll (exprList lv) (exprList lv) :=
  follows_exprListFrom lv.loops []

instance follows_returnValues :
    Follows Expr.flatAll (returnValues lv) (returnValues lv) := by
  refine .then fun t => .ite .pure follows_exprList ?_
  rw [t.endsBlock_flat, t.is_flat _ (by decide)]

instance follows_returnStatement :
    Follows Stmt.flat (returnStatement lv) (returnStatement lv) :=
  .then fun _ => .then fun _ => .then fun _ => .accept fun _ => .then fun _ => .pure

lemma endsBlock_iff (t : Token) : t.endsBlock = true ↔ t.flat.endsBlock = true := by
  rw [t.endsBlock_flat]

instance follows_blockFrom (n : Nat) (done : List Stmt) :
    Follows Stmt.flatAll (blockFrom lv n done) (blockFrom lv n (Stmt.flatAll done)) := by
  have hr : ∀ body : List Stmt, (Stmt.flatAll body).reverse = Stmt.flatAll body.reverse :=
    fun body => by simp only [Stmt.flatAll_eq_map, List.map_reverse]
  induction n generalizing done with
  | zero => exact .pure (hr done)
  | succ n ih =>
    refine .then fun t => .ite (.pure (hr done)) (.is ?_ ?_) (endsBlock_iff t)
    · refine .then fun ret => .then fun t' => ?_
      exact .ite (.pure (hr (ret :: done))) follows_unexpected (endsBlock_iff t')
    · refine .then fun o => ?_
      cases o with
      | some s => exact ih (s :: done)
      | none => exact ih done

instance follows_block : Follows Stmt.flatAll (block lv) (block lv) :=
  follows_blockFrom lv.loops []

lemma follows_closedBlock {close : Bytes} (hc : isPlain close = true) :
    Follows Stmt.flatAll (closedBlock lv close) (closedBlock lv close) :=
  .then fun _ => (follows_expectSymbol hc).bind fun _ => .pure

lemma Follows.closedBlock {close : Bytes} {f : List Stmt → Parser α} {f' : List Stmt → Parser β}
    (hf : ∀ body, Follows E (f body) (f' (Stmt.flatAll body)))
    (h : isPlain close = true := by decide) :
    Follows E (closedBlock lv close >>= f) (closedBlock lv close >>= f') :=
  (follows_closedBlock h).bind hf

def flatParams (r : List Ident × Bool) : List Ident × Bool := (r.1.map Ident.flat, r.2)

instance follows_paramsFrom (n : Nat) (done : List Ident) :
    Follows flatParams (paramsFrom n done) (paramsFrom n (done.map Ident.flat)) := by
  induction n generalizing done with
  | zero => exact .pure (by simp [flatParams])
  | succ n ih =>
    refine .accept fun dots => .ite (.pure (by simp [flatParams])) ?_
    refine .then fun t => .ite ?_ follows_unexpected
    refine .then fun id => .accept fun more => ?_
    exact .ite (ih (id :: done)) (.pure (by simp [flatParams]))

instance follows_params : Follows flatParams (params lv) (params lv) :=
  .at fun _ => .ite .pure (follows_paramsFrom lv.loops [])

def FunctionBody.flat (f : FunctionBody) : FunctionBody :=
  ⟨f.span.flat, f.params.map Ident.flat, f.isVararg, Stmt.flatAll f.body⟩

instance follows_functionBody (start : Position) (isMethod : Bool) :
    Follows FunctionBody.flat (functionBody lv start isMethod)
      (functionBody lv .lineOne isMethod) := by
  refine .expect fun _ => .then fun r => .expect fun _ => ?_
  refine .closedBlock fun body => .then fun span => .pure ?_
  cases isMethod <;> rfl

instance follows_isFieldName (t : Token) :
    Follows id (isFieldName t) (isFieldName t.flat) := by
  refine .ite (.then fun next => .pure ?_) .pure
  cases next with
  | none => rfl
  | some p => exact p.is_flat _ (by decide)

def flatKey (r : FieldKind × Expr × Nat) : FieldKind × Expr × Nat := (r.1, r.2.1.flat, r.2.2)

lemma isFieldName_of_ne {t : Token} (hk : t.kind ≠ .name) : isFieldName t = pure false := if_neg hk

instance follows_fieldKey (t : Token) (index : Nat) :
    Follows flatKey (fieldKey lv t index) (fieldKey lv t.flat index) := by
  refine .is ?_ ?_
  · refine .then fun _ => .then fun key => ?_
    exact .expect fun _ => .expect fun _ => .pure
  -- Only a name can be the key, and its text has one spelling.
  by_cases hk : t.kind = .name
  · have hv : t.flat.value = t.value := value_flat_of_ne (by simp [hk])
    refine .then fun isName => .ite ?_ .pure
    refine .then fun _ => .then fun _ => .pure ?_
    rw [hv]
    rfl
  · rw [isFieldName_of_ne hk, isFieldName_of_ne (t.kind_flat ▸ hk)]
    exact .pure

instance follows_field (index : Nat) :
    Follows (fun r => (r.1.flat, r.2)) (field lv index) (field lv index) := by
  refine .then fun t => .then fun r => ?_
  exact .then fun value => .then fun span => .pure

instance follows_acceptSeparator : Follows id acceptSeparator acceptSeparator :=
  .accept fun _ => .ite .pure (follows_acceptSymbol (by decide))

instance follows_fieldsFrom (n index : Nat) (done : List Field) :
    Follows Field.flatAll (fieldsFrom lv n index done)
      (fieldsFrom lv n index (Field.flatAll done)) := by
  have hr : ∀ fs : List Field, (Field.flatAll fs).reverse = Field.flatAll fs.reverse :=
    fun fs => by simp only [Field.flatAll_eq_map, List.map_reverse]
  induction n generalizing index done with
  | zero => exact .pure (hr done)
  | succ n ih =>
    refine .at fun closes => .ite (.pure (hr done)) ?_
    refine .then fun r => .then fun more => ?_
    exact .ite (ih r.2 (r.1 :: done)) (.pure (hr (r.1 :: done)))

instance follows_constructor : Follows Expr.flat (constructor lv) (constructor lv) := by
  refine .then fun t => .expect fun _ => ?_
  refine (follows_fieldsFrom lv.loops 1 []).bind fun fields => ?_
  exact .expect fun _ => .then fun span => .pure

instance follows_arguments : Follows Expr.flatAll (arguments lv) (arguments lv) := by
  refine .then fun t => ?_
  refine .split Iff.rfl (fun hk => ?_) fun _ => .is ?_ (.is ?_ follows_unexpected)
  · have hv : t.flat.value = t.value := value_flat_of_ne (by simp [hk])
    refine .then fun _ => .pure ?_
    rw [hv]
    rfl
  · exact .then fun e => .pure
  · refine .then fun _ => .accept fun closes => ?_
    exact .ite .pure (.then fun args => .expect fun _ => .pure)

lemma fieldOf_flat (object : Expr) (key : Ident) :
    fieldOf object.flat key.flat = (fieldOf object key).flat := by
  simp only [fieldOf, Expr.span_flat, Expr.flat]
  rfl

instance follows_primary : Follows Expr.flat (primary lv) (primary lv) := by
  refine .then fun t => .ite (.then fun _ => .pure) (.is ?_ follows_unexpected)
  exact .then fun _ => .then fun inner => .expect fun _ => .then fun span => .pure

instance follows_suffixesFrom (start : Position) (n : Nat) (e : Expr) :
    Follows Expr.flat (suffixesFrom lv start n e) (suffixesFrom lv .lineOne n e.flat) := by
  induction n generalizing e with
  | zero => exact .pure
  | succ n ih =>
    refine .then fun t => .is ?_ (.is ?_ (.is ?_ (.ite ?_ .pure ?_)))
    · refine .then fun _ => .then fun key => ?_
      rw [fieldOf_flat]
      exact ih (fieldOf e key)
    · refine .then fun _ => .then fun key => ?_
      refine .expect fun _ => .then fun span => ?_
      exact ih (.member span e key true)
    · refine .then fun _ => .then fun method => ?_
      refine .then fun args => .then fun span => ?_
      exact ih (.call span e (some method) args)
    · refine .then fun args => .then fun span => ?_
      exact ih (.call span e none args)
    · rw [t.is_flat _ (by decide), t.is_flat _ (by decide), t.kind_flat]

instance follows_suffixed : Follows Expr.flat (suffixed lv) (suffixed lv) :=
  .then fun t => .then fun e => follows_suffixesFrom t.span.start lv.loops e

instance follows_simple : Follows Expr.flat (simple lv) (simple lv) := by
  refine .then fun t => ?_
  have hw : t.isFunctionWord = true ↔ t.flat.isFunctionWord = true := by
    rw [t.isFunctionWord_flat]
  obtain ⟨kind, span, value, long⟩ := t
  cases kind with
  | number | string | nil | boolean => exact .then fun _ => .pure
  | _ =>
    refine .is (.then fun _ => .pure) (.is follows_constructor (.ite ?_ follows_suffixed hw))
    exact .then fun _ => (follows_functionBody _ false).bind fun f => .pure

lemma operator?_flat {ofText? : Bytes → Option α}
    (h : ∀ word ∈ ["fun", "function", "let", "local"], ofText? (.ofString word) = none)
    (t : Token) : operator? ofText? t.flat = operator? ofText? t := by
  have hp (word : Bytes) : ofText? (plainWord word) = ofText? word := by
    unfold plainWord
    split
    · next hw => rw [beq_iff_eq.mp hw, h "fun" (by simp), h "function" (by simp)]
    · split
      · next hw => rw [beq_iff_eq.mp hw, h "let" (by simp), h "local" (by simp)]
      · rfl
  have hv : ofText? t.flat.value = ofText? t.value := by
    rw [value_flat, plainValue]
    split
    · exact hp t.value
    · rfl
  rw [operator?, operator?, hv, kind_flat]

instance follows_operationsFrom (limit : Nat) (start : Position) (n : Nat) (e : Expr) :
    Follows Expr.flat (operationsFrom lv limit start n e)
      (operationsFrom lv limit .lineOne n e.flat) := by
  induction n generalizing e with
  | zero => exact .pure
  | succ n ih =>
    refine .then fun t => ?_
    rw [operator?_flat (by decide) t]
    split
    · next op _ =>
      refine .ite .pure (.then fun _ => ?_)
      refine .then fun right => .then fun span => ?_
      exact ih (.binary span op e right)
    · exact .pure

instance follows_subExpression (limit : Nat) :
    Follows Expr.flat (subExpression lv limit) (subExpression lv limit) := by
  refine .then fun t => .bind ?_ fun e =>
    follows_operationsFrom limit t.span.start lv.loops e
  unfold operand
  rw [operator?_flat (by decide) t]
  split
  · exact .then fun _ => .then fun e => .then fun span => .pure
  · exact follows_simple

lemma padValues_flat (values : List Expr) (n : Nat) (pos : Position) :
    padValues (Expr.flatAll values) n .lineOne = Expr.flatAll (padValues values n pos) := by
  simp only [padValues, Expr.flatAll_eq_map, List.getLast?_map]
  cases values.getLast? with
  | none => rfl
  | some last =>
    simp only [Option.map_some, Expr.isMultiValued_flat]
    split
    · rfl
    · rw [List.map_append, List.map_replicate, List.length_map]
      rfl

def flatClause : Expr × List Stmt × Otherwise → Expr × List Stmt × Otherwise
  | (test, body, otherwise) => (test.flat, Stmt.flatAll body, otherwise.flat)

instance follows_alternative : Follows Otherwise.flat (alternative lv) (alternative lv) :=
  .then fun _ => .then fun _ => .closedBlock fun _ => .then fun _ => .pure

instance follows_conditional : Follows flatClause (conditional lv) (conditional lv) := by
  refine .then fun _ => .then fun test => .expect fun _ => .then fun body => ?_
  refine .then fun t => .is (.then fun otherwise => .pure) (.is ?_ ?_)
  · exact .then fun otherwise => .pure
  · exact .expect fun _ => .pure

instance follows_elseIfClause :
    Follows Otherwise.flat (elseIfClause lv) (elseIfClause lv) :=
  .then fun _ => .then fun _ => .then fun _ => .pure

instance follows_namesFrom (n : Nat) (done : List Ident) :
    Follows (List.map Ident.flat) (namesFrom n done) (namesFrom n (done.map Ident.flat)) := by
  induction n generalizing done with
  | zero => exact .pure List.map_reverse.symm
  | succ n ih =>
    refine .accept fun more => .ite ?_ (.pure List.map_reverse.symm)
    exact .then fun id => ih (id :: done)

instance follows_loopStep :
    Follows (Option.map Expr.flat) (loopStep lv) (loopStep lv) :=
  .accept fun _ => .ite (.then fun _ => .pure) .pure

instance follows_numericFor (start : Position) (id : Ident) :
    Follows Stmt.flat (numericFor lv start id) (numericFor lv .lineOne id.flat) := by
  refine .then fun first => .expect fun _ => .then fun limit => .then fun step => ?_
  refine .expect fun _ => .closedBlock fun body => .then fun span => .pure ?_
  cases step <;> rfl

instance follows_genericFor (start : Position) (id : Ident) :
    Follows Stmt.flat (genericFor lv start id) (genericFor lv .lineOne id.flat) := by
  refine (follows_namesFrom lv.loops [id]).bind fun names => ?_
  refine .expect fun _ => .then fun exprs => ?_
  exact .expect fun _ => .closedBlock fun body => .then fun span => .pure

instance follows_forStatement : Follows Stmt.flat (forStatement lv) (forStatement lv) := by
  refine .then fun first => .then fun _ => .then fun id => .accept fun numeric => ?_
  refine .ite (follows_numericFor _ id) (.then fun t => ?_)
  refine .ite (follows_genericFor _ id) follows_unexpected ?_
  rw [t.is_flat _ (by decide), t.is_flat _ (by decide)]

instance follows_targetFrom (n : Nat) (e : Expr) :
    Follows Expr.flat (targetFrom n e) (targetFrom n e.flat) := by
  induction n generalizing e with
  | zero => exact .pure
  | succ n ih =>
    refine .accept fun more => .ite ?_ .pure
    refine .then fun key => ?_
    rw [fieldOf_flat]
    exact ih (fieldOf e key)

instance follows_methodTarget (e : Expr) :
    Follows (fun r => (r.1.flat, r.2)) (methodTarget e) (methodTarget e.flat) := by
  refine .accept fun more => .ite ?_ .pure
  refine .then fun key => .pure ?_
  rw [fieldOf_flat]

instance follows_functionStatement :
    Follows Stmt.flat (functionStatement lv) (functionStatement lv) := by
  refine .then fun t => .then fun _ => ?_
  refine .then fun id => (follows_targetFrom lv.loops (.ident id)).bind fun target => ?_
  refine .then fun r => ?_
  refine (follows_functionBody t.span.start r.2).bind fun f => ?_
  exact .then fun span => .pure

instance follows_localFunction (start : Position) :
    Follows Stmt.flat (localFunction lv start) (localFunction lv .lineOne) :=
  .then fun _ => (follows_functionBody start false).bind fun _ => .then fun _ => .pure

instance follows_localStatement (start : Position) :
    Follows Stmt.flat (localStatement lv start) (localStatement lv .lineOne) := by
  refine .then fun id => (follows_namesFrom lv.loops [id]).bind fun names => ?_
  refine .accept fun assigned => .ite ?_ (.then fun span => .pure)
  refine .then fun values => .then fun s => .then fun span => .pure ?_
  rw [List.length_map]
  exact congrArg (Stmt.declare _ _) (padValues_flat values names.length s.prevEnd)

instance follows_checkAssignable (e : Expr) :
    Follows id (checkAssignable e) (checkAssignable e.flat) :=
  .ite .pure (follows_error (fun _ => ⟨_, rfl⟩) fun _ => ⟨_, rfl⟩) (by rw [e.isAssignable_flat])

instance follows_targetsFrom (n : Nat) (done : List Expr) (latest : Expr) :
    Follows Expr.flatAll (targetsFrom lv n done latest)
      (targetsFrom lv n (Expr.flatAll done) latest.flat) := by
  have hr : ∀ es : List Expr, (Expr.flatAll es).reverse = Expr.flatAll es.reverse :=
    fun es => by simp only [Expr.flatAll_eq_map, List.map_reverse]
  induction n generalizing done latest with
  | zero =>
    exact .then fun _ => .pure (hr (latest :: done))
  | succ n ih =>
    refine .then fun _ => ?_
    refine .accept fun more => .ite ?_ (.pure (hr (latest :: done)))
    exact .then fun e => ih (latest :: done) e

instance follows_exprStatement :
    Follows Stmt.flat (exprStatement lv) (exprStatement lv) := by
  refine .then fun first => .then fun e => ?_
  refine .then fun t => .ite ?_ ?_ (by rw [t.is_flat _ (by decide), t.is_flat _ (by decide)])
  · refine (follows_targetsFrom lv.loops [] e).bind fun targets => ?_
    refine .expect fun _ => .then fun values => ?_
    refine .then fun s => .then fun span => .pure ?_
    rw [Expr.flatAll_eq_map targets, List.length_map, ← Expr.flatAll_eq_map targets]
    exact congrArg (Stmt.assign _ _) (padValues_flat values targets.length s.prevEnd)
  · cases e with
    | call span callee method args => exact .pure
    | _ => exact follows_unexpected

lemma Follows.some {p q : Parser Stmt} (h : Follows Stmt.flat p q) :
    Follows (Option.map Stmt.flat) (do return Option.some (← p))
      (do return Option.some (← q)) :=
  h.bind fun _ => .pure

instance follows_statement :
    Follows (Option.map Stmt.flat) (statement lv) (statement lv) := by
  refine .then fun t => .is (.then fun _ => .pure) ?_
  refine .ite follows_functionStatement.some ?_ (by rw [t.isFunctionWord_flat])
  refine .ite ?declaration ?_ (by rw [t.isLocalWord_flat])
  case declaration =>
    refine .then fun _ => .then fun t' => ?_
    exact .ite (.then fun _ => (follows_localFunction _).some) (follows_localStatement _).some
      (by rw [t'.isFunctionWord_flat])
  refine .is (.then fun _ => .then fun _ => .pure) ?_
  refine .is (.then fun _ => .closedBlock fun _ => .then fun _ => .pure) ?_
  refine .is ?whileLoop (.is ?repeatLoop (.is follows_forStatement.some (.is ?_ ?_)))
  case whileLoop =>
    exact .then fun _ => .then fun _ => .expect fun _ => .closedBlock fun _ => .then fun _ => .pure
  case repeatLoop =>
    exact .then fun _ => .closedBlock fun _ => .then fun _ => .then fun _ => .pure
  · exact .then fun _ => .then fun _ => .pure
  · exact follows_exprStatement.some

end Parser

instance Level.blind_withDepth (loops depth : Nat) : (Level.withDepth loops depth).Blind := by
  induction depth with
  | zero =>
    have hf {α β : Type} {E : α → β} : Follows E tooManyLevels tooManyLevels :=
      follows_error (fun _ => ⟨_, rfl⟩) fun _ => ⟨_, rfl⟩
    exact ⟨fun _ => hf, hf, hf⟩
  | succ depth ih =>
    exact ⟨follows_subExpression, follows_statement, follows_elseIfClause⟩

lemma Parser.follows_wholeBlock (lv : Level) [lv.Blind] :
    Follows SourceTree.flat (wholeBlock lv) (wholeBlock lv) :=
  .then fun _ => .then fun _ => .ite .pure follows_unexpected

end LuaBytecode
