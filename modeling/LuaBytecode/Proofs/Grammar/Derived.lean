import LuaBytecode.Grammar
import LuaBytecode.Proofs.Number.Numeral
import LuaBytecode.Proofs.Tree.Growth

namespace LuaBytecode

open SyntaxNode Token

variable {t : Token} {s s₀ : TokenStream} {ns : List SyntaxNode} {k n : Nat} {lv : Level}

def StatementDerives (o : Option Stmt) (ts : List Token) : Prop :=
  match o with
  | some s => s.Derives ts
  | none => ∃ t, ts = [t] ∧ t.Spells ";"

class Level.Builds (k n : Nat) (lv : Level) : Prop where
  loops : lv.loops = n
  lt : n < k
  expr : ∀ limit, Parser.Builds k n (fun e => [.expr e]) Expr.Derives (lv.expr limit)
  stmt : Parser.Builds k n (fun o : Option Stmt => o.toList.map .stmt) StatementDerives lv.stmt
  elseIf : ∀ s, s.current.Spells "elseif" →
    Parser.Since k n s s [] lv.elseIf Otherwise.parts Otherwise.Derives

attribute [instance] Level.Builds.expr Level.Builds.stmt

lemma Token.isLocalWord_kind (h : t.isLocalWord = true) : t.kind ≠ .eof ∧ t.kind ≠ .error := by
  rcases Bool.or_eq_true_iff.mp h with h | h <;> exact is_kind h

lemma TargetDerives.isAssignable {e : Expr} {ts : List Token} (h : TargetDerives e ts) :
    e.isAssignable = true := by cases h <;> rfl

namespace Parser

variable [hlv : lv.Builds k n] {e : Expr} {done : List Expr} {id : Ident} {before : List Token}
  {α : Type} {nodes : α → List SyntaxNode} {D : α → List Token → Prop}

lemma since_exprListFrom (m : Nat) (hm : s.rest.length < m) (h : ∀ x ∈ done.map .expr, x ∈ ns) :
    Since k n s₀ s ns (exprListFrom lv m done) (·.map .expr) fun es ts =>
      ∃ es', es = done.reverse ++ es' ∧ ExprsDerive es' ts := by
  induction m generalizing s ns done with
  | zero => cases hm
  | succ m ih =>
    refine .then fun e ts s1 ht he => .accept (fun s2 hc ht' => ?_) ?_
    · have hle := TokenStream.length_le_of_append ht
      have hlt := TokenStream.length_lt_of_cons ht'
      exact (ih (by omega) (by grind)).more fun _ _ => .more he hc
    · exact .pure ⟨[e], by simp, by simpa using ExprsDerive.one he⟩ (by grind)

instance builds_exprList : Builds k n (·.map .expr) ExprsDerive (exprList lv) :=
  ⟨fun _ => .of_ready fun hs =>
    (since_exprListFrom lv.loops (hlv.loops ▸ hs.short) (by simp)).all⟩

instance builds_returnValues : Builds k n (·.map .expr) ValuesDerive (returnValues lv) :=
  ⟨fun s => .current (.ite (fun _ => .pure .none (by simp)) fun _ =>
    (builds_exprList.run s).mono fun _ _ => .some)⟩

lemma since_returnStatement (hr : s.current.Spells "return") :
    Since k n s s [] (returnStatement lv) (fun st => [.stmt st]) fun st ts =>
      BlockDerives [st] ts := by
  refine .current (.skip (is_kind hr) fun s1 _ => .then fun values ts s2 _ hv => ?_)
  refine .accept (fun s3 hc _ => ?_) ?_
  · exact .last (by grind [children, Stmt.parts]) fun _ => .returnClosed hr hv hc
  · exact .last (by grind [children, Stmt.parts]) fun _ => by simpa using BlockDerives.return hr hv

lemma since_blockFrom (m : Nat) {done : List Stmt} (h : ∀ x ∈ done.map .stmt, x ∈ ns) :
    Since k n s₀ s ns (blockFrom lv m done) (·.map .stmt) fun body ts =>
      ∃ body', body = done.reverse ++ body' ∧ BlockDerives body' ts := by
  induction m generalizing s ns done with
  | zero => exact .pure ⟨[], by simp, .nil⟩ (by grind)
  | succ m ih =>
    refine .current (.ite (fun _ => .pure ⟨[], by simp, .nil⟩ (by grind)) fun _ =>
      .ite (fun hr => ?_) fun _ => ?_)
    · refine (since_returnStatement hr).on.seq fun st ts s1 _ hst => ?_
      refine .current (.ite (fun _ => ?_) fun _ => .unexpected)
      exact .pure ⟨[st], by simp, by simpa using hst⟩ (by grind)
    · refine .then fun o ts s1 _ ho => ?_
      cases o with
      | some st => exact (ih (by grind)).more fun _ _ => .cons ho
      | none =>
        obtain ⟨t, rfl, ht⟩ := ho
        refine (ih (by grind)).mono ?_
        rintro body ts' ⟨body', rfl, hb⟩
        exact ⟨body', rfl, .empty ht hb⟩

instance builds_block : Builds k n (·.map .stmt) BlockDerives (block lv) :=
  ⟨fun _ => (since_blockFrom lv.loops (by simp)).all⟩

lemma Since.closedBlock {close : String} {f : List Stmt → Parser α}
    (h : ∀ body ts t s', BlockDerives body ts → t.Spells close →
      Since k n s₀ s' (body.map .stmt ++ ns) (f body) nodes fun a ts' => D a (ts ++ t :: ts')) :
    Since k n s₀ s ns (Parser.closedBlock lv (.ofString close) >>= f) nodes D := by
  have hc : Since k n s s [] (Parser.closedBlock lv (.ofString close)) (·.map .stmt) fun body ts =>
      ∃ ts' t, ts = ts' ++ [t] ∧ BlockDerives body ts' ∧ t.Spells close :=
    .then fun body ts s1 _ hb => .expect fun t s2 ht => .pure ⟨ts, t, rfl, hb, ht⟩ (by grind)
  refine hc.on.seq ?_
  rintro body _ s1 - ⟨ts, t, rfl, hb, ht⟩
  simp only [List.append_assoc, List.singleton_append]
  exact h body ts t s1 hb ht

omit hlv in
lemma since_paramsFrom (m : Nat) (hm : s.rest.length < m) {done : List Ident}
    (h : ∀ x ∈ done.map .ident, x ∈ ns) :
    Since k n s₀ s ns (paramsFrom m done) (fun r => r.1.map .ident) fun r ts =>
      ∃ ids, r.1 = done.reverse ++ ids ∧ ParamsDerive ids r.2 ts := by
  induction m generalizing s ns done with
  | zero => cases hm
  | succ m ih =>
    refine .accept (fun s1 hd _ => .pure ⟨[], by simp, .vararg hd⟩ (by grind))
      (.current (.ite (fun _ => .name fun id t s1 ht hn _ => ?_) fun _ => .unexpected))
    refine .accept (fun s2 hc ht' => ?_) (.pure ⟨[id], by simp, .one hn⟩ (by grind))
    have hlt := TokenStream.length_lt_of_cons ht
    have hlt' := TokenStream.length_lt_of_cons ht'
    refine (ih (by omega) (by grind)).mono ?_
    rintro ⟨_, isVararg⟩ ts ⟨ids, rfl, hi⟩
    exact ⟨id :: ids, by simp, .more hn hc hi⟩

instance builds_params : Builds k n (fun r => r.1.map .ident)
    (fun r ts => (r = ([], false) ∧ ts = []) ∨ ParamsDerive r.1 r.2 ts) (params lv) := by
  refine ⟨fun s => .of_ready fun hs => .at fun b => .ite (fun _ => ?_) fun _ => ?_⟩
  · exact .pure (.inl ⟨rfl, rfl⟩) (by simp)
  refine (since_paramsFrom lv.loops (hlv.loops ▸ hs.short) (by simp)).mono ?_
  rintro ⟨_, isVararg⟩ ts ⟨ids, rfl, hi⟩
  exact .inr hi

abbrev FunctionBody.node (f : FunctionBody) : SyntaxNode :=
  .expr (.function f.span f.params f.isVararg f.body)

lemma since_functionBody (isMethod : Bool) :
    Since k n s₀ s ns (functionBody lv s₀.here isMethod) (fun f => f.node :: ns) fun f ts =>
      ∃ params, f.params = (if isMethod then [⟨.at s₀.here, "self"⟩] else []) ++ params ∧
        BodyDerives params f.isVararg f.body ts := by
  refine .expect fun left s1 hl => .then ?_
  rintro ⟨ids, isVararg⟩ ts s2 - hi
  refine .expect fun right s3 hr => .closedBlock fun body ts' stop s4 hb hst => ?_
  have hd : BodyDerives ids isVararg body (left :: (ts ++ right :: (ts' ++ [stop]))) := by
    rcases hi with ⟨heq, rfl⟩ | hi
    · cases heq
      exact .none hl hr hb hst
    · exact .some hl hi hr hb hst
  refine .point (.ident ⟨.at s₀.here, "self"⟩) ?_ (.inl rfl) rfl ⟨rfl, rfl⟩
  cases isMethod
  · exact .node (fun span => .expr (.function span ids isVararg body))
      (by grind [children, Expr.parts]) fun span => .pure ⟨ids, rfl, hd⟩ (by grind)
  · exact .node (fun span => .expr (.function span (⟨.at s₀.here, "self"⟩ :: ids) isVararg body))
      (by grind [children, Expr.parts]) fun span => .pure ⟨ids, rfl, hd⟩ (by grind)

omit hlv in
lemma since_isFieldName {f : Bool → Parser α}
    (hy : ∀ p rest, t.kind = .name → s.rest = p :: rest → p.Spells "=" →
      Since k n s₀ s ns (f true) nodes D)
    (hno : Since k n s₀ s ns (f false) nodes D) :
    Since k n s₀ s ns (isFieldName t >>= f) nodes D := by
  have hr : (isFieldName t >>= f) s =
      f (decide (t.kind = .name) && s.rest.head?.any fun p => p.is "=") s := by
    show ((if _ then _ else _ : Parser Bool) >>= f) s = _
    split
    · next hk =>
      rw [decide_eq_true hk]
      rfl
    · next hk =>
      rw [decide_eq_false hk]
      rfl
  refine fun hl => Since.of_tokens [] rfl ?_ hr hl
  cases hn : decide (t.kind = .name) && s.rest.head?.any fun p => p.is "=" with
  | false => exact hno
  | true =>
    simp only [Bool.and_eq_true, decide_eq_true_eq, Option.any_eq_true] at hn
    obtain ⟨hk, p, hh, hp⟩ := hn
    obtain ⟨rest, hre⟩ := List.head?_eq_some_iff.mp hh
    exact hy p rest hk hre hp

instance builds_field (index : Nat) : Builds k n (fun r => [.field r.1])
    (fun r ts => FieldDerives index r.1 r.2 ts) (field lv index) := by
  refine ⟨fun s => .current ?_⟩
  unfold fieldKey
  refine .ite_bind (fun hl => ?_) fun _ => ?_
  · simp only [bind_assoc, pure_bind]
    refine .skip (is_kind hl) fun s1 _ => .then fun key ts s2 _ hk => .expect fun right s3 hr => ?_
    refine .expect fun equal s4 he => .then fun value ts' s5 _ hv => ?_
    refine .node (fun span => .field (.mk span .computed key value))
      (by grind [children, Field.key, Field.value]) fun span => .pure ?_ (by simp)
    simpa using FieldDerives.computed hl hk hr he hv
  · simp only [bind_assoc]
    refine since_isFieldName (fun p rest hk hre hp => ?_) ?_
    · rw [if_pos rfl]
      simp only [bind_assoc, pure_bind]
      refine .advance (.expr (.string s.current.span s.current.value false)) (by simp [hk]) rfl rfl
        (by simp [Token.Proper, SyntaxNode.Proper, hk]) fun s1 ht => ?_
      have hp1 : s1.current = p := by
        simp only [TokenStream.tokens, hre, List.cons.injEq, true_and] at ht
        exact ht.1.symm
      have he : s1.current.Spells "=" := hp1 ▸ hp
      refine .skip (is_kind he) fun s2 _ => .then fun value ts s3 _ hv => ?_
      refine .node
        (fun span => .field (.mk span .named (.string s.current.span s.current.value false) value))
        (by grind [children, Field.key, Field.value]) fun span => .pure ?_ (by simp)
      have hn : s.current.Names ⟨s.current.span, s.current.value⟩ := ⟨hk, rfl⟩
      simpa using FieldDerives.named hn he hv
    · rw [if_neg nofun, pure_bind]
      refine .then fun value ts s1 _ hv => ?_
      refine .point (.expr (.number (.at s.here) (.ofNat index))) ?_ (.inl rfl) rfl
        (isSome_parseNumeral?_ofNat index)
      refine .node
        (fun span => .field (.mk span .positional (.number (.at s.here) (.ofNat index)) value))
        (by grind [children, Field.key, Field.value]) fun span =>
          .pure ?_ (by simp [TokenStream.here])
      simpa using FieldDerives.positional hv

instance builds_acceptSeparator : Builds k n (fun _ => []) (fun b ts =>
    if b then ∃ t, ts = [t] ∧ (t.Spells "," ∨ t.Spells ";") else ts = []) acceptSeparator := by
  refine ⟨fun s => .accept (fun s1 ht _ => .pure ⟨s.current, rfl, .inl ht⟩ (by simp)) ?_⟩
  show Since k n s s [] (accept ";") _ _
  rw [← bind_pure (accept ";")]
  exact .accept (fun s1 ht _ => .pure ⟨s.current, rfl, .inr ht⟩ (by simp)) (.pure rfl (by simp))

lemma since_fieldsFrom (m index : Nat) {done : List Field} (h : ∀ x ∈ done.map .field, x ∈ ns) :
    Since k n s₀ s ns (fieldsFrom lv m index done) (·.map .field) fun fs ts =>
      ∃ fs', fs = done.reverse ++ fs' ∧ FieldsDerive index fs' ts ∧ fs'.length ≤ m := by
  induction m generalizing s ns index done with
  | zero => exact .pure ⟨[], by simp, .nil, .refl⟩ (by grind)
  | succ m ih =>
    refine .at fun b => .ite (fun _ => .pure ⟨[], by simp, .nil, by simp⟩ (by grind))
      fun _ => .then ?_
    rintro ⟨f, next⟩ ts s1 - hf
    refine .then fun more ts' s2 _ hm => ?_
    cases more with
    | true =>
      obtain ⟨t, rfl, ht⟩ := hm
      exact (ih next (by grind)).more fun _ _ ⟨hfs, hle⟩ =>
        ⟨.more hf ht hfs, Nat.succ_le_succ hle⟩
    | false =>
      cases (show ts' = [] from hm)
      exact .pure ⟨[f], by simp, by simpa using FieldsDerive.one hf, by simp⟩ (by grind)

instance builds_constructor :
    Builds k n (fun e => [.expr e]) ConstructorDerives (constructor lv) := by
  refine ⟨fun s => .current (.expect fun left s1 hl => ?_)⟩
  refine .seq (since_fieldsFrom lv.loops 1 (by simp)).all fun fields ts s2 _ hf => ?_
  refine .expect fun right s3 hr => ?_
  have hlt : fields.length < k := by
    rw [hlv.loops] at hf
    exact Nat.lt_of_le_of_lt hf.2 hlv.lt
  exact .last (by grind [children, Expr.parts]) (fun _ => .mk hl hf.1 hr) fun _ => hlt

instance builds_arguments : Builds k n (·.map .expr) ArgumentsDerive (arguments lv) := by
  refine ⟨fun s => .current (.ite (fun hk => ?_) fun _ => .ite (fun _ => ?_) fun _ =>
    .ite (fun hl => ?_) fun _ => .unexpected)⟩
  · exact .advance (.expr (.string s.current.span s.current.value s.current.long)) (by simp [hk])
      rfl rfl (by simp [Token.Proper, SyntaxNode.Proper, hk]) fun s1 _ =>
        .pure (.string hk) (by simp)
  · exact .then fun e ts s1 _ he => .pure (by simpa using ArgumentsDerive.table he) (by simp)
  · refine .skip (is_kind hl) fun s1 _ => .accept (fun s2 hr _ => .pure (.none hl hr) (by simp)) ?_
    refine .then fun args ts s2 _ ha => .expect fun right s3 hr => ?_
    exact .pure (.list hl ha hr) (by grind)

instance builds_primary : Builds k n (fun e => [.expr e]) SuffixedDerives (primary lv) := by
  refine ⟨fun s => .current (.ite (fun _ => ?_) fun _ => .ite (fun hl => ?_) fun _ => .unexpected)⟩
  · exact .name fun id t s1 _ ht _ => .pure (.name ht) (by simp)
  · refine .skip (is_kind hl) fun s1 _ => .then fun inner ts s2 _ hi =>
      .expect fun right s3 hr => ?_
    exact .last (by grind [children, Expr.parts]) fun _ => .paren hl hi hr

omit hlv in
lemma since_fieldOf (e : Expr) (key : Ident) {p : Parser α} (he : .expr e ∈ ns)
    (hk : .ident key ∈ ns) (hle : s₀.InOrder → e.span.stop ≤ key.span.start)
    (h : Since k n s₀ s (.expr (fieldOf e key) :: ns) p nodes D) : Since k n s₀ s ns p nodes D := by
  refine fun hl => h ⟨hl.ready, hl.failure, fun ho => ?_⟩
  have hg := hl.grows ho
  have hle := hle ho
  obtain ⟨hs, hstart, hstop⟩ := hg.nodes _ hk
  have hkeySpan : key.span.start ≤ key.span.stop := (hs _ .self).ordered
  have heSpan : e.span.start ≤ e.span.stop := hg.ordered he
  have hst : Grows k s₀ s (.expr (.string key.span key.name false) :: ns) :=
    hg.add hstart hstop hkeySpan nofun (hs _ .self).proper.2
  refine (hst.add (x := .expr (fieldOf e key)) (hg.nodes _ he).2.1 hstop ?_ ?_ trivial).sub ?_
  · exact heSpan.trans (hle.trans hkeySpan)
  · simp only [fieldOf, children, Expr.parts, List.mem_cons, List.not_mem_nil, or_false,
      forall_eq_or_imp, forall_eq]
    exact ⟨⟨.inr he, le_rfl, hle.trans hkeySpan⟩, .inl trivial, heSpan.trans hle, le_rfl⟩
  · grind

lemma since_suffixesFrom (m : Nat) (he : .expr e ∈ ns) (hd : SuffixedDerives e before) :
    Since k n s₀ s ns (suffixesFrom lv s₀.here m e) (fun e => [.expr e]) fun e' ts =>
      SuffixedDerives e' (before ++ ts) := by
  induction m generalizing s ns e before with
  | zero => exact .pure (by rwa [List.append_nil]) (by simpa using he)
  | succ m ih =>
    refine .current (.ite (fun hdot => ?_) fun _ => .ite (fun hl => ?_) fun _ =>
      .ite (fun hco => ?_) fun _ => .ite (fun _ => ?_) fun _ =>
      .pure (by rwa [List.append_nil]) (by simpa using he))
    · refine .skip (is_kind hdot) fun s1 _ => .name fun key t s2 _ ht hb => ?_
      have hf : SuffixedDerives (fieldOf e key) (before ++ [s.current, t]) := .field hd hdot ht
      refine since_fieldOf e key (by simp [he]) (by simp)
        (fun ho => hb ho (.expr e) (by simp [he])) ?_
      simpa using ih (.head _) hf
    · refine .skip (is_kind hl) fun s1 _ => .then fun key ts s2 _ hk =>
        .expect fun right s3 hr => ?_
      refine .node (fun span => .expr (.member span e key true)) (by grind [children, Expr.parts])
        fun span => ?_
      have hi : SuffixedDerives (.member span e key true)
          (before ++ s.current :: (ts ++ [right])) :=
        .index hd hl hk hr
      simpa using ih (.head _) hi
    · refine .skip (is_kind hco) fun s1 _ => .name fun method t s2 _ ht _ => ?_
      refine .then fun args ts s3 _ ha => ?_
      refine .node (fun span => .expr (.call span e (some method) args))
        (by grind [children, Expr.parts]) fun span => ?_
      have hc : SuffixedDerives (.call span e (some method) args)
          (before ++ s.current :: t :: ts) :=
        .method hd hco ht ha
      simpa using ih (.head _) hc
    · refine .then fun args ts s1 _ ha => ?_
      refine .node (fun span => .expr (.call span e none args)) (by grind [children, Expr.parts])
        (fun span => ?_) (fun _ => trivial)
        (List.append_ne_nil_of_right_ne_nil _ (List.ne_nil_of_mem he))
      have hc : SuffixedDerives (.call span e none args) (before ++ ts) := .call hd ha
      simpa using ih (.head _) hc

instance builds_suffixed : Builds k n (fun e => [.expr e]) SuffixedDerives (suffixed lv) :=
  ⟨fun _ => .current (.then fun _ _ _ _ he => since_suffixesFrom lv.loops (.head _) he)⟩

instance builds_simple : Builds k n (fun e => [.expr e]) Expr.Derives (simple lv) := by
  refine ⟨fun s => .of_ready fun hs => .current ?_⟩
  obtain ⟨hn, hbo⟩ := hs.spelled s.current (.head _)
  split
  · next hk =>
    exact .advance (.expr (.number s.current.span s.current.value)) (by simp [hk]) rfl rfl
      (by simp [Token.Proper, SyntaxNode.Proper, hk]) fun s1 _ => .pure (.number hk) (by simp)
  · next hk =>
    exact .advance (.expr (.string s.current.span s.current.value s.current.long)) (by simp [hk])
      rfl rfl (by simp [Token.Proper, SyntaxNode.Proper, hk]) fun s1 _ =>
        .pure (.string hk) (by simp)
  · next hk =>
    exact .advance (.expr (.nil s.current.span)) (by simp [hk]) rfl rfl (fun _ => trivial)
      fun s1 _ => .pure (.nil hk (hn hk)) (by simp)
  · next hk =>
    refine .advance (.expr (.bool s.current.span (s.current.value == "true"))) (by simp [hk]) rfl
      rfl (fun _ => trivial) fun s1 _ => .pure (.bool hk ?_) (by simp)
    rcases hbo hk with hv | hv <;> rw [hv] <;> rfl
  · refine .ite (fun hd => ?_) fun _ => .ite (fun _ => ?_) fun _ => .ite (fun hw => ?_) fun _ =>
      (builds_suffixed.run s).mono fun _ _ => .suffixed
    · exact .advance (.expr (.vararg s.current.span)) (is_kind hd) rfl rfl (fun _ => trivial)
        fun s1 _ => .pure (.vararg hd) (by simp)
    · exact (builds_constructor.run s).mono fun _ _ => .table
    · refine .skip (isFunctionWord_kind hw) fun s1 _ => .seq (since_functionBody false) ?_
      rintro f ts s2 - ⟨params, hp, hb⟩
      refine .pure ?_ (by simp)
      rw [hp, List.append_nil]
      exact .function hw hb

omit hlv in
lemma operator?_eq_some {ofText? : Bytes → Option α} {op : α} (h : operator? ofText? t = some op) :
    t.Operates ofText? op := by
  unfold operator? at h
  split at h
  · next hk => exact ⟨by simpa using hk, h⟩
  · cases h

lemma since_operationsFrom (limit m : Nat) (he : .expr e ∈ ns) (hd : e.Derives before) :
    Since k n s₀ s ns (operationsFrom lv limit s₀.here m e) (fun e => [.expr e]) fun e' ts =>
      e'.Derives (before ++ ts) := by
  induction m generalizing s ns e before with
  | zero => exact .pure (by rwa [List.append_nil]) (by simpa using he)
  | succ m ih =>
    have hstop : Since k n s₀ s ns (pure e) (fun e => [.expr e]) fun e' ts =>
        e'.Derives (before ++ ts) := .pure (by rwa [List.append_nil]) (by simpa using he)
    refine .current ?_
    split
    · next op hop =>
      have ho := operator?_eq_some hop
      refine .ite (fun _ => hstop) fun _ => .skip ho.kind fun s1 _ => ?_
      refine .then fun right ts s2 _ hr => ?_
      refine .node (fun span => .expr (.binary span op e right)) (by grind [children, Expr.parts])
        fun span => ?_
      have hb : Expr.Derives (.binary span op e right) (before ++ s.current :: ts) :=
        .binary hd ho hr
      simpa using ih (.head _) hb
    · exact hstop

instance builds_subExpression (limit : Nat) :
    Builds k n (fun e => [.expr e]) Expr.Derives (subExpression lv limit) := by
  refine ⟨fun s => .current ?_⟩
  have ho : Since k n s s [] (operand lv s.current) (fun e => [.expr e]) Expr.Derives := by
    unfold operand
    split
    · next op hop =>
      have ho := operator?_eq_some hop
      refine .skip ho.kind fun s1 _ => .then fun e ts s2 _ he => ?_
      exact .last (by grind [children, Expr.parts]) fun _ => by simpa using Expr.Derives.unary ho he
    · exact builds_simple.run s
  exact ho.seq fun e ts s1 _ he => since_operationsFrom limit lv.loops (.head _) he

lemma padded_padValues (values : List Expr) (n : Nat) (pos : Position) :
    Padded values n (padValues values n pos) := by
  unfold padValues
  split
  · exact ⟨0, pos, by simp, .inl rfl⟩
  · split
    · exact ⟨0, pos, by simp, .inl rfl⟩
    · refine ⟨n - values.length, pos, rfl, ?_⟩
      omega

@[grind →]
lemma mem_padValues {values : List Expr} {n : Nat} {pos : Position}
    (h : e ∈ padValues values n pos) : e ∈ values ∨ e = .nil (.at pos) := by
  unfold padValues at h
  split at h
  · exact .inl h
  · split at h
    · exact .inl h
    · exact (List.mem_append.mp h).imp_right List.eq_of_mem_replicate

lemma since_alternative (hw : s.current.Spells "else") :
    Since k n s s [] (alternative lv) Otherwise.parts Otherwise.Derives := by
  refine .current (.skip (is_kind hw) fun s1 _ => .closedBlock fun body ts stop s2 hb hst => ?_)
  exact .node (fun span => .block span body) (by grind [children]) fun span =>
    .pure (.block hw hb hst) (by simp [Otherwise.parts])

lemma since_conditional (hk : s.current.kind ≠ .eof ∧ s.current.kind ≠ .error) :
    Since k n s s [] (conditional lv) (fun r => .expr r.1 :: r.2.1.map .stmt ++ r.2.2.parts)
      fun r ts => ∃ ts', ts = s.current :: ts' ∧ ConditionalDerives r.1 r.2.1 r.2.2 ts' := by
  refine .skip hk fun s1 _ => .then fun test ts s2 _ hte => .expect fun t s3 ht => ?_
  refine .then fun body ts' s4 _ hb => .current (.ite (fun helseIf => ?_) fun _ =>
    .ite (fun he => ?_) fun _ => ?_)
  · refine (hlv.elseIf s4 helseIf).on.seq fun otherwise ts'' s5 _ ho =>
      .pure ⟨_, rfl, ?_⟩ (by grind)
    simpa using ConditionalDerives.mk hte ht hb ho
  · refine (since_alternative he).on.seq fun otherwise ts'' s5 _ ho => .pure ⟨_, rfl, ?_⟩ (by grind)
    simpa using ConditionalDerives.mk hte ht hb ho
  · refine .expect fun stop s5 hst => .pure ⟨_, rfl, .mk hte ht hb (.none hst)⟩ ?_
    grind [Otherwise.parts]

lemma since_elseIfClause (hw : s.current.Spells "elseif") :
    Since k n s s [] (elseIfClause lv) Otherwise.parts Otherwise.Derives := by
  refine .current ((since_conditional (is_kind hw)).seq ?_)
  rintro ⟨test, body, otherwise⟩ _ s1 - ⟨ts, rfl, hc⟩
  refine .node (fun span => .stmt (.cond span test body otherwise))
    (by grind [children, Stmt.parts]) fun span => .pure ?_ (by simp [Otherwise.parts])
  simpa using Otherwise.Derives.elseIf hw hc

omit hlv in
lemma since_namesFrom (m : Nat) {done : List Ident} (h : ∀ x ∈ (id :: done).map .ident, x ∈ ns)
    (ht : t.Names id) :
    Since k n s₀ s ns (namesFrom m (id :: done)) (fun names => names.map .ident ++ ns)
      fun ids ts => ∃ ids', ids = done.reverse ++ ids' ∧ NamesDerive ids' (t :: ts) := by
  induction m generalizing s ns id t done with
  | zero => exact .pure ⟨[id], by simp, .one ht⟩ (by grind)
  | succ m ih =>
    refine .accept (fun s1 hc _ => .name fun id' t' s2 _ ht' _ => ?_)
      (.pure ⟨[id], by simp, .one ht⟩ (by grind))
    exact ((ih (by grind) ht').more fun _ _ => .more ht hc).sub (by grind)

def StepDerives : Option Expr → List Token → Prop
  | none, ts => ts = []
  | some step, ts => ∃ comma rest, ts = comma :: rest ∧ comma.Spells "," ∧ step.Derives rest

instance builds_loopStep :
    Builds k n (fun o : Option Expr => o.toList.map .expr) StepDerives (loopStep lv) :=
  ⟨fun s => .accept (fun _ hc _ => .then fun _ rest _ _ hst =>
    .pure ⟨s.current, rest, by simp, hc, hst⟩ (by simp)) (.pure rfl (by simp))⟩

lemma since_numericFor (hid : .ident id ∈ ns) :
    Since k n s₀ s ns (numericFor lv s₀.here id) (fun st => [.stmt st]) fun st ts =>
      ∃ span first limit step body, st = .numericFor span id first limit step body ∧
        RangeDerives first limit step body ts := by
  refine .then fun first ts s1 _ hf => .expect fun comma s2 hc => .then fun limit ts' s3 _ hl => ?_
  refine .then fun step ts'' s4 _ hst => .expect fun t s5 ht => ?_
  refine .closedBlock fun body us stop s6 hb hstop => ?_
  refine .last (by grind [children, Stmt.parts]) fun span =>
    ⟨span, first, limit, step, body, rfl, ?_⟩
  cases step with
  | none =>
    cases (show ts'' = [] from hst)
    exact .plain hf hc hl ht hb hstop
  | some step =>
    obtain ⟨comma', rest, rfl, hc', hst⟩ := hst
    exact .stepped hf hc hl hc' hst ht hb hstop

lemma since_genericFor {name : Token} (hid : .ident id ∈ ns) (ht : t.Spells "for")
    (hna : name.Names id) :
    Since k n s₀ s ns (genericFor lv s₀.here id) (fun st => [.stmt st]) fun st ts =>
      st.Derives (t :: name :: ts) := by
  refine .seq (since_namesFrom lv.loops (by simpa using hid) hna).all fun names ts s1 _ hn => ?_
  refine .expect fun t' s2 ht' => .then fun exprs ts' s3 _ he => .expect fun t'' s4 ht'' => ?_
  refine .closedBlock fun body ts'' stop s5 hb hst => ?_
  exact .last (by grind [children, Stmt.parts]) fun _ => .genericFor ht hn ht' he ht'' hb hst

lemma since_forStatement (hw : s.current.Spells "for") :
    Since k n s s [] (forStatement lv) (fun st => [.stmt st]) Stmt.Derives := by
  refine .current (.skip (is_kind hw) fun s1 _ => .name fun id name s2 _ hn _ =>
    .accept (fun s3 he _ => ?_) ?_)
  · refine (since_numericFor (by simp)).mono ?_
    rintro _ ts ⟨span, first, limit, step, body, rfl, hr⟩
    exact .numericFor hw hn he hr
  · exact .current (.ite (fun _ => since_genericFor (by simp) hw hn) fun _ => .unexpected)

omit hlv in
lemma since_targetFrom (m : Nat) (he : .expr e ∈ ns) (hd : TargetDerives e before) :
    Since k n s₀ s ns (targetFrom m e) (fun e => [.expr e]) fun e' ts =>
      TargetDerives e' (before ++ ts) := by
  induction m generalizing s ns e before with
  | zero => exact .pure (by rwa [List.append_nil]) (by simpa using he)
  | succ m ih =>
    refine .accept (fun s1 hdot _ => .name fun key t s2 _ ht hb => ?_)
      (.pure (by rwa [List.append_nil]) (by simpa using he))
    have hf : TargetDerives (fieldOf e key) (before ++ [s.current, t]) := .field hd hdot ht
    refine since_fieldOf e key (by simp [he]) (by simp)
      (fun ho => hb ho (.expr e) (by simp [he])) ?_
    simpa using ih (.head _) hf

omit hlv in
lemma since_methodTarget (he : .expr e ∈ ns) :
    Since k n s₀ s ns (methodTarget e) (fun r => [.expr r.1]) fun r ts =>
      (r = (e, false) ∧ ts = []) ∨ ∃ key colon t, r = (fieldOf e key, true) ∧
        ts = [colon, t] ∧ colon.Spells ":" ∧ t.Names key := by
  refine .accept (fun s1 hc _ => .name fun key t s2 _ ht hb => ?_)
    (.pure (.inl ⟨rfl, rfl⟩) (by simpa using he))
  refine since_fieldOf e key (by simp [he]) (by simp) (fun ho => hb ho (.expr e) (by simp [he])) ?_
  exact .pure (.inr ⟨key, _, t, rfl, rfl, hc, ht⟩) (by simp)

lemma since_functionStatement (hw : s.current.isFunctionWord = true) :
    Since k n s s [] (functionStatement lv) (fun st => [.stmt st]) Stmt.Derives := by
  refine .current (.skip (isFunctionWord_kind hw) fun s1 _ => .name fun id name s2 _ hn _ => ?_)
  refine .seq (since_targetFrom lv.loops (by simp) (.name hn)) fun target ts s3 _ hta => ?_
  have ha := hta.isAssignable
  refine .seq (since_methodTarget (by simp)) ?_
  rintro _ _ s4 - (⟨rfl, rfl⟩ | ⟨key, colon, t, rfl, rfl, hc, ht⟩)
  · refine .seq (since_functionBody false) ?_
    rintro f ts' s5 - ⟨params, hp, hb⟩
    refine .last (by grind [children, Stmt.parts]) (fun _ => ?_) fun _ => ha
    rw [hp]
    simpa using Stmt.Derives.function hw hta hb
  · refine .seq (since_functionBody true) ?_
    rintro f ts' s5 - ⟨params, hp, hb⟩
    refine .last (by grind [children, Stmt.parts]) (fun _ => ?_) fun _ => rfl
    rw [hp]
    simpa using Stmt.Derives.method hw hta hc ht hb

lemma since_localFunction {t' : Token} (ht : t.isLocalWord = true)
    (ht' : t'.isFunctionWord = true) :
    Since k n s₀ s ns (localFunction lv s₀.here) (fun st => [.stmt st]) fun st ts =>
      st.Derives (t :: t' :: ts) := by
  refine .name fun id name s1 _ hn _ => .seq (since_functionBody false) ?_
  rintro f ts s2 - ⟨params, hp, hb⟩
  refine .last (by grind [children, Stmt.parts]) fun _ => ?_
  rw [hp]
  simpa using Stmt.Derives.localFunction ht ht' hn hb

lemma since_localStatement (ht : t.isLocalWord = true) :
    Since k n s₀ s ns (localStatement lv s₀.here) (fun st => [.stmt st]) fun st ts =>
      st.Derives (t :: ts) := by
  refine .name fun id name s1 _ hna _ => ?_
  refine .seq (since_namesFrom lv.loops (by simp) hna).all fun names ts s2 _ hn => ?_
  refine .accept (fun s3 he _ => .then fun values ts' s4 _ hv => .get ?_) ?_
  · refine .point (.expr (.nil (.at s4.prevEnd))) ?_ (.inr rfl) rfl trivial
    refine .last (by grind [children, Stmt.parts]) fun _ => ?_
    simpa using Stmt.Derives.define ht hn he hv (padded_padValues values _ _)
  · exact .last (by grind [children, Stmt.parts]) fun _ => by
      simpa using Stmt.Derives.declare ht hn

omit hlv in
lemma since_checkAssignable {f : Unit → Parser α}
    (h : e.isAssignable = true → Since k n s₀ s ns (f ()) nodes D) :
    Since k n s₀ s ns (checkAssignable e >>= f) nodes D :=
  .ite_bind h fun _ => .error rfl ⟨nofun, nofun⟩

lemma since_targetsFrom (m : Nat) (h : ∀ x ∈ (e :: done).map .expr, x ∈ ns)
    (hd : SuffixedDerives e before) :
    Since k n s₀ s ns (targetsFrom lv m done e) (·.map .expr) fun es ts =>
      ∃ es', es = done.reverse ++ es' ∧ TargetsDerive es' (before ++ ts) ∧
        ∀ e ∈ es', e.isAssignable = true := by
  induction m generalizing s ns done e before with
  | zero =>
    refine since_checkAssignable fun ha => .pure ⟨[e], by simp, ?_, by simpa using ha⟩ (by grind)
    simpa using TargetsDerive.one hd ha
  | succ m ih =>
    refine since_checkAssignable fun ha => .accept (fun s1 hc _ => .then fun e' ts s2 _ he => ?_)
      (.pure ⟨[e], by simp, ?_, by simpa using ha⟩ (by grind))
    · exact (ih (by grind) he).more fun _ _ ⟨hes, has⟩ =>
        ⟨.more hd ha hc hes, List.forall_mem_cons.mpr ⟨ha, has⟩⟩
    · simpa using TargetsDerive.one hd ha

instance builds_exprStatement :
    Builds k n (fun st => [.stmt st]) Stmt.Derives (exprStatement lv) := by
  refine ⟨fun s => .current (.then fun e ts s1 _ he => .current (.ite (fun _ => ?_) fun _ => ?_))⟩
  · refine .seq (since_targetsFrom lv.loops (by simp) he).all fun targets ts' s2 _ ht => ?_
    refine .expect fun equal s3 heq => .then fun values ts'' s4 _ hv => .get ?_
    refine .point (.expr (.nil (.at s4.prevEnd))) ?_ (.inr rfl) rfl trivial
    refine .last (by grind [children, Stmt.parts]) (fun _ => ?_) fun _ => ht.2
    simpa using Stmt.Derives.assign ht.1 heq hv (padded_padValues values _ _)
  · split
    · next span callee method args =>
      refine .of_grows [.stmt (.call span callee method args)] (.pure ?_ (by simp)) fun hg => ?_
      · rw [List.append_nil]
        exact .call he
      obtain ⟨hso, hst, hstop⟩ := hg.nodes (.expr (.call span callee method args)) (by simp)
      refine (hg.add (x := .stmt (.call span callee method args)) hst hstop
        (hso _ .self).ordered ?_ trivial).sub (by simp)
      simpa [children, Stmt.parts] using ⟨le_rfl, le_rfl⟩
    · exact .unexpected

lemma Since.some {p : Parser Stmt} {D : Option Stmt → List Token → Prop}
    (h : Since k n s₀ s ns p (fun st => [.stmt st]) fun st ts => D (some st) ts) :
    Since k n s₀ s ns (do return some (← p)) (fun o => o.toList.map .stmt) D :=
  h.seq fun st ts s1 _ hst => .pure (by rwa [List.append_nil]) (by simp)

instance builds_statement : Builds k n (fun o : Option Stmt => o.toList.map .stmt) StatementDerives
    (statement lv) := by
  refine ⟨fun s => .current (.ite (fun he => ?_) fun _ => .ite (fun hw => ?_) fun _ =>
    .ite (fun hl => ?_) fun _ => .ite (fun hbr => ?_) fun _ => .ite (fun hdo => ?_) fun _ =>
    .ite (fun hwh => ?_) fun _ => .ite (fun hr => ?_) fun _ => .ite (fun hf => ?_) fun _ =>
    .ite (fun hif => ?_) fun _ => (builds_exprStatement.run s).some)⟩
  · exact .skip (is_kind he) fun s1 _ => .pure ⟨s.current, rfl, he⟩ (by simp)
  · exact (since_functionStatement hw).some
  · refine .skip (isLocalWord_kind hl) fun s1 _ => .current (.ite (fun hw => ?_) fun _ => ?_)
    · exact .skip (isFunctionWord_kind hw) fun s2 _ => (since_localFunction hl hw).some
    · exact (since_localStatement hl).some
  · refine .skip (is_kind hbr) fun s1 _ => ?_
    exact .node (fun span => .stmt (.break span)) (by simp [children, Stmt.parts]) fun span =>
      .pure (.break hbr) (by simp)
  · refine .skip (is_kind hdo) fun s1 _ => .closedBlock fun body ts stop s2 hb hst => ?_
    exact .node (fun span => .stmt (.scope span body)) (by grind [children, Stmt.parts]) fun span =>
      .pure (.scope hdo hb hst) (by simp)
  · refine .skip (is_kind hwh) fun s1 _ => .then fun test ts s2 _ hte => .expect fun t s3 ht => ?_
    refine .closedBlock fun body ts' stop s4 hb hst => ?_
    exact .node (fun span => .stmt (.while span test body)) (by grind [children, Stmt.parts])
      fun span => .pure (.while hwh hte ht hb hst) (by simp)
  · refine .skip (is_kind hr) fun s1 _ => .closedBlock fun body ts t s2 hb ht => ?_
    refine .then fun test ts' s3 _ hte => ?_
    refine .node (fun span => .stmt (.repeat span body test)) (by grind [children, Stmt.parts])
      fun span => .pure ?_ (by simp)
    simpa [StatementDerives] using Stmt.Derives.repeat hr hb ht hte
  · exact (since_forStatement hf).some
  · refine (since_conditional (is_kind hif)).seq ?_
    rintro ⟨test, body, otherwise⟩ _ s1 - ⟨ts, rfl, hc⟩
    refine .node (fun span => .stmt (.cond span test body otherwise))
      (by grind [children, Stmt.parts]) fun span => .pure ?_ (by simp)
    simpa [StatementDerives] using Stmt.Derives.cond hif hc

end Parser

lemma Level.loops_withDepth (loops depth : Nat) : (withDepth loops depth).loops = loops := by
  cases depth <;> rfl

lemma Level.builds_withDepth (h : n < k) (depth : Nat) : (Level.withDepth n depth).Builds k n := by
  induction depth with
  | zero =>
    have hf {α : Type} {s s₀ : TokenStream} {ns : List SyntaxNode} {nodes : α → List SyntaxNode}
        {D : α → List Token → Prop} : Parser.Since k n s₀ s ns Parser.tooManyLevels nodes D :=
      .error rfl ⟨nofun, nofun⟩
    exact ⟨rfl, h, fun _ => ⟨fun _ => hf⟩, ⟨fun _ => hf⟩, fun _ _ => hf⟩
  | succ depth ih =>
    exact ⟨rfl, h, Parser.builds_subExpression, Parser.builds_statement, fun _ =>
      Parser.since_elseIfClause⟩

lemma Parser.since_wholeBlock (h : n < k) (depth : Nat) :
    Since k n s s [] (wholeBlock (.withDepth n depth)) (fun tree => tree.body.map .stmt)
      fun tree ts => BlockDerives tree.body ts ∧ ∃ eof, s.tokens = ts ++ [eof] ∧
        eof.kind = .eof ∧ tree.span = ⟨.first, eof.span.stop⟩ := by
  have hlevel := Level.builds_withDepth h depth
  refine .then fun body ts s1 ht hb => .of_ready fun hs1 => .current ?_
  refine .ite (fun hk => .pure ?_ (by simp)) fun _ => .unexpected
  rw [List.append_nil]
  exact ⟨hb, s1.current, by rw [ht, TokenStream.tokens, hs1.rest_of_eof hk], hk, rfl⟩

lemma Token.Proper.spelled {t : Token} (h : t.Proper) : t.Spelled := by
  constructor <;> intro hk <;> simpa [Proper, hk] using h

lemma TokenStream.ofSource_ready (src : Bytes) : ∃ ts last, (ofSource src).tokens = ts ++ [last] ∧
      (ofSource src).Ready ((ofSource src).rest.length + 2) ∧
      (last.kind = .error ∨
        (elements src).filter (fun s => !s.isComment) = (ts ++ [last]).map .token) := by
  obtain ⟨tokens, hto, ho, -, hl⟩ := ofSource_inOrder src
  obtain ⟨ts, last, rfl, hk, hts⟩ := ho.ended
  have he := fun t ht => (hts t ht).kind
  refine ⟨ts, last, hto, ⟨⟨ts, last, hto, hk, fun t ht => (he t ht).1⟩, by omega, ?_⟩, ?_⟩
  · rw [TokenStream.tokens, hto]
    refine List.forall_mem_append.mpr ⟨fun t ht => (hts t ht).spelled, ?_⟩
    rcases hk with hk | hk <;> simp [Token.Spelled, hk]
  · refine hl.imp_left ?_
    rintro ⟨t, ht, her⟩
    rcases List.mem_append.mp ht with ht | ht
    · exact absurd her (he t ht).2
    · rwa [← List.mem_singleton.mp ht]

/-- The tree that is read derives the tokens of the whole text, and the text has no fault. -/
theorem parse_derives {source src : Bytes} {tree : SourceTree} (h : parse source src = .ok tree) :
    ∃ ts eof, (elements src).filter (fun s => !s.isComment) = (ts ++ [eof]).map .token ∧
      eof.kind = .eof ∧ BlockDerives tree.body ts ∧
      ∀ span e, .fault span e ∉ elements src := by
  obtain ⟨ts, last, htokens, hready, hlast⟩ := TokenStream.ofSource_ready src
  simp only [parse, StateT.run] at h
  split at h
  · next tree' s' hrun =>
    cases h
    obtain ⟨ts', -, -, hbody, eof, htokens', hk, -⟩ :=
      (Parser.since_wholeBlock (Nat.lt_succ_self _) maxDepth).ok hready hrun
    obtain ⟨rfl, heq⟩ := List.append_inj' (htokens.symm.trans htokens') rfl
    cases heq
    have hfilter := hlast.resolve_left (by simp [hk])
    refine ⟨ts, last, hfilter, hk, hbody, fun span e hmem => ?_⟩
    have hkept : Scanned.fault span e ∈ (elements src).filter (fun s => !s.isComment) :=
      List.mem_filter.mpr ⟨hmem, rfl⟩
    rw [hfilter] at hkept
    obtain ⟨t, -, ht⟩ := List.mem_map.mp hkept
    cases ht
  · cases h

def variedText : Bytes := .ofString
  "let t = \x7b1; x = 2, [3] = nil,\x7d;; fun t.a:m(b, ...) return self, ...; end --[[ note ]]
    local c, d = t'x':y\x7b\x7d()"

theorem parse_derives_varied : ∃ tree, parse [] variedText = .ok tree ∧
    ∃ ts eof, (elements variedText).filter (fun s => !s.isComment) = (ts ++ [eof]).map .token ∧
      eof.kind = .eof ∧ BlockDerives tree.body ts ∧
      ∀ span e, .fault span e ∉ elements variedText := by
  have hok : (parse [] variedText).toOption.isSome = true := by decide +kernel
  cases h : parse [] variedText with
  | error e =>
    rw [h] at hok
    cases hok
  | ok tree => exact ⟨tree, rfl, parse_derives h⟩

end LuaBytecode
