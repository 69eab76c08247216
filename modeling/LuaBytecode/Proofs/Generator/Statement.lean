import LuaBytecode.Proofs.Generator.Function

namespace LuaBytecode

open Instruction Draft

variable {cond : ExprCode} {values : List ExprCode} {s : Gen Unit} {js : List Nat} {d' d : Draft}
  {a : Nat}

namespace Draft

variable {d'' : Draft} {m n : Nat} {js' : List Nat}

def Dangling (m : Nat) (d d' : Draft) (js : List Nat) : Prop :=
  ∀ pc ∈ js, d.Loose pc ∧ Closable d'.code m pc

lemma Holds.dangling (h : Holds m d d' js) : Dangling m d d' js :=
  fun pc hpc => ⟨h.loose pc hpc, h.closable pc hpc⟩

lemma Dangling.append (h : Dangling m d d' js) (h' : Dangling m d d' js') :
    Dangling m d d' (js ++ js') :=
  fun pc hpc => (List.mem_append.mp hpc).elim (h pc) (h' pc)

lemma Dangling.frame (h : Dangling m d d' js) (hf : d'.Frame n d'') (hn : m ≤ n) :
    Dangling m d d'' js :=
  fun pc hpc => ⟨(h pc hpc).1, hf.closable m pc hn (h pc hpc).2⟩

lemma Dangling.since (h : Dangling m d' d'' js) (hf : d.Frame n d') : Dangling m d d'' js :=
  fun pc hpc => ⟨hf.loose (h pc hpc).1, (h pc hpc).2⟩

end Draft

namespace Generator

variable {g g0 g' : Generator} {m r : Nat} {l : Link}

lemma Rests.step (h : g.Rests g0)
    (h' : g0.Reaches g0.active.size .plain g0.active.size g') : g.Rests g' := by
  unfold Rests
  rw [h'.active]
  exact Passes.step h h'

lemma Passes.rests (h : g.Passes m .plain r g0) (hm : g0.active.size ≤ m)
    (hr : g0.active.size = r) : g.Rests g0 := by
  subst hr
  exact h.mono hm

end Generator

namespace Gen

open Generator

variable {lax : Prop} {g g0 : Generator} {m r : Nat} {l : Link} {body : Gen Unit} {bs : Bounds}

def StatementSound (lax : Prop) (s : Gen Unit) : Prop :=
  ∀ g : Generator, g.Rests g → Meets lax g s fun _ g' => ∃ r, g.Passes g'.active.size .plain r g'

lemma statement_sound (start : Position) (hs : StatementSound lax s) :
    BodySound lax (statement start s) := by
  intro g h
  refine (meets_setPos h.reaches start).bind fun _ g1 h1 => ?_
  have hr1 : g.Rests g1 := Rests.step h h1
  refine (hs g1 hr1.restart).bind ?_
  rintro - g2 ⟨r, h2⟩
  have hc : (decide (g2.firstFree ≤ g2.maxStackSize) &&
      decide (g2.active.size ≤ g2.firstFree)) = true := by
    simp [h2.ready.sound.top, h2.ready.top]
  refine meets_read ?_
  simp only [hc, Bool.not_true, Bool.false_eq_true, if_false]
  have hle := h2.reaches.active_le
  have hle' := h2.reaches.le_stack
  have hl : Meets lax g2 (setFirstFree g2.active.size) fun _ => g1.Rests := by
    refine (meets_setFirstFree h2.reaches .refl (by omega)).mono fun _ g3 h3 => ?_
    unfold Rests
    rw [h3.active]
    exact h2.step h3
  exact meets_update (hr1.trans hl)

lemma StatementSound.of_piece
    (hs : ∀ {g : Generator} {m r : Nat}, g.Reaches m .plain r g → Meets lax g s fun _ g' =>
      ∃ r', g.Reaches m .plain r' g') : StatementSound lax s := by
  intro g h
  refine (hs h.reaches).mono ?_
  rintro - g' ⟨r', h'⟩
  rw [h'.active]
  exact ⟨r', Passes.step h h'⟩

lemma assign_sound {targets : List ExprCode} (start : Position)
    (ht : ∀ e ∈ targets, e.TargetSound lax) (hv : ∀ e ∈ values, e.Sound lax) :
    StatementSound lax (assign start targets values) :=
  StatementSound.of_piece fun h => meets_assign start ht hv h

lemma callStatement_sound {call : ExprCode} {results : Nat → Bool → ResultCount → Gen Unit}
    (hc : call.Sound lax) (hr : call.results = some results) :
    StatementSound lax (callStatement call) := by
  refine StatementSound.of_piece fun {g m r} h => ?_
  refine (meets_reserve h 1).bind ?_
  rintro base g1 ⟨rfl, h1⟩
  simp only [hr]
  have hd : ResultDest g.active.size (base + 1) base true (.exactly 0) := ⟨rfl, h.active_le⟩
  refine (hc.results results hr h1 hd).mono ?_
  rintro - g2 ⟨h2, -⟩
  exact ⟨_, h2.mono h.ready.level⟩

lemma declareLocals_sound (names : List Ident) (hv : ∀ e ∈ values, e.Sound lax) :
    StatementSound lax (declareLocals names values) := by
  intro g h
  refine (meets_assignValues hv h.reaches names.length).discard_bind ?_
  rintro - g1 ⟨-, h1⟩
  refine (meets_declareAll g1 _).mono ?_
  rintro - _ ⟨d, rfl, hd⟩
  have hs := hd.size
  rw [h1.active, List.length_map] at hs
  refine ⟨_, ((Passes.step h h1).declared hd (by simp [h1.active])).mono ?_⟩
  show d.active.size ≤ _
  have hm := (Passes.step h h1).declared hd (by simp [h1.active]) |>.active_le
  replace hm : d.active.size ≤ 200 := hm
  split <;> omega

lemma meets_fixLine (line : Int) (h : g.Reaches m l r g0) (hc : 0 < g0.code.size) :
    Meets lax g0 (fixLine line) fun _ => g.Reaches m l r := by
  have hl := h.ready.sound.lines
  refine meets_read ?_
  rw [if_neg (by omega)]
  refine meets_update ⟨{ h.toAlters with frame := { h.frame with } },
    { h.ready with sound := { h.ready.sound with lines := ?_ } }, h.top⟩
  simp [hl]

lemma declareFunction_sound {target : ExprCode} (start : Position) (span : Span)
    (params : List Ident) (isVararg : Bool) (ht : target.TargetSound lax)
    (hb : BodySound lax body) :
    StatementSound lax (declareFunction start target (.ofFunction span params isVararg body)) := by
  refine StatementSound.of_piece fun {g m r} h => ?_
  refine (ht h).bind ?_
  rintro t g1 ⟨r', -, h1, hf⟩
  refine Meets.bind (P := fun _ g' => g.Reaches m .plain r' g' ∧ 0 < g'.code.size) ?_
    fun _ g2 h2 => (meets_fixLine start.line h2.1 h2.2).mono fun _ _ h3 => ⟨r', h3⟩
  cases t with
  | «local» k =>
    -- The closure itself is written into the variable.
    have hk : k < g.active.size := hf
    refine (meets_setPos h1 _).bind fun _ g2 h2 => ?_
    exact (meets_closure hb span params isVararg h2 (Nat.lt_of_lt_of_le hk h2.active_le)).mono
      fun _ _ h3 => ⟨h3.1.mono h.ready.level, h3.2⟩
  | _ =>
    exact (meets_store (ExprCode.ofFunction_sound hb span params isVararg) h1 hf).mono
      fun _ _ h2 => ⟨h2.1, h2.2 (by simp)⟩

lemma declareLocalFunction_sound (name : Bytes) (span : Span) (params : List Ident)
    (isVararg : Bool) (hb : BodySound lax body) :
    StatementSound lax (declareLocalFunction name (closure span params isVararg body)) := by
  intro g h
  refine (meets_reserve h.reaches 1).bind ?_
  rintro base g1 ⟨rfl, h1⟩
  refine (meets_declareAll g1 [name]).bind ?_
  rintro - _ ⟨d, rfl, hd⟩
  have ha := h1.active
  have h2 := (Passes.step h h1).declared hd (by simp [ha])
  have hs : d.active.size = g.active.size + 1 := by rw [hd.size, ha]; rfl
  refine (meets_closure hb span params isVararg h2.reaches (Nat.lt_succ_self _)).bind ?_
  rintro - g3 ⟨h3, -⟩
  have ha3 : g3.active = d.active := h3.active
  refine (meets_startVariable (h2.step h3) (by rw [ha3]; omega)).mono ?_
  rintro - g4 ⟨h4, ha4⟩
  have hm := h4.active_le
  exact ⟨_, h4.mono (by omega)⟩

lemma meets_block (hb : BodySound lax body) (h : g.Rests g) :
    Meets lax g (block body) fun _ g' => g.Rests g' ∧ g'.active = g.active := by
  refine meets_update_bind ?_
  have hin : (g.entered false).Rests (g.entered false) := h.enter false
  refine (hb _ hin).bind fun _ g1 h1 => ?_
  refine (meets_leaveBlock h.inBlock h1 h1.level_le).mono ?_
  rintro - g2 ⟨h2, ha, -⟩
  exact ⟨by unfold Rests; rw [ha]; exact h2, ha⟩

lemma block_sound (hb : BodySound lax body) : StatementSound lax (block body) := fun _ h =>
  (meets_block hb h).mono fun _ _ h' => ⟨_, h'.1⟩

lemma passes_jumpTo {target : Nat} (h : g.Passes m .plain r g0) (ht : target ≤ g0.code.size) :
    Meets lax g0 (jumpTo target) fun _ g' => g.Passes m .plain r g' ∧ g0.Alters g.Loose g' := by
  refine (meets_jump h.reaches (.inl rfl)).bind ?_
  rintro js g1 ⟨h1, hj⟩
  have hp := (h.step h1).mono h.ready.level
  have hs := h1.frame.size
  refine (alters_patchTo (S := g.Loose) hp.ready hp.frame.pending (fun pc hpc =>
    ⟨h.frame.loose (hj.loose pc hpc), hj.closable pc hpc⟩) (by omega)).mono ?_
  rintro - g2 ⟨ha, hr, hto⟩
  refine ⟨hp.alter ha hr (hto.trans hp.top), Alters.trans (S := g.Loose) ?_ ha
    fun _ hpc => .inl hpc⟩
  exact { h1.toAlters with frame := h1.frame.weaken h.frame.pending }

lemma whileLoop_sound (lastLine : Int) (hc : cond.Sound lax) (hb : BodySound lax body) :
    StatementSound lax (whileLoop cond body lastLine) := by
  intro g h
  refine (meets_label h.reaches).bind ?_
  rintro start g1 ⟨h1, rfl, -⟩
  refine (hc.jumpIf false h1).bind ?_
  rintro exits g2 ⟨h2, he⟩
  refine meets_update_bind ?_
  have hin := h.enterBehind h2 true
  have ha2 : g2.active = g.active := h2.active
  have hr : (g2.entered true).Rests (g2.entered true) :=
    hin.restart.rests (Nat.le_of_eq (by rw [← ha2]; rfl)) (by rw [← ha2]; rfl)
  refine (meets_block hb hr).bind ?_
  rintro - g3 ⟨h3, ha3⟩
  have hs : g.code.size ≤ g3.code.size := Nat.le_trans h2.frame.size h3.frame.size
  have hp3 := hin.trans h3
  refine (meets_setLine hp3.reaches lastLine).bind fun _ g4 h4 => ?_
  have hp4 := hp3.step h4
  have hs4 := h4.frame.size
  refine (passes_jumpTo hp4 (by omega)).bind ?_
  rintro - g5 ⟨h5, ha5⟩
  have hn : g3.active.size = g.active.size := by rw [ha3, ← ha2]; rfl
  refine (meets_leaveBlock h.inBlock h5 (Nat.le_of_eq hn.symm)).bind ?_
  rintro - g6 ⟨h6, ha6, hk⟩
  have hm := h.active_le
  refine (passes_patchToHere h6 fun pc hpc => ⟨he.loose pc hpc, hk.closable pc ?_⟩).mono ?_
  · have hc3 := h3.frame.closable g.active.size pc
      (Nat.le_of_eq (by rw [← ha2]; rfl)) (he.closable pc hpc)
    exact ha5.frame.closable _ pc (by omega) (h4.frame.closable _ pc (by omega) hc3)
  · rintro - g7 ⟨h7, ha7⟩
    exact ⟨_, h7.mono (Nat.le_of_eq (by rw [ha7, ha6]))⟩

lemma meets_closeInnermost {isLoop : Bool} (h : (g.entered isLoop).Passes m l r g0)
    (hm : g.active.size ≤ m) (hj : ∀ pc ∈ js, g.Loose pc ∧ Closable g0.code g.active.size pc) :
    Meets lax g0 (closeInnermost js) fun _ g' =>
      (g.entered isLoop).Passes g.active.size l r g' ∧
        ∀ pc ∈ js, Closable g'.code g.active.size pc := by
  obtain ⟨b, outer, hbl, -, hnu, -⟩ := h.innermost
  have hma := h.active_le
  have hle : g.active.size ≤ g0.active.size := h.level_le
  refine meets_read ?_
  simp only [hbl, List.head?_cons, hnu]
  split
  · obtain ⟨code, hco, hok⟩ := closeAll_eq_ok (n := g.active.size) (by omega) js
      g0.toDraft fun pc hpc => (hj pc hpc).2
    have hb : ∀ c ∈ g0.blocks, c.numActive ≤ g.active.size := by
      have hn := h.ready.sound.nested
      rw [hbl, ← hnu] at *
      intro c hc
      rcases List.mem_cons.mp hc with rfl | hc
      · exact .refl
      · exact hn.2.2.2.2.numActive_le c hc
    exact meets_updateOrFail (.inl ⟨_, hok, (h.mono hm).closed hco .refl .refl
      hb fun pc hpc => (hj pc hpc).1, fun pc hpc => hco.closable .refl (hj pc hpc).2⟩)
  · exact meets_pure ⟨h.mono hm, fun pc hpc => (hj pc hpc).2⟩

lemma repeatLoop_sound (hc : cond.Sound lax) (hb : BodySound lax body) :
    StatementSound lax (repeatLoop body cond) := by
  intro g h
  refine (meets_label h.reaches).bind ?_
  rintro start g1 ⟨h1, rfl, hc1⟩
  refine meets_update_bind (meets_update_bind ?_)
  have hl := h.enterBehind h1 true
  have ha1 : g1.active = g.active := h1.active
  have hin : ((g1.entered true).entered false).Rests ((g1.entered true).entered false) :=
    (hl.enter false).rests (Nat.le_of_eq (by rw [← ha1]; rfl)) (by rw [← ha1]; rfl)
  refine (hb _ hin).bind fun _ g2 h2 => ?_
  refine (meets_setPos h2.reaches cond.start).bind fun _ g3 h3 => ?_
  refine (hc.jumpIf false h3).bind ?_
  rintro again g4 ⟨h4, hag⟩
  have hle : g1.active.size ≤ g2.active.size := h2.level_le
  have hlo : ∀ pc ∈ again, (g1.entered true).Loose pc :=
    fun pc hpc => h2.frame.loose (hag.loose pc hpc)
  refine (meets_closeInnermost (g := g1.entered true) (Passes.step h2 h4) hle fun pc hpc =>
    ⟨hlo pc hpc, (hag.closable pc hpc).mono hle⟩).bind ?_
  rintro - g5 ⟨h5, ha5⟩
  refine (meets_leaveBlock hl.inBlock' h5 .refl).bind ?_
  rintro - g6 ⟨h6, -, hk⟩
  have hp := hl.trans h6
  have hs : g.code.size ≤ g6.code.size := hp.frame.size
  refine (alters_patchTo (S := (g.entered true).Loose) hp.ready hp.frame.pending
    (fun pc hpc => ⟨hl.frame.loose (hlo pc hpc), hk.closable pc (ha5 pc hpc)⟩)
    hs).bind ?_
  rintro - g7 ⟨ha, hr, ht⟩
  refine (meets_leaveBlock h.inBlock (hp.alter ha hr (ht.trans hp.top))
    (Nat.le_of_eq (by rw [← ha1]; rfl))).mono ?_
  rintro - g8 ⟨h8, ha8, -⟩
  exact ⟨_, h8.mono (Nat.le_of_eq (by rw [ha8]))⟩

def ClauseSound (lax : Prop) (clause : Bool → List Nat → Gen (List Nat)) : Prop :=
  ∀ (isLast : Bool) (escapes : List Nat) (g : Generator), g.Rests g →
    Meets lax g (clause isLast escapes) fun escapes' g' => g.Rests g' ∧
      g'.active = g.active ∧ ∃ more, escapes' = escapes ++ more ∧
        Dangling g.active.size g.toDraft g'.toDraft more

lemma meets_endClause {rest : Gen Unit} {skip : List Nat} (isLast : Bool) (escapes : List Nat)
    (hre : BodySound lax rest) (hg : g.blocks ≠ []) (h : (g.entered false).Rests g0)
    (hs : Dangling g.active.size g.toDraft g0.toDraft skip) :
    Meets lax g0 (endClause isLast escapes rest skip) fun escapes' g' => g.Rests g' ∧
      g'.active = g.active ∧ ∃ more, escapes' = escapes ++ more ∧
        Dangling g.active.size g.toDraft g'.toDraft more := by
  refine (hre g0 h.restart).bind fun _ g1 h1 => ?_
  have hp := h.trans h1
  refine (meets_leaveBlock hg hp hp.level_le).bind ?_
  rintro - g2 ⟨h2, ha2, hk⟩
  have hm := h2.active_le
  rw [ha2] at hm
  have hs2 : Dangling g.active.size g.toDraft g2.toDraft skip := fun pc hpc =>
    ⟨(hs pc hpc).1, hk.closable pc (h1.frame.closable _ pc h.level_le (hs pc hpc).2)⟩
  split
  · refine (passes_patchToHere h2 hs2).bind ?_
    rintro - g3 ⟨h3, ha3⟩
    have hac := ha3.trans ha2
    exact meets_pure ⟨by unfold Rests; rw [hac]; exact h3, hac, [], by simp,
      by simp [Dangling]⟩
  · refine (meets_jump h2.reaches (.inl rfl)).bind ?_
    rintro escape g3 ⟨h3, he⟩
    have hp3 := (h2.step h3).mono h2.ready.level
    refine (alters_patchToHere (S := g.Loose) hp3.ready hp3.frame.pending
      fun pc hpc => ⟨(hs2 pc hpc).1, h3.frame.closable _ pc (by omega) (hs2 pc hpc).2⟩).bind ?_
    rintro - g4 ⟨ha, hr, ht⟩
    have hac : g4.active = g.active := ha.active.trans (h3.active.trans ha2)
    refine meets_pure ⟨?_, hac, escape, rfl, fun pc hpc => ⟨?_, ?_⟩⟩
    · unfold Rests
      rw [hac]
      exact hp3.alter ha hr (ht.trans hp3.top)
    · exact h2.frame.loose (he.loose pc hpc)
    · exact ha.frame.closable _ pc (by omega) (he.closable pc hpc)

lemma isInLoop_of_shapes (h : d'.blocks.map Block.shape = d.blocks.map Block.shape)
    (hd : d.isInLoop = true) : d'.isInLoop = true := by
  unfold Draft.isInLoop at hd ⊢
  rw [any_isLoop_of_shapes h, hd]

lemma isInLoop_entered {g1 : Generator} (h : (g1.entered false).blocks.map Block.shape =
    (g.entered false).blocks.map Block.shape) (hl : g.isInLoop = true) :
    (g1.entered false).isInLoop = true := by
  refine isInLoop_of_shapes (d := (g.entered false).toDraft) h ?_
  simp only [Draft.isInLoop, entered, Draft.enterBlock, List.any_cons] at hl ⊢
  rw [hl]
  rfl

lemma clause_sound {test : ExprCode} {body : ClauseBody} (ht : test.Sound lax)
    (hal : BodySound lax body.all)
    (hr : ∀ rest, body.afterBreak = some (some rest) → BodySound lax rest) :
    ClauseSound lax (clause test body) := by
  intro isLast escapes g h
  have hg := h.inBlock
  refine meets_read ?_
  split
  · next rest? heq hl =>
    refine (ht.jumpIf true h.reaches).bind ?_
    rintro breaks g1 ⟨h1, hbr⟩
    refine meets_update_bind (meets_update_bind ?_)
    have ha : g1.active = g.active := h1.active
    have hin := h.enterBehind h1 false
    have hb := hin.addBreak (isInLoop_entered hin.shapes hl) fun pc hpc => ⟨hbr.loose pc hpc, by
      show Closable g1.code g1.active.size pc
      rw [ha]
      exact hbr.closable pc hpc⟩
    cases rest? with
    | none =>
      refine (meets_leaveBlock hg hb .refl).bind ?_
      rintro - g2 ⟨h2, ha2, -⟩
      exact meets_pure ⟨by unfold Rests; rw [ha2]; exact h2, ha2, [], by simp,
        by simp [Draft.Dangling]⟩
    | some rest =>
      refine (meets_jump hb.reaches (.inl rfl)).bind ?_
      rintro skip g2 ⟨h2, hs⟩
      have ha2 : g2.active = g.active := h2.active.trans ha
      have hpa := (hb.step h2).mono hb.ready.level
      exact meets_endClause isLast escapes (hr rest heq) hg
        (hpa.rests (Nat.le_of_eq (by rw [ha2])) (by rw [ha2]))
        fun pc hpc => ⟨hb.frame.loose (hs.loose pc hpc), hs.closable pc hpc⟩
  · refine (ht.jumpIf false h.reaches).bind ?_
    rintro skip g1 ⟨h1, hs⟩
    refine meets_update_bind ?_
    have ha : g1.active = g.active := h1.active
    have hin := h.enterBehind h1 false
    exact meets_endClause isLast escapes hal hg
      (hin.rests (Nat.le_of_eq (by rw [← ha]; rfl)) (by rw [← ha]; rfl)) hs.dangling

lemma breakStatement_sound : StatementSound lax breakStatement := by
  intro g h
  refine meets_read ?_
  cases hl : g.isInLoop with
  | false => exact meets_fail_bind nofun
  | true =>
    refine (meets_jump h.reaches (.inl rfl)).bind ?_
    rintro js g1 ⟨h1, hj⟩
    have ha := h1.active
    have hp := (Passes.step h h1).mono h.ready.level
    refine meets_update ⟨_, (hp.addBreak (isInLoop_of_shapes h1.shapes hl)
      fun pc hpc => ⟨hj.loose pc hpc, ?_⟩).mono (Nat.le_of_eq ?_)⟩
    · rw [ha]
      exact hj.closable pc hpc
    · show g1.active.size = _
      rw [ha]

def ReturnedAt (first top : Nat) : ResultCount → Prop
  | .exactly n => first + n ≤ top
  | .all => first < top

lemma replaces_tailCall {i j : Instruction} (hop : i.op? = some .call) (hf : i.Fits bs)
    (hj : j.IsABC .tailCall i.argA i.argB i.argC) : i.Replaces bs j where
  fits := by
    refine hj.fits rfl ⟨fun r hr => hf.registers r ?_, by simp,
      by simp, by simp⟩
    simp only [registers, hop, Option.elim_some, OpCode.registers, List.mem_append]
    exact .inl hr
  after := by
    rw [hj.after_eq]
    simp [after, hop, OpCode.after]
  follows l hl := by
    cases l <;> simp_all [Instruction.Follows, before, hj.op, hj.argB, OpCode.before]

lemma meets_makeTailCall (h : g.Reaches m l r g0) (he : g.EndsInCall g0.toDraft) :
    Meets lax g0 makeTailCall fun _ => g.Reaches m l r := by
  obtain ⟨hs, i, hi, hop⟩ := he
  rw [Array.back?_eq_getElem?] at hi
  obtain ⟨j, hj, hx⟩ := abc_eq_ok (a := i.argA.toUInt8)
    (rfl : OpCode.tailCall.mode = .abc) i.argB_le i.argC_le
  rw [toNat_toUInt8 i.argA_lt] at hx
  refine meets_read (meets_read ?_)
  simp only [hi, hop, if_true, hj]
  refine meets_replace (h.replace hi (by omega)
    (replaces_tailCall hop (h.ready.sound.coded.fits _ i hi) hx) ?_ (hx.isJump_eq rfl))
  rw [isJump_of_op hop]
  rfl

lemma meets_returned (hv : ∀ e ∈ values, e.Sound lax) (h : g.Reaches m .plain r g0) :
    Meets lax g0 (returned values) fun p g' => ∃ r', g.Reaches m p.2.link r' g' ∧
      ReturnedAt p.1 r' p.2 := by
  have hdr : ∀ e ∈ values.dropLast, e.Sound lax :=
    fun e hme => hv e (List.dropLast_subset values hme)
  cases hl : values.getLast? with
  | none =>
    simp only [returned, hl]
    exact meets_pure ⟨r, h, Nat.zero_le _⟩
  | some last =>
    cases hr : last.results with
    | some results =>
      simp only [returned, hl, hr]
      refine meets_read ?_
      rw [h.top]
      refine (meets_nextRegs values.dropLast hdr h).bind fun _ g1 h1 => ?_
      refine (meets_reserve h1 1).bind ?_
      rintro _ g2 ⟨rfl, h2⟩
      have hd : ResultDest g.active.size (r + values.dropLast.length + 1)
          (r + values.dropLast.length) true .all := ⟨rfl, h1.active_le⟩
      refine ((hv last (List.mem_of_getLast? hl)).results results hr h2 hd).bind ?_
      rintro - g3 ⟨h3, hc⟩
      have he : ∀ {g4 : Generator}, g.Reaches 255 .open (r + values.dropLast.length + 1) g4 →
          ∃ r', g.Reaches m ResultCount.all.link r' g4 ∧ ReturnedAt r r' .all :=
        fun h4 => ⟨_, h4.mono h.ready.level, by simp only [ReturnedAt]; omega⟩
      split
      · next ho =>
        have ho : last.isCall = true ∧ values.length = 1 := by simpa using ho
        exact (meets_makeTailCall h3 ((hc ho.1 rfl).since h2.frame.size)).bind
          fun _ g4 h4 => meets_pure (he h4)
      · exact meets_pure (he h3)
    | none =>
      simp only [returned, hl, hr]
      rcases values with _ | ⟨value, _ | ⟨second, rest⟩⟩
      · simp at hl
      · refine ((hv value (by simp)).anyReg h).bind ?_
        rintro arg g1 ⟨r', h1, -, hlt⟩
        exact meets_pure ⟨r', h1, hlt⟩
      · refine meets_read ?_
        rw [h.top]
        exact (meets_nextRegs _ hv h).bind fun _ g1 h1 => meets_pure ⟨_, h1, .refl⟩

lemma returnStatement_sound (start : Position) (hv : ∀ e ∈ values, e.Sound lax) :
    StatementSound lax (returnStatement start values) := by
  refine StatementSound.of_piece fun {g m r} h => ?_
  refine (meets_returned hv h).bind ?_
  rintro ⟨first, n⟩ g1 ⟨r', h1, hat⟩
  refine (meets_setPos h1 start).bind fun _ g2 h2 => ?_
  have hs := h2.le_stack
  have hs' := h2.stack_le
  have hr : first ≤ 254 ∧ n.arg ≤ 511 ∧ OpCode.return.Fits g2.bounds first n.arg 0 0 := by
    cases n with
    | all =>
      have hat : first < r' := hat
      refine ⟨by omega, by simp [ResultCount.arg], ?_⟩
      constructor <;> simp [ResultCount.arg]
      omega
    | exactly k =>
      have hat : first + k ≤ r' := hat
      refine ⟨by omega, by simp [ResultCount.arg]; omega, ?_⟩
      constructor <;> simp [ResultCount.arg]
      omega
  have ht : OpCode.return.Takes n.arg n.link := by
    cases n <;> simp [OpCode.Takes, ResultCount.link, OpCode.before, ResultCount.arg]
  refine (meets_emitABC .return first n.arg 0 h2 rfl (by omega) hr.2.1 (Nat.zero_le _) hr.2.2
    ht).discard ?_
  rintro - g3 ⟨h3, -⟩
  exact ⟨r', h3.mono h.ready.level⟩

lemma meets_loopBody (names : List Bytes) (hb : BodySound lax body)
    (h : g.Passes 255 .plain g.active.size g) :
    Meets lax g (loopBody names body) fun _ g' => g.Rests g' ∧ g'.active = g.active ∧
      g.active.size + names.length ≤ g'.bounds.stack := by
  refine meets_update_bind ?_
  have hin := h.enter false
  refine (meets_declareAll _ names).bind ?_
  rintro - _ ⟨d, rfl, hd⟩
  refine (meets_reserve_declared hin hd).discard_bind ?_
  rintro - g1 ⟨h1, ha⟩
  have hs : g1.active.size = g.active.size + names.length := by
    rw [ha, hd.size]
    rfl
  have hm := h1.active_le
  have hr : (g.entered false).Rests g1 := h1.rests (by omega) hs
  refine (meets_block hb hr.restart).bind ?_
  rintro - g2 ⟨h2, -⟩
  have hp := hr.trans h2
  refine (meets_leaveBlock h.inBlock hp hp.level_le).mono ?_
  rintro - g3 ⟨h3, ha3, hc⟩
  refine ⟨by unfold Rests; rw [ha3]; exact h3, ha3, ?_⟩
  have hle := h1.reaches.le_stack
  have hle2 := h2.frame.bounds.stack
  have hle3 := hc.bounds.stack
  omega

lemma meets_loopStep {step : Option ExprCode} (hs : ∀ e, step = some e → e.Sound lax)
    (h : g.Reaches m .plain r g0) :
    Meets lax g0 (loopStep step) fun _ => g.Reaches 255 .plain (r + 1) := by
  cases step with
  | some e => exact ((hs e rfl).nextReg h).discard fun _ _ h' => h'.2
  | none =>
    refine (meets_constant h _).bind ?_
    rintro k g1 ⟨h1, hk⟩
    refine ((meets_reserve h1 1).and (silent_reserve 1)).bind ?_
    rintro _ g2 ⟨⟨rfl, h2⟩, hsi⟩
    have hlt : k < g1.constants.size := lt_size hk
    exact meets_loadConstant h2 (Nat.lt_succ_self _) (Nat.lt_of_lt_of_le hlt hsi.bounds.constants)

lemma meets_emitAsBx (op : OpCode) (a : Nat) (h : g0.Steady l)
    (hp : ∀ pc ∈ g0.pending, ∃ i, g0.code[pc]? = some i ∧ i.isJump = true)
    (hm : op.mode = .asbx) (ha : a < 256) (hf : op.Fits g0.bounds a 0 0 0)
    (ht : op.Takes 0 l) :
    Meets lax g0 (emitAsBx op a 0) fun pc g' => pc = g0.code.size ∧
      g0.Reaches 255 (op.after 0 0) g0.firstFree g' ∧ ∃ i, i.IsAsBx op a 0 ∧ g0.Emits i g' := by
  obtain ⟨i, hi, hx⟩ := asbx_eq_ok (a := a.toUInt8) (x := 0) hm rfl
  rw [toNat_toUInt8 ha] at hx
  refine (meets_emit hi hp).mono ?_
  rintro pc g' ⟨rfl, he⟩
  have hr := h.emits (hx.fits hm hf) (hx.follows hm ht) (fun _ => hx.argSBx) he
  rw [hx.after_eq hm] at hr
  exact ⟨rfl, hr, i, hx, he⟩

lemma passes_patchBack {pc target : Nat} (h : g.Passes m l r g0) (hl : g.Loose pc)
    (hj : ∃ i, g0.code[pc]? = some i ∧ i.isJump = true)
    (ht : target < g0.code.size) :
    Meets lax g0 (patchTo [pc] target) fun _ => g.Passes m l r := by
  refine meets_read ?_
  rw [if_neg (Nat.ne_of_lt ht)]
  refine (alters_fixJumps (S := g.Loose) h.ready h.frame.pending (fun k hk => ?_)
    (Nat.le_of_lt ht)).mono fun _ _ h' => h.alter h'.1 h'.2.1 (h'.2.2.trans h.top)
  obtain rfl := List.mem_singleton.mp hk
  exact ⟨hl, hj⟩

lemma steady_setLine {S : Nat → Prop} (line : Int) (h : g0.Steady l)
    (hp : ∀ pc ∈ g0.pending, S pc) :
    Meets lax g0 (setLine line) fun _ g' => g0.Alters S g' ∧ g'.Steady l ∧
      g'.firstFree = g0.firstFree ∧ g'.code = g0.code ∧
      g'.pending = g0.pending := by
  obtain ⟨ha, hs⟩ := h.modify g0.pos line (.inl rfl) h.top h.sound.top .refl h.sound.stack hp .inl
  exact meets_update ⟨ha, hs, rfl, rfl, rfl⟩

lemma OpCode.fits_forPrep (h : a + 3 ≤ bs.stack) :
    OpCode.forPrep.Fits bs a 0 0 0 := by
  constructor <;> simp
  omega

lemma OpCode.fits_forLoop (h : a + 4 ≤ bs.stack) :
    OpCode.forLoop.Fits bs a 0 0 0 := by
  constructor <;> simp
  omega

/-- From `g0`, with the jump at `pc` patched to the next instruction and the line set. -/
structure Rejoins (g g0 : Generator) (pc : Nat) (g' : Generator) : Prop where
  past : g.Past g'
  alters : g0.Alters g.Loose g'
  steady : g'.Steady .plain
  top : g'.firstFree = g0.firstFree
  code : g'.code = g0.code
  pending : g'.pending = g0.pending ++ [pc]
  pends : ∀ pc ∈ g'.pending, ∃ i, g'.code[pc]? = some i ∧ i.isJump = true
  silent : Silent { g0 with toDraft := g0.patchToHere [pc] } g'
  frame : (g0.patchToHere [pc]).Frame 255 g'.toDraft

lemma meets_rejoins {i : Instruction} {pc : Nat} (line : Int) (h : g.Passes m .plain r g0)
    (hl : g.Loose pc) (hi : g0.code[pc]? = some i) (hj : i.isJump = true) :
    Meets lax g0 (do patchToHere [pc]; setLine line) fun _ => Rejoins g g0 pc := by
  refine ((steady_patchToHere h.ready.toSteady h.frame.pending
    fun pc hpc => by rw [List.mem_singleton.mp hpc]; exact hl).and meets_patchToHere_eq).bind ?_
  rintro - g1 ⟨⟨ha1, hs1, ht1, hc1, hp1⟩, rfl⟩
  refine ((steady_setLine line hs1 fun pc hpc => hpc).and (silent_setLine line)).mono ?_
  rintro - g2 ⟨⟨ha2, hs2, ht2, hc2, hp2⟩, hsi⟩
  have ha := ha1.trans ha2 fun pc hpc => ha1.frame.pending pc hpc
  have hle := Nat.le_trans h.level_le (Nat.le_trans h.active_le (by decide : 200 ≤ 255))
  refine ⟨h.toPast.alter ha hle, ha, hs2, ht2.trans ht1, hc2.trans hc1, hp2.trans hp1, ?_, hsi,
    ha2.frame⟩
  rw [hp2, hp1, hc2, hc1]
  intro pc hpc
  rcases List.mem_append.mp hpc with hpc | hpc
  · exact (h.ready.settled pc hpc).isJump
  · rw [List.mem_singleton.mp hpc]
    exact ⟨i, hi, hj⟩

lemma numericFor_sound {first limit : ExprCode} {step : Option ExprCode} (start : Position)
    (name : Bytes) (hf : first.Sound lax) (hl : limit.Sound lax)
    (hs : ∀ e, step = some e → e.Sound lax) (hb : BodySound lax body) :
    StatementSound lax (numericFor start name first limit step body) := by
  intro g h
  have hin := h.enter true
  have hm : (g.entered true).active.size ≤ 200 := h.active_le
  refine meets_update_bind (meets_read ?_)
  rw [show (g.enterBlock true).firstFree = g.active.size from h.top]
  refine (hf.nextReg hin.reaches).discard_bind ?_
  rintro - g1 ⟨-, h₁⟩
  refine (hl.nextReg h₁).discard_bind ?_
  rintro - g2 ⟨-, h₂⟩
  refine (meets_loopStep hs h₂).bind fun _ g3 h3 => ?_
  refine (meets_declareAll g3 _).bind ?_
  rintro - _ ⟨d, rfl, hd⟩
  have ha3 : g3.active = g.active := h3.active
  have hsi : d.active.size = g.active.size + 3 := by rw [hd.size, ha3]; rfl
  have h4 := (hin.step h3).declared hd (Nat.le_of_eq (by rw [ha3]; rfl))
  refine (meets_setLine h4.reaches start.line).bind fun _ g5 h5 => ?_
  have hp5 := h4.step h5
  have hle5 := hp5.reaches.le_stack
  have hle5' := hp5.reaches.stack_le
  refine (meets_emitAsBx .forPrep g.active.size hp5.ready.toSteady
    (fun pc hpc => (hp5.ready.settled pc hpc).isJump) rfl (by omega)
    (OpCode.fits_forPrep (by omega)) rfl).bind ?_
  rintro _ g6 ⟨rfl, h6, i, hi, he⟩
  have ha6 : g6.active = d.active := h6.active.trans h5.active
  have hp6 := hp5.step h6
  have ht6 : g6.active.size = g5.firstFree := by
    rw [ha6, hsi]
    exact hp5.top.symm
  refine (meets_loopBody [name] hb (by rw [ht6]; exact hp6.restart)).bind ?_
  rintro - g7 ⟨h7, ha7, hle7⟩
  have hp7 := hp6.trans h7
  have hi7 := h7.frame.kept he.getElem? (by simp [he.pending]) (by simp [hi.op])
  have hp : (g.entered true).Loose g5.code.size := .inr hp5.frame.size
  rw [← bind_assoc]
  refine (meets_rejoins start.line hp7 hp hi7 (by rw [isJump_of_op hi.op]; rfl)).bind ?_
  rintro - g9 h9
  have hle9 := h9.alters.frame.bounds.stack
  simp only [ha6, hsi, List.length_singleton] at hle7
  refine (meets_emitAsBx .forLoop g.active.size h9.steady h9.pends rfl (by omega)
    (OpCode.fits_forLoop (by omega)) rfl).bind ?_
  rintro _ g10 ⟨rfl, h10, j, hj, he10⟩
  have hp10 : (g.entered true).Passes 255 .plain g9.firstFree g10 :=
    ⟨h9.past.alter { h10.toAlters with frame := h10.frame.weaken h9.past.frame.pending }
      (by omega), h10.ready, h10.top⟩
  refine (passes_patchBack hp10 (.inr h9.past.frame.size)
    ⟨j, he10.getElem?, by rw [isJump_of_op hj.op]; rfl⟩ ?_).bind fun _ g11 h11 => ?_
  · have h1 := lt_size hi7
    rw [he10.size, h9.code]
    omega
  · refine (meets_leaveBlock h.inBlock h11 (Nat.le_trans h.active_le (by omega))).mono ?_
    rintro - g12 ⟨h12, ha12, -⟩
    exact ⟨_, h12.mono (Nat.le_of_eq (by rw [ha12]))⟩

lemma OpCode.fits_tforCall {c : Nat} (h : a + 6 ≤ bs.stack) (hc : c ≤ 2) :
    OpCode.tforCall.Fits bs a 0 c 0 := by
  constructor <;> simp
  omega

lemma OpCode.fits_tforLoop (h : a + 1 < bs.stack) :
    OpCode.tforLoop.Fits bs a 0 0 0 := by
  constructor <;> simp
  omega

lemma meets_checkIterator (names : List Ident) (exprs : List ExprCode) :
    Meets lax g (checkIterator names exprs) fun _ g' => g' = g ∧ names.length ≤ 2 := by
  unfold checkIterator
  split
  · exact meets_update_bind (meets_fail nofun)
  · exact meets_update_bind (meets_fail nofun)
  · next hn _ => exact meets_pure ⟨rfl, List.getElem?_eq_none_iff.mp hn⟩

lemma genericFor_sound {exprs : List ExprCode} (start : Position) (names : List Ident)
    (he : ∀ e ∈ exprs, e.Sound lax) (hb : BodySound lax body) :
    StatementSound lax (genericFor start names exprs body) := by
  intro g h
  refine (meets_checkIterator names exprs).bind ?_
  rintro - _ ⟨rfl, hn⟩
  rename_i g
  have hin := h.enter true
  refine meets_update_bind ?_
  refine (meets_assignValues he hin.reaches 3).bind ?_
  rintro _ g1 ⟨rfl, h1⟩
  rw [if_neg (by simp)] at h1
  refine (meets_checkStack h1 3).bind ?_
  rintro - g2 ⟨h2, hst⟩
  refine (meets_declareAll g2 _).bind ?_
  rintro - _ ⟨d, rfl, hd⟩
  have ha2 : g2.active = g.active := h2.active
  have hs : d.active.size = g.active.size + 3 := by rw [hd.size, ha2]; rfl
  have h3 := (hin.step h2).declared hd (Nat.le_of_eq (by rw [ha2]; rfl))
  have hs3 : d.bounds.stack = g2.bounds.stack := by rw [hd.eq]; rfl
  refine (meets_setLine h3.reaches start.line).bind fun _ g4 h4 => ?_
  refine ((meets_jump (h3.restart.step h4).reaches (.inl rfl)).and meets_jump_headD).bind ?_
  rintro prep g5 ⟨⟨h5, hp⟩, hh, hs5⟩
  have hin5 := (h3.restart.step h4).step h5
  have ha5 : g5.active = d.active := h5.active.trans h4.active
  refine (meets_loopBody _ hb (by rw [ha5, hs]; exact hin5.restart)).bind ?_
  rintro - g6 ⟨h6, ha6, -⟩
  have hin6 := hin5.trans h6
  have hp6 := h3.trans hin6
  have hs6 : d.bounds.stack ≤ g6.bounds.stack := hin6.frame.bounds.stack
  have hsi6 := h6.frame.size
  have hm6 := hp6.active_le
  refine (alters_patchToHere (S := (g.entered true).Loose) hp6.ready hp6.frame.pending fun pc hpc =>
      ⟨(h3.step h4).frame.loose (hp.loose pc hpc), ?_⟩).bind ?_
  · refine h6.frame.closable _ pc (Nat.le_of_eq (by rw [ha6])) ?_
    exact (hp.closable pc hpc).mono (by omega)
  rintro - g7 ⟨ha7, hr7, ht7⟩
  have hp7 := hp6.alter ha7 hr7 (ht7.trans hp6.top)
  have hsi7 := ha7.frame.size
  have hs7 := ha7.frame.bounds.stack
  refine (meets_setLine hp7.reaches start.line).bind fun _ g8 h8 => ?_
  have hs8 := h8.frame.bounds.stack
  have hm8 := h8.stack_le
  refine (meets_emitABC .tforCall _ 0 names.length h8 rfl (by omega) (Nat.zero_le _) (by omega)
    (OpCode.fits_tforCall (by omega) hn) rfl).discard_bind ?_
  rintro - g9 ⟨h9, -, -⟩
  have hp9 := hp7.step h9
  have hsi9 := h9.frame.size
  have hs9 := h9.frame.bounds.stack
  refine (meets_emitAsBx .tforLoop _ hp9.ready.toSteady
    (fun pc hpc => (hp9.ready.settled pc hpc).isJump) rfl (by omega)
    (OpCode.fits_tforLoop (by omega)) rfl).bind ?_
  rintro _ g10 ⟨rfl, h10, j, hj, he⟩
  have hlt := he.size
  refine (passes_patchBack (hp9.step h10) (.inr hp9.frame.size)
    ⟨j, he.getElem?, by rw [isJump_of_op hj.op]; rfl⟩ (by omega)).bind fun _ g11 h11 => ?_
  refine (meets_leaveBlock h.inBlock h11 (Nat.le_trans h.active_le (by omega))).mono ?_
  rintro - g12 ⟨h12, ha12, -⟩
  exact ⟨_, h12.mono (Nat.le_of_eq (by rw [ha12]))⟩

end Gen

end LuaBytecode
