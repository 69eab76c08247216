import LuaBytecode.Proofs.Generator.Code

namespace LuaBytecode

open Draft Instruction

variable {j i : Instruction} {pc r p q k n : Nat} {S : Nat → Prop} {t : ConstantTable} {v : Value}
  {bs : Bounds}

namespace Draft

variable {d d' : Draft} {code : Array Instruction}

lemma Provides.mono {u : UpvalueDescriptor} (h : d.Provides u) (hb : d.bounds.Le d'.bounds) :
    d'.Provides u := by
  have hs : d.maxStackSize ≤ d'.maxStackSize := hb.stack
  have hu : d.upvalues.size ≤ d'.upvalues.size := hb.upvalues
  cases hin : u.inStack <;>
    simp only [Provides, hin, Bool.false_eq_true, ↓reduceIte] at h ⊢ <;> omega

lemma Sound.modify (h : d.Sound) {lineInfo : Array Int64} {s t : Nat} {ps : List Nat}
    {pos : Position} {line : Int} (hc : Coded d.bounds code) (hl : lineInfo.size = code.size)
    (hj : ∀ b ∈ d.blocks, ∀ pc, Closable d.code b.numActive pc → Closable code b.numActive pc)
    (hr : r ≤ s) (hs : d.maxStackSize ≤ s) (hs' : s ≤ 254) : Sound { d with
      code := code, lineInfo := lineInfo, firstFree := r, maxStackSize := s, lastTarget := t,
      pending := ps, pos := pos, line := line } := by
  have hb : d.bounds.Le { d.bounds with stack := s } := ⟨hs, .refl, .refl, .refl⟩
  exact
    { coded := hc.mono hb
      lines := hl
      top := hr
      stack := hs'
      released := h.released
      nested := h.nested
      breaks := fun b hm k p hk hp pc hpc => hj b hm pc (h.breaks b hm k p hk hp pc hpc)
      slots := h.slots
      active := h.active
      upvalues := h.upvalues
      constants := h.constants
      functions := fun f hf =>
        ⟨(h.functions f hf).1, fun u hu => ((h.functions f hf).2 u hu).mono hb⟩ }

lemma Sound.emitted (h : d.Sound) (hp : Patched d.pending d.code.size d.code code)
    (hf : i.Fits d.bounds) (hl : i.Follows d.constants.size d.link)
    (ht : i.isJump = true → i.argSBx = 0) : (d.emitted code i).Sound := by
  have hc := hp.coded h.coded .refl
  have hli : linkAt code code.size = d.link := by
    rw [hp.size]
    exact hp.linkAt_eq h.coded _
  refine h.modify (hc.push hf ?_ ?_) ?_ ?_ h.top .refl h.stack
  · rw [hli]
    exact hl
  · intro hj
    rw [ht hj]
    omega
  · simp [hp.size, h.lines]
  · intro b _ pc hcl
    exact (hp.closable hcl).push

lemma Keeps.emitted {l : List Nat} {k : Nat} (hp : Patched l k d.code code)
    (hl : ∀ pc ∈ l, S pc) : d.Keeps S n (d.emitted code i) where
  size := by simp [Draft.emitted, hp.size]
  code pc j hj hn := by
    have hlt := lt_size hj
    left
    show (code.push i)[pc]? = _
    rw [Array.getElem?_push, if_neg (by rw [hp.size]; omega), hp.kept pc fun h => hn (hl pc h), hj]
  closable m pc _ hc := (hp.closable hc).push
  pending pc hpc := by simp [Draft.emitted] at hpc
  mergeable he := by simp [Draft.emitted, hp.size] at he
  bounds := .refl _
  constants _ _ h := h
  source := rfl
  isVararg := rfl
  numParams := rfl

lemma Keeps.recoded (hs : code.size = d.code.size)
    (hk : ∀ (pc : Nat) (i : Instruction), d.code[pc]? = some i → ¬ S pc → code[pc]? = some i)
    (hc : ∀ m pc, m ≤ n → Closable d.code m pc → Closable code m pc)
    (hp : ∀ pc ∈ d.pending, S pc ∨ d.code.size ≤ pc) : d.Keeps S n { d with code := code } :=
  { Keeps.refl (n := n) hp with
    size := Nat.le_of_eq hs.symm
    code := fun pc i hi hn => .inl (hk pc i hi hn)
    closable := hc
    mergeable := fun _ hm => ⟨hs ▸ hm.1, hm.2⟩ }

lemma link_emitted : (d.emitted code i).link = i.after := linkAt_size_push

end Draft

namespace Generator

variable {g g0 g' : Generator} {m : Nat} {l : Link}

def Emits (i : Instruction) (g g' : Generator) : Prop :=
  ∃ code, Patched g.pending g.code.size g.code code ∧ g' = { g with toDraft := g.emitted code i }

section

variable (he : g.Emits i g')
include he

lemma Emits.size : g'.code.size = g.code.size + 1 := by
  obtain ⟨code, hp, rfl⟩ := he
  simp [Draft.emitted, hp.size]

lemma Emits.getElem? : g'.code[g.code.size]? = some i := by
  obtain ⟨code, hp, rfl⟩ := he
  simp [Draft.emitted, ← hp.size]

lemma Emits.last : g'.code[g'.code.size - 1]? = some i := by
  rw [he.size]
  exact he.getElem?

lemma Emits.pending : g'.pending = [] := by
  obtain ⟨code, hp, rfl⟩ := he
  rfl

lemma Emits.blocks : g'.blocks = g.blocks := by
  obtain ⟨code, hp, rfl⟩ := he
  rfl

end

lemma Steady.emits (h : g.Steady l) (hf : i.Fits g.bounds)
    (hl : i.Follows g.constants.size l) (ht : i.isJump = true → i.argSBx = 0)
    (he : g.Emits i g') : g.Reaches 255 i.after g.firstFree g' := by
  obtain ⟨code, hp, rfl⟩ := he
  rw [← h.link] at hl
  refine ⟨⟨Keeps.emitted hp fun _ h => h, rfl, rfl, rfl, rfl, forall₂_touched_refl _⟩, ?_, rfl⟩
  exact
    { sound := h.sound.emitted hp hf hl ht
      chained := h.chained
      link := link_emitted
      top := h.top
      settled := fun pc hpc => by simp [emitted] at hpc
      level := .refl }

lemma Steady.modify (h : g0.Steady l) {S : Nat → Prop} (pos : Position) (line : Int)
    {t r s : Nat} {ps : List Nat} (ht : t = g0.lastTarget ∨ g0.code.size ≤ t)
    (hr : g0.active.size ≤ r) (hrs : r ≤ s) (hs : g0.bounds.stack ≤ s)
    (hs' : s ≤ 254) (hp : ∀ pc ∈ ps, S pc)
    (hm : ps = [] → g0.pending = [] ∨ g0.code.size ≤ t) :
    g0.Alters S { g0 with toDraft := { g0.toDraft with
      firstFree := r, maxStackSize := s, lastTarget := t, pending := ps, pos := pos,
      line := line } } ∧
    Steady l { g0 with toDraft := { g0.toDraft with
      firstFree := r, maxStackSize := s, lastTarget := t, pending := ps, pos := pos,
      line := line } } := by
  refine ⟨⟨?_, rfl, rfl, rfl, rfl, forall₂_touched_refl _⟩, ?_⟩
  · exact
      { size := .refl
        code := fun _ _ hi _ => .inl hi
        closable := fun _ _ _ hc => hc
        pending := fun pc hpc => .inl (hp pc hpc)
        mergeable := by
          rintro - ⟨hlt, hn⟩
          have hlt : t < g0.code.size := hlt
          exact ⟨by omega, (hm hn).elim id (by omega)⟩
        bounds := ⟨hs, .refl, .refl, .refl⟩
        constants := fun _ _ h => h
        source := rfl
        isVararg := rfl
        numParams := rfl }
  · exact
      { sound := h.sound.modify h.sound.coded h.sound.lines (fun _ _ _ hc => hc) hrs hs hs'
        chained := h.chained
        link := h.link
        top := hr }

lemma Reaches.modify (h : g.Reaches m l r g0) {pos : Position} {line : Int} {t r' s : Nat}
    {ps : List Nat} (ht : t = g0.lastTarget ∨ g0.code.size ≤ t)
    (hr : g.active.size ≤ r') (hrs : r' ≤ s) (hs : g0.bounds.stack ≤ s)
    (hs' : s ≤ 254) (hp : ∀ pc ∈ ps, g.Loose pc ∧ Closable g0.code m pc)
    (hm : ps = [] → g0.pending = [] ∨ g0.code.size ≤ t) :
    g.Reaches m l r' { g0 with toDraft := { g0.toDraft with
      firstFree := r', maxStackSize := s, lastTarget := t, pending := ps, pos := pos,
      line := line } } := by
  rw [← h.active] at hr
  obtain ⟨ha, hst⟩ := h.ready.modify pos line ht hr hrs hs hs' (fun pc hpc => (hp pc hpc).1) hm
  exact ⟨h.toAlters.alter ha,
    { hst with settled := fun pc hpc => (hp pc hpc).2, level := h.ready.level }, rfl⟩

lemma Reaches.pending (h : g.Reaches m l r g0) : ∀ pc ∈ g0.pending,
    g.Loose pc ∧ Closable g0.code m pc :=
  fun pc hpc => ⟨h.frame.pending pc hpc, h.ready.settled pc hpc⟩

lemma Ready.recode (h : g0.Ready m l) (code : Array Instruction) (hs : code.size = g0.code.size)
    (hc : Coded g0.bounds code) (hl : linkAt code g0.code.size = g0.link)
    (hp : ∀ pc ∈ g0.pending, S pc ∨ g0.code.size ≤ pc)
    (hk : ∀ (pc : Nat) (i : Instruction), g0.code[pc]? = some i → ¬ S pc → code[pc]? = some i)
    (hclose : ∀ n pc, Closable g0.code n pc → Closable code n pc) :
    g0.Alters S { g0 with toDraft := { g0.toDraft with code := code } } ∧
      Ready m l { g0 with toDraft := { g0.toDraft with code := code } } := by
  refine ⟨⟨?_, rfl, rfl, rfl, rfl, forall₂_touched_refl _⟩, ?_⟩
  · exact Keeps.recoded hs hk (fun n pc _ => hclose n pc) hp
  · exact
      { sound := h.sound.modify hc (by rw [hs]; exact h.sound.lines)
          (fun b _ pc hcl => hclose _ pc hcl) h.sound.top .refl h.sound.stack
        chained := h.chained
        link := by
          show linkAt code code.size = l
          rw [hs, hl, h.link]
        top := h.top
        settled := fun pc hpc => hclose m pc (h.settled pc hpc)
        level := h.level }

lemma Reaches.replace (h : g.Reaches m l r g0) (hi : g0.code[pc]? = some i) (hpc : g.code.size ≤ pc)
    (hr : i.Replaces g0.bounds j) (hij : i.isJump = false) (hjj : j.isJump = false) :
    g.Reaches m l r { g0 with toDraft := { g0.toDraft with
      code := g0.code.setIfInBounds pc j } } := by
  have hs := getElem?_setIfInBounds_of_some (j := j) hi
  have hco := h.ready.sound.coded
  have hrep : ∀ (k : Nat) (i' : Instruction), g0.code[k]? = some i' → ∃ j',
      (g0.code.setIfInBounds pc j)[k]? = some j' ∧ i'.Replaces g0.bounds j' ∧
        (j' = i' ∨ j' = j) := by
    intro k i' hk
    by_cases heq : pc = k
    · subst heq
      cases hi.symm.trans hk
      exact ⟨j, by rw [hs, if_pos rfl], hr, .inr rfl⟩
    · exact ⟨i', by rw [hs, if_neg heq, hk], .refl (hco.fits k i' hk), .inl rfl⟩
  have hre := h.ready.recode (S := g.Loose) (g0.code.setIfInBounds pc j)
    (by simp) (hco.recode (by simp) fun k i' hk => ?_)
    (linkAt_recode (by simp) fun k i' hk => ?_) (fun k hk => .inl (h.frame.pending k hk))
    (fun k i' hk hn => ?_) fun n k hc => ?_
  · exact ⟨h.toAlters.alter hre.1, hre.2, h.top⟩
  · obtain ⟨j', hj', hr', rfl | rfl⟩ := hrep k i' hk
    · exact ⟨j', hj', hr', hco.targets k j' hk⟩
    · exact ⟨j', hj', hr', by simp [hjj]⟩
  · obtain ⟨j', hj', hr', -⟩ := hrep k i' hk
    exact ⟨j', hj', hr'.after⟩
  · rw [hs, if_neg (by rintro rfl; exact hn (.inr hpc)), hk]
  · obtain ⟨i', hi', hop, ha⟩ := hc
    refine ⟨i', ?_, hop, ha⟩
    rw [hs, if_neg, hi']
    rintro rfl
    cases hi.symm.trans hi'
    rw [isJump_of_op hop] at hij
    cases hij

end Generator

namespace Draft

variable {d d' d'' : Draft} {m n' : Nat} {js js' : List Nat}

structure Holds (m : Nat) (d d' : Draft) (js : List Nat) : Prop where
  closable : ∀ pc ∈ js, Closable d'.code m pc
  loose : ∀ pc ∈ js, d.Loose pc
  apart : ∀ pc ∈ js, pc ∉ d'.pending

lemma Holds.nil : Holds m d d' [] := ⟨by simp, by simp, by simp⟩

lemma Holds.append (h : Holds m d d' js) (h' : Holds m d d' js') : Holds m d d' (js ++ js') where
  closable pc hpc := (List.mem_append.mp hpc).elim (h.closable pc) (h'.closable pc)
  loose pc hpc := (List.mem_append.mp hpc).elim (h.loose pc) (h'.loose pc)
  apart pc hpc := (List.mem_append.mp hpc).elim (h.apart pc) (h'.apart pc)

lemma Holds.mono (h : Holds n d d' js) (hm : m ≤ n) : Holds m d d' js :=
  { h with closable := fun pc hpc => (h.closable pc hpc).mono hm }

lemma Holds.frame (h : Holds m d d' js) (hf : d'.Frame n d'') (hn : m ≤ n) : Holds m d d'' js where
  closable pc hpc := hf.closable m pc hn (h.closable pc hpc)
  loose := h.loose
  apart pc hpc hp := by
    rcases hf.pending pc hp with hp | hle
    · exact h.apart pc hpc hp
    · have := (h.closable pc hpc).lt
      omega

lemma Holds.since (h : Holds m d' d'' js) (hf : d.Frame n d') : Holds m d d'' js :=
  { h with loose := fun pc hpc => hf.loose (h.loose pc hpc) }

lemma Holds.patchToHere (h : Holds m d d' js) (hd : ∀ pc ∈ js', pc ∉ js) :
    Holds m d (d'.patchToHere js') js where
  closable := h.closable
  loose := h.loose
  apart pc hpc hp := (List.mem_append.mp hp).elim (h.apart pc hpc) fun hp => hd pc hp hpc

lemma Holds.disjoint (h : Holds m d d' js) (h' : Holds n d' d'' js') : ∀ pc ∈ js, pc ∉ js' := by
  intro pc hpc hpc'
  rcases h'.loose pc hpc' with hp | hle
  · exact h.apart pc hpc hp
  · have := (h.closable pc hpc).lt
    omega

end Draft

namespace Gen

variable {lax : Prop} {g g0 : Generator} {m : Nat} {l : Link} {js : List Nat} {target : Nat}

open Generator

lemma meets_emit {x : Except EncodingFault Instruction} (hx : x = .ok i)
    (hj : ∀ pc ∈ g.pending, ∃ i, g.code[pc]? = some i ∧ i.isJump = true) :
    Meets lax g (emit x) fun pc g' => pc = g.code.size ∧ g.Emits i g' := by
  subst hx
  refine Meets.bind (P := fun _ => g.Emits i) ?_ fun _ g' he => ?_
  · refine meets_updateOrFail ((emit_cases i hj).imp_left ?_)
    rintro ⟨code, hp, hok⟩
    exact ⟨_, hok, code, hp, rfl⟩
  · refine ⟨?_, he⟩
    obtain ⟨code, hp, rfl⟩ := he
    simp [emitted, hp.size]

lemma meets_emitABC (op : OpCode) (a b c : Nat) (h : g.Reaches m l r g0)
    (hm : op.mode = .abc) (ha : a < 256)
    (hb : b ≤ 511) (hc : c ≤ 511)
    (hf : op.Fits g0.bounds a b c 0) (ht : op.Takes b l) :
    Meets lax g0 (emitABC op a b c) fun pc g' => g.Reaches 255 (op.after b c) r g' ∧
      pc = g0.code.size ∧ ∃ i, i.IsABC op a b c ∧ g0.Emits i g' := by
  obtain ⟨i, hi, hx⟩ := abc_eq_ok (a := a.toUInt8) hm hb hc
  rw [toNat_toUInt8 ha] at hx
  refine (meets_emit hi fun pc hpc => (h.ready.settled pc hpc).isJump).mono ?_
  rintro pc g' ⟨hpc, he⟩
  have hj : i.isJump = true → i.argSBx = 0 := by simp [hx.isJump_eq hm]
  have hr := h.ready.emits (hx.fits hm hf) (hx.follows ht) hj he
  rw [hx.after_eq, h.top] at hr
  exact ⟨h.trans hr, hpc, i, hx, he⟩

lemma meets_replace {P : Generator → Prop}
    (h : P { g with toDraft := { g.toDraft with code := g.code.setIfInBounds pc j } }) :
    Meets lax g (replace pc (.ok j)) fun _ => P := by
  unfold replace
  exact meets_update h

lemma meets_setPos (h : g.Reaches m l r g0) (p : Position) :
    Meets lax g0 (setPos p) fun _ => g.Reaches m l r := by
  obtain rfl := h.top
  refine meets_update ?_
  unfold Draft.setPos
  split
  · exact h.modify (.inl rfl) h.active_le h.le_stack .refl h.stack_le h.pending .inl
  · exact h

lemma meets_setLine (h : g.Reaches m l r g0) (line : Int) :
    Meets lax g0 (setLine line) fun _ => g.Reaches m l r := by
  obtain rfl := h.top
  exact meets_update (h.modify (.inl rfl) h.active_le h.le_stack .refl h.stack_le h.pending .inl)

lemma meets_label (h : g.Reaches m l r g0) :
    Meets lax g0 label fun k g' => g.Reaches m l r g' ∧ k = g0.code.size ∧ g'.code = g0.code := by
  obtain rfl := h.top
  refine Meets.bind (P := fun _ g' => g.Reaches m l g0.firstFree g' ∧
    g'.code = g0.code) (meets_update ⟨?_, rfl⟩) fun _ g' hg' => ?_
  · exact h.modify (.inr .refl) h.active_le h.le_stack .refl h.stack_le h.pending .inl
  · exact meets_readOf ⟨hg'.1, by rw [hg'.2], hg'.2⟩

lemma steady_patchToHere (h : g0.Steady l) (hp : ∀ pc ∈ g0.pending, S pc) (hj : ∀ pc ∈ js, S pc) :
    Meets lax g0 (patchToHere js) fun _ g' => g0.Alters S g' ∧ g'.Steady l ∧
      g'.firstFree = g0.firstFree ∧ g'.code = g0.code ∧
      g'.pending = g0.pending ++ js := by
  have hal : ∀ pc ∈ g0.pending ++ js, S pc :=
    fun pc hpc => (List.mem_append.mp hpc).elim (hp pc) (hj pc)
  obtain ⟨ha, hr⟩ := h.modify g0.pos g0.line (.inr .refl) h.top
    h.sound.top .refl h.sound.stack hal fun _ => .inr .refl
  exact meets_update ⟨ha, hr, rfl, rfl, rfl⟩

lemma alters_patchToHere (h : g0.Ready m l) (hp : ∀ pc ∈ g0.pending, S pc)
    (hj : ∀ pc ∈ js, S pc ∧ Closable g0.code m pc) :
    Meets lax g0 (patchToHere js) fun _ g' => g0.Alters S g' ∧ g'.Ready m l ∧
      g'.firstFree = g0.firstFree := by
  refine (steady_patchToHere h.toSteady hp fun pc hpc => (hj pc hpc).1).mono ?_
  rintro - g' ⟨ha, hs, ht, hc, hpe⟩
  refine ⟨ha, { hs with settled := fun pc hpc => ?_, level := h.level }, ht⟩
  rw [hc]
  rw [hpe] at hpc
  exact (List.mem_append.mp hpc).elim (h.settled pc) fun hpc => (hj pc hpc).2

lemma meets_patchToHere (h : g.Reaches m l r g0) (hj : g.Holds m g0.toDraft js) :
    Meets lax g0 (patchToHere js) fun _ => g.Reaches m l r :=
  (alters_patchToHere h.ready h.frame.pending fun pc hpc =>
    ⟨hj.loose pc hpc, hj.closable pc hpc⟩).mono fun _ _ h' =>
      ⟨h.toAlters.alter h'.1, h'.2.1, h'.2.2.trans h.top⟩

lemma meets_patchToHere_eq : Meets lax g (patchToHere js) fun _ g' =>
    g' = { g with toDraft := g.patchToHere js } := meets_update rfl

lemma jump_eq (g : Generator) : ∃ i, i.IsAsBx .jmp 0 0 ∧ jump g = .ok (g.code.size :: g.pending,
      { g with toDraft := g.emitted g.code i }) := by
  obtain ⟨i, hi, hx⟩ := asbx_eq_ok (a := 0) (x := 0) (rfl : OpCode.jmp.mode = .asbx) rfl
  refine ⟨i, hx, ?_⟩
  have he : emitAsBx .jmp 0 0 = emit (.ok i) := congrArg emit hi
  have hpc : (g.code.push i).size - 1 = g.code.size := by simp
  rw [jump, he, ← hpc]
  rfl

lemma meets_jump_headD : Meets lax g jump fun js g' => js.headD 0 = g.code.size ∧
    g'.code.size = g.code.size + 1 := by
  obtain ⟨i, -, hj⟩ := jump_eq g
  simp [Meets, hj, emitted]

lemma meets_jump (h : g.Reaches m l r g0) (hl : l = .plain ∨ l = .jump) :
    Meets lax g0 jump fun js g' => g.Reaches 255 .plain r g' ∧ g.Holds m g'.toDraft js := by
  obtain ⟨i, hi, hj⟩ := jump_eq g0
  have hd := h.ready
  have hfi : i.Fits g0.bounds := by
    constructor <;> simp [hi.op, Instruction.registers, Instruction.constants,
      Instruction.upvalues, Instruction.closures]
  have hf : i.Follows g0.constants.size g0.link := by
    rw [hd.link]
    rcases hl with rfl | rfl <;> simp [Instruction.Follows, Instruction.before, hi.op,
      OpCode.before]
  have hco := hd.sound.coded.push hfi hf fun _ => by
    rw [hi.argSBx]
    omega
  have hk : g0.Keeps g.Loose 255 (g0.emitted g0.code i) :=
    .emitted (k := 0) .nil (by simp)
  unfold Meets
  rw [hj]
  refine ⟨⟨{ h.toAlters with frame := ?_ }, ?_, h.top⟩, ⟨fun pc hpc => ?_, fun pc hpc => ?_, ?_⟩⟩
  · exact Keeps.trans h.frame hk .refl fun _ h => h
  · exact
      { sound := hd.sound.modify hco (by simp [hd.sound.lines]) (fun _ _ _ hc => hc.push)
          hd.sound.top .refl hd.sound.stack
        chained := hd.chained
        link := by
          rw [link_emitted, Instruction.after, hi.op]
          rfl
        top := hd.top
        settled := fun pc hpc => by simp [emitted] at hpc
        level := .refl }
  · rcases List.mem_cons.mp hpc with rfl | hpc
    · exact ⟨i, by simp [emitted], hi.op, .inl hi.argA⟩
    · exact (h.ready.settled pc hpc).push
  · rcases List.mem_cons.mp hpc with rfl | hpc
    · exact .inr h.frame.size
    · exact h.frame.pending pc hpc
  · simp [emitted]

lemma alters_fixJumps (h : g0.Ready m l) (hp : ∀ pc ∈ g0.pending, S pc)
    (hj : ∀ pc ∈ js, S pc ∧ ∃ i, g0.code[pc]? = some i ∧ i.isJump = true)
    (ht : target ≤ g0.code.size) :
    Meets lax g0 (updateOrFail (fixJumps target js)) fun _ g' => g0.Alters S g' ∧
      g'.Ready m l ∧ g'.firstFree = g0.firstFree := by
  refine meets_updateOrFail
    ((fixJumps_cases target js g0.toDraft fun pc hpc => (hj pc hpc).2).imp_left ?_)
  rintro ⟨code, hc, hok⟩
  have hr := h.recode (S := S) code hc.size (hc.coded h.sound.coded ht)
    (hc.linkAt_eq h.sound.coded _) (fun pc hpc => .inl (hp pc hpc)) (fun pc i hi hn => ?_)
    fun n pc => hc.closable
  · exact ⟨_, hok, hr.1, hr.2, rfl⟩
  · rw [hc.kept pc fun hpc => hn (hj pc hpc).1, hi]

lemma alters_patchTo (h : g0.Ready m l) (hp : ∀ pc ∈ g0.pending, S pc)
    (hj : ∀ pc ∈ js, S pc ∧ Closable g0.code m pc) (ht : target ≤ g0.code.size) :
    Meets lax g0 (patchTo js target) fun _ g' => g0.Alters S g' ∧ g'.Ready m l ∧
      g'.firstFree = g0.firstFree := by
  refine Meets.bind (meets_readOf (Q := fun k g' => k = g0.code.size ∧ g' = g0) ⟨rfl, rfl⟩) ?_
  rintro k g1 ⟨rfl, rfl⟩
  split
  · exact alters_patchToHere h hp hj
  · exact alters_fixJumps h hp (fun pc hpc => ⟨(hj pc hpc).1, (hj pc hpc).2.isJump⟩) ht

lemma meets_patchTo (h : g.Reaches m l r g0) (hj : g.Holds m g0.toDraft js)
    (ht : target ≤ g0.code.size) :
    Meets lax g0 (patchTo js target) fun _ => g.Reaches m l r :=
  (alters_patchTo h.ready h.frame.pending
    (fun pc hpc => ⟨hj.loose pc hpc, hj.closable pc hpc⟩) ht).mono fun _ _ h' =>
      ⟨h.toAlters.alter h'.1, h'.2.1, h'.2.2.trans h.top⟩

end Gen

namespace Draft

variable {d : Draft}

lemma setFirstFree_eq (h : d.released = []) : d.setFirstFree r = { d with firstFree := r } := by
  simp only [setFirstFree, h, List.filter_nil]

lemma free_eq_self (h : r < d.active.size) : d.free r = d := by
  simp [free, h]

lemma lowerTop_nil (top : Nat) : lowerTop top [] = (top, []) := by
  cases top <;> simp [lowerTop]

lemma free_eq_of_top (h : d.released = []) (hr : d.active.size ≤ r) (ht : r + 1 = d.firstFree) :
    d.free r = { d with firstFree := r } := by
  have h1 : ¬ (r < d.active.size ∨ d.firstFree ≤ r) := by omega
  simp [free, h1, ht, h, lowerTop_nil]

lemma checkStack_cases (d : Draft) (n : Nat) :
    (∃ s, d.checkStack n = .ok { d with maxStackSize := s } ∧ d.maxStackSize ≤ s ∧
      d.firstFree + n ≤ s ∧ s ≤ max d.maxStackSize 254) ∨
    Rejected (d.checkStack n) := by
  by_cases hle : d.firstFree + n ≤ d.maxStackSize
  · exact .inl ⟨d.maxStackSize, by simp [checkStack, hle], .refl, hle, by omega⟩
  · by_cases hm : maxRegisters ≤ d.firstFree + n
    · exact .inr ⟨_, by simp [checkStack, hle, hm]; rfl, rfl⟩
    · refine .inl ⟨d.firstFree + n, by simp [checkStack, hle, hm], ?_⟩
      simp only [maxRegisters] at hm
      omega

end Draft

lemma ConstantTable.values_insert (h : t.find? v = none) :
    (t.insert v).values = t.values.push v := by
  simp [insert, h]

lemma ConstantTable.getElem?_of_find? {k : Nat} (h : t.find? v = some k) :
    t.values[k]? = some v := by
  rw [find?_eq] at h
  obtain ⟨hk, hv, -⟩ := Array.findIdx?_eq_some_iff_getElem.mp h
  rw [Array.getElem?_eq_getElem hk]
  simpa using hv

namespace Generator

variable {g g0 : Generator} {m : Nat} {l : Link}

lemma Reaches.insert (h : g.Reaches m l r g0) {v : Value} (hv : g0.constants.find? v = none)
    (hs : g0.constants.size ≤ Instruction.maxAx) :
    g.Reaches m l r { g0 with toDraft :=
      { g0.toDraft with constants := g0.constants.insert v } } := by
  have hva := ConstantTable.values_insert hv
  have hle : g0.bounds.Le { g0.bounds with
      constants := (g0.constants.insert v).size } :=
    ⟨.refl, by simp [bounds, ConstantTable.size, hva], .refl,
      .refl⟩
  have hd := h.ready
  refine ⟨{ h.toAlters with frame := ?_ }, ?_, h.top⟩
  · have hf : g0.Frame 255
        { g0.toDraft with constants := g0.constants.insert v } :=
      { Frame.refl g0.toDraft with
        bounds := hle
        constants := fun k w hw => by
          have hlt := lt_size hw
          rw [hva, Array.getElem?_push, if_neg (by omega), hw] }
    exact Frame.trans h.frame hf .refl
  · exact
      { hd with
        sound :=
          { hd.sound with
            coded := hd.sound.coded.mono hle
            constants := by
              simp only [ConstantTable.size, hva, Array.size_push] at hs ⊢
              omega
            functions := fun f hf => ⟨(hd.sound.functions f hf).1, fun u hu =>
              ((hd.sound.functions f hf).2 u hu).mono hle⟩ } }

end Generator

structure Generator.Silent (g g' : Generator) : Prop where
  code : g'.code = g.code
  blocks : g'.blocks = g.blocks
  pending : g'.pending = g.pending
  lastTarget : g'.lastTarget = g.lastTarget
  bounds : g.bounds.Le g'.bounds

lemma Generator.Silent.refl (g : Generator) : g.Silent g := ⟨rfl, rfl, rfl, rfl, .refl _⟩

lemma Generator.Silent.trans {g g' g'' : Generator} (h : g.Silent g') (h' : g'.Silent g'') :
    g.Silent g'' :=
  ⟨h'.code.trans h.code, h'.blocks.trans h.blocks, h'.pending.trans h.pending,
    h'.lastTarget.trans h.lastTarget, h.bounds.trans h'.bounds⟩

namespace Gen

variable {lax : Prop} {g g0 : Generator} {m a : Nat} {l : Link}

open Generator

lemma meets_setFirstFree (h : g.Reaches m l r g0) {r' : Nat}
    (hr : g.active.size ≤ r') (hle : r' ≤ g0.bounds.stack) :
    Meets lax g0 (setFirstFree r') fun _ => g.Reaches m l r' := by
  refine meets_update ?_
  rw [setFirstFree_eq h.ready.sound.released]
  exact h.modify (.inl rfl) hr hle .refl h.stack_le h.pending .inl

lemma meets_reserve_eq (n : Nat) : Meets lax g (reserve n) fun base g' => base = g.firstFree ∧ ∃ s,
    g' = { g with toDraft := { g.toDraft with maxStackSize := s, firstFree := g.firstFree + n } } ∧
      g.maxStackSize ≤ s ∧ g.firstFree + n ≤ s ∧ s ≤ max g.maxStackSize 254 := by
  refine Meets.bind (P := fun _ g' => ∃ s, g' = { g with toDraft :=
      { g.toDraft with maxStackSize := s } } ∧ g.maxStackSize ≤ s ∧ g.firstFree + n ≤ s ∧
      s ≤ max g.maxStackSize 254) (meets_updateOrFail ((checkStack_cases _ n).imp_left ?_)) ?_
  · rintro ⟨s, hok, h⟩
    exact ⟨_, hok, s, rfl, h⟩
  · rintro - _ ⟨s, rfl, h⟩
    exact meets_read (meets_update_bind (meets_pure ⟨rfl, s, rfl, h⟩))

section

variable (h : g.Reaches m l r g0)
include h

lemma meets_checkStack (n : Nat) : Meets lax g0 (checkStack n) fun _ g' => g.Reaches m l r g' ∧
      r + n ≤ g'.bounds.stack := by
  obtain rfl := h.top
  refine meets_updateOrFail ((checkStack_cases _ n).imp_left ?_)
  rintro ⟨s, hok, hs, hn, hs'⟩
  exact ⟨_, hok, h.modify (.inl rfl) h.active_le (by omega) hs
    (Nat.le_trans hs' (Nat.max_le.mpr ⟨h.stack_le, .refl⟩)) h.pending .inl, hn⟩

lemma meets_reserve (n : Nat) :
    Meets lax g0 (reserve n) fun base g' => base = r ∧ g.Reaches m l (r + n) g' := by
  obtain rfl := h.top
  refine (meets_reserve_eq n).mono ?_
  rintro _ _ ⟨rfl, s, rfl, hs, hn, hs'⟩
  exact ⟨rfl, h.modify (.inl rfl) (Nat.le_trans h.active_le (Nat.le_add_right _ _)) hn hs
    (Nat.le_trans hs' (Nat.max_le.mpr ⟨h.stack_le, .refl⟩)) h.pending .inl⟩

lemma meets_allocate :
    Meets lax g0 allocate fun base g' => base = r ∧ g.Reaches m l (r + 1) g' := by
  refine meets_read ?_
  rw [h.ready.sound.released]
  exact meets_reserve h 1

lemma meets_constant (v : Value) : Meets lax g0 (constant v) fun k g' => g.Reaches m l r g' ∧
      g'.constants.values[k]? = some v := by
  refine meets_read ?_
  cases hk : g0.constants.find? v with
  | some k => exact meets_pure ⟨h, ConstantTable.getElem?_of_find? hk⟩
  | none =>
    refine meets_read ?_
    split
    · exact meets_fail_bind nofun
    · refine meets_update_bind (meets_pure ⟨h.insert hk (by omega), ?_⟩)
      rw [ConstantTable.values_insert hk, ConstantTable.size, Array.getElem?_push_size]

end

lemma silent_setPos (p : Position) : Meets lax g (setPos p) fun _ => g.Silent := by
  refine meets_update ?_
  unfold Draft.setPos
  split
  · exact ⟨rfl, rfl, rfl, rfl, .refl _⟩
  · exact .refl _

lemma silent_setLine (line : Int) :
    Meets lax g (setLine line) fun _ => g.Silent := meets_update ⟨rfl, rfl, rfl, rfl, .refl _⟩

lemma silent_setFirstFree (r : Nat) :
    Meets lax g (setFirstFree r) fun _ => g.Silent := meets_update ⟨rfl, rfl, rfl, rfl, .refl _⟩

lemma silent_reserve (n : Nat) : Meets lax g (reserve n) fun _ => g.Silent := by
  refine (meets_reserve_eq n).mono ?_
  rintro _ _ ⟨-, s, rfl, hs, -⟩
  exact ⟨rfl, rfl, rfl, rfl, hs, .refl, .refl, .refl⟩

end Gen

namespace Instruction

variable {op : OpCode} {a bx : Nat} {l : Link}

lemma IsABx.args (h : i.IsABx op a bx) (hm : op.mode = .abx) : i.argB = 0 ∧ i.argC = 0 := by
  simp [argB, argC, mode?_of_op? h.op, hm]

lemma IsABx.fits (h : i.IsABx op a bx) (hm : op.mode = .abx) (hf : op.Fits bs a 0 0 bx) :
    i.Fits bs := by
  obtain ⟨hb, hc⟩ := h.args hm
  exact fits_of_op? h.op (by rwa [h.argA, hb, hc, h.argBx])

lemma fits_extraArg (h : i.op? = some .extraArg) : i.Fits bs := by
  constructor <;> simp [h, registers, constants, upvalues, closures]

end Instruction

lemma joinRanges?_eq_some {first last first' last' : Nat}
    (h : joinRanges? first last first' last' = some (p, q)) :
    p = min first first' ∧ q = max last last' ∧
      ∀ k, p ≤ k → k ≤ q → (first ≤ k ∧ k ≤ last) ∨ (first' ≤ k ∧ k ≤ last') := by
  unfold joinRanges? at h
  split at h
  · next hc =>
    simp only [Bool.or_eq_true, Bool.and_eq_true, decide_eq_true_eq] at hc
    obtain ⟨rfl, rfl⟩ := h
    exact ⟨rfl, rfl, fun k hp hq => by omega⟩
  · cases h

lemma Draft.lastNil?_eq_some {d : Draft} (h : d.lastNil? = some (p, q)) :
    d.Mergeable ∧ ∃ i, d.code.back? = some i ∧ i.op? = some .loadNil ∧ p = i.argA ∧
      q = i.argA + i.argB := by
  unfold lastNil? at h
  split at h
  · next hc =>
    simp only [Bool.and_eq_true, decide_eq_true_eq, List.isEmpty_iff] at hc
    refine ⟨hc, ?_⟩
    split at h
    · next i hi =>
      split at h
      · next hop =>
        simp only [Option.some.injEq, Prod.mk.injEq] at h
        exact ⟨i, hi, hop, h.1.symm, h.2.symm⟩
      · cases h
    · cases h
  · cases h

def widenLast (code : Array Instruction) (j : Instruction) : Array Instruction :=
  code.setIfInBounds (code.size - 1) j

section WidenLast

variable {code : Array Instruction}

@[simp] lemma size_widenLast : (widenLast code j).size = code.size := by simp [widenLast]

lemma getElem?_widenLast (hi : code.back? = some i) (pc : Nat) :
    (widenLast code j)[pc]? = if pc + 1 = code.size then some j else code[pc]? := by
  have hlt := lt_size hi
  rw [widenLast, getElem?_setIfInBounds_of_some hi]
  by_cases heq : pc + 1 = code.size
  · rw [if_pos heq, if_pos (by omega)]
  · rw [if_neg heq, if_neg (by omega)]

lemma widenLast_get {k : Instruction} (hi : code.back? = some i) (hk : code[pc]? = some k) :
    (widenLast code j)[pc]? = some k ∨ (k = i ∧ (widenLast code j)[pc]? = some j) := by
  rw [getElem?_widenLast hi]
  split
  · next heq =>
    rw [Array.back?_eq_getElem?, ← heq, Nat.add_sub_cancel, hk] at hi
    exact .inr ⟨Option.some.inj hi, rfl⟩
  · exact .inl hk

lemma Closable.widenLast (h : Closable code n pc) (hi : code.back? = some i)
    (hw : i.WidensTo j) : Closable (widenLast code j) n pc := by
  obtain ⟨k, hk, hop, ha⟩ := h
  rcases widenLast_get (j := j) hi hk with hk' | ⟨rfl, -⟩
  · exact ⟨k, hk', hop, ha⟩
  · cases hop.symm.trans hw.op

lemma Instruction.WidensTo.replaces (hw : i.WidensTo j) (hf : j.Fits bs) : i.Replaces bs j where
  fits := hf
  after := by simp [after, hw.op, hw.op', OpCode.after]
  follows l hl := by
    cases l <;> simp_all [Follows, before, hw.op, hw.op', OpCode.before]

lemma Coded.widenLast (h : Coded bs code) (hi : code.back? = some i) (hw : i.WidensTo j)
    (hf : j.Fits bs) : Coded bs (widenLast code j) := by
  refine h.recode (by simp) fun pc k hk => ?_
  rcases widenLast_get (j := j) hi hk with hk' | ⟨rfl, hk'⟩
  · exact ⟨k, hk', .refl (h.fits pc k hk), h.targets pc k hk⟩
  · exact ⟨j, hk', hw.replaces hf, by simp [isJump, hw.op', OpCode.isJump]⟩

lemma linkAt_widenLast (hi : code.back? = some i) (hw : i.WidensTo j) :
    linkAt (widenLast code j) pc = linkAt code pc := by
  refine linkAt_recode (by simp) fun k i' hk => ?_
  rcases widenLast_get (j := j) hi hk with hk' | ⟨rfl, hk'⟩
  · exact ⟨i', hk', rfl⟩
  · exact ⟨j, hk', by simp [after, hw.op, hw.op', OpCode.after]⟩

end WidenLast

namespace Generator

inductive LoadsNil (first n : Nat) (g g' : Generator) : Prop
  | new (i : Instruction) (hi : i.IsABC .loadNil first (n - 1) 0) (he : g.Emits i g')
  | widened (i j : Instruction) (hm : g.Mergeable) (hi : g.code.back? = some i)
      (hw : i.WidensTo j) (hfirst : j.argA ≤ first) (hlast : first + n ≤ j.argA + j.argB + 1)
      (hgap : ∀ k, j.argA ≤ k → k ≤ j.argA + j.argB →
        (first ≤ k ∧ k < first + n) ∨ (i.argA ≤ k ∧ k ≤ i.argA + i.argB))
      (he : g' = { g with toDraft := { g.toDraft with
        code := widenLast g.code j } })

variable {g g0 : Generator} {m : Nat} {l : Link}

lemma Reaches.widen (h : g.Reaches m l r g0) (hm : g0.Mergeable)
    (hi : g0.code.back? = some i) (hw : i.WidensTo j) (hf : j.Fits g0.bounds) :
    g.Reaches 255 l r
      { g0 with toDraft := { g0.toDraft with code := widenLast g0.code j } } := by
  have hd := h.ready
  have hfr : g0.Frame 255 { g0.toDraft with code := widenLast g0.code j } :=
    { Draft.Frame.refl (n := 255) g0.toDraft with
      size := by simp
      code := fun pc k hk _ => by
        have hg := getElem?_widenLast (j := j) hi pc
        by_cases heq : pc + 1 = g0.code.size
        · rw [if_pos heq] at hg
          rw [Array.back?_eq_getElem?, ← heq, Nat.add_sub_cancel, hk] at hi
          cases hi
          exact .inr ⟨heq, hm, j, hg, hw⟩
        · rw [if_neg heq, hk] at hg
          exact .inl hg
      closable := fun n pc _ hc => hc.widenLast hi hw
      mergeable := fun _ hm' => ⟨by simpa using hm'.1, hm'.2⟩ }
  refine ⟨{ h.toAlters with frame := Draft.Frame.trans h.frame hfr .refl }, ?_, h.top⟩
  exact
    { sound := hd.sound.modify (hd.sound.coded.widenLast hi hw hf) (by simp [hd.sound.lines])
        (fun b _ pc hc => hc.widenLast hi hw) hd.sound.top .refl hd.sound.stack
      chained := hd.chained
      link := by
        show linkAt (widenLast g0.code j) (Array.size _) = l
        rw [size_widenLast, linkAt_widenLast hi hw, ← hd.link]
        rfl
      top := hd.top
      settled := fun pc hpc => by
        rw [hm.2] at hpc
        cases hpc
      level := .refl }

end Generator

namespace Gen

variable {lax : Prop} {g g0 : Generator} {m : Nat} {l : Link}

open Generator

lemma meets_emitABx (op : OpCode) (a bx : Nat) (h : g.Reaches m .plain r g0)
    (hm : op.mode = .abx) (ha : a < 256)
    (hbx : bx ≤ maxBx) (hf : op.Fits g0.bounds a 0 0 bx)
    (ht : op.before 0 = .plain) :
    Meets lax g0 (emitABx op a bx) fun pc g' => g.Reaches 255 (op.after 0 0) r g' ∧
      pc = g0.code.size ∧ ∃ i, i.IsABx op a bx ∧ g0.Emits i g' := by
  obtain ⟨i, hi, hx⟩ := abx_eq_ok (a := a.toUInt8) hm hbx
  rw [toNat_toUInt8 ha] at hx
  obtain ⟨hb, hc⟩ := hx.args hm
  have hju : i.isJump = true → i.argSBx = 0 := by
    intro hj
    obtain ⟨op', hop', hm'⟩ := op_of_isJump hj
    cases hop'.symm.trans hx.op
    rw [hm] at hm'
    cases hm'
  have hfo : i.Follows g0.constants.size .plain := by
    simpa [Instruction.Follows, before, hx.op, hb] using ht
  refine (meets_emit hi fun pc hpc => (h.ready.settled pc hpc).isJump).mono ?_
  rintro pc g' ⟨hpc, he⟩
  have hr := h.ready.emits (hx.fits hm hf) hfo hju he
  have haf : i.after = op.after 0 0 := by simp [after, hx.op, hb, hc]
  rw [haf, h.top] at hr
  exact ⟨h.trans hr, hpc, i, hx, he⟩

lemma meets_extraArgument (h : g.Reaches m l r g0) (hk : k ≤ maxAx)
    (hl : l = .batch ∨ (l = .constant ∧ k < g0.constants.size)) :
    Meets lax g0 (emit (extraArgument k)) fun _ g' => g.Reaches 255 .plain r g' ∧
      ∃ i, i.op? = some .extraArg ∧ i.argAx = k ∧ g0.Emits i g' := by
  obtain ⟨i, hi, hop, hax⟩ := extraArgument_eq_ok hk
  refine (meets_emit hi fun pc hpc => (h.ready.settled pc hpc).isJump).mono ?_
  rintro pc g' ⟨-, he⟩
  have hf : i.Follows g0.constants.size l := by
    rcases hl with rfl | ⟨rfl, hk⟩
    · simp [Instruction.Follows, before, hop, OpCode.before]
    · exact ⟨hop, by rw [hax]; exact hk⟩
  have hr := h.ready.emits (fits_extraArg hop) hf (by simp [isJump, hop, OpCode.isJump]) he
  have ha : i.after = .plain := by simp [after, hop, OpCode.after]
  rw [ha, h.top] at hr
  exact ⟨h.trans hr, i, hop, hax, he⟩

lemma meets_loadConstant {dst : Nat} (h : g.Reaches m .plain r g0) (hd : dst < r)
    (hk : k < g0.constants.size) :
    Meets lax g0 (loadConstant dst k) fun _ => g.Reaches 255 .plain r := by
  have hs := h.stack_le
  have hd : dst < g0.bounds.stack := Nat.lt_of_lt_of_le hd h.le_stack
  unfold loadConstant
  split
  · next hle =>
    refine (meets_emitABx .loadK dst k h rfl (by omega) hle ?_ rfl).discard fun _ _ h => h.1
    constructor <;> simp [hd]
    exact hk
  · have hm := h.ready.sound.constants
    refine (meets_emitABx .loadKX dst 0 h rfl (by omega) (Nat.zero_le _) ?_ rfl).discard_bind ?_
    · constructor <;> simp [hd]
    · rintro - g1 ⟨h1, -, i, -, code, -, rfl⟩
      exact (meets_extraArgument h1 (by omega) (.inr ⟨rfl, hk⟩)).discard fun _ _ h => h.1

lemma fits_loadNil {first count c : Nat} (h : first + count < bs.stack) :
    OpCode.loadNil.Fits bs first count c 0 := by
  constructor <;> simp
  omega

lemma loadNil_cases (first n : Nat) (g : Generator) :
    loadNil first n g = (discard <| emitABC .loadNil first (n - 1) 0 : Gen Unit) g ∨
    ∃ i p q, g.Mergeable ∧ g.code.back? = some i ∧ i.op? = some .loadNil ∧
      p = min first i.argA ∧ q = max (first + n - 1) (i.argA + i.argB) ∧
      (∀ k, p ≤ k → k ≤ q →
        (first ≤ k ∧ k ≤ first + n - 1) ∨ (i.argA ≤ k ∧ k ≤ i.argA + i.argB)) ∧
      loadNil first n g = replace (g.code.size - 1) (abc .loadNil p.toUInt8 (q - p) 0) g := by
  unfold loadNil
  simp only
  rw [bind_eq (rfl : read (·.lastNil?) g = .ok (g.lastNil?, g))]
  dsimp only
  cases hl : g.lastNil? with
  | none => exact .inl rfl
  | some range =>
    obtain ⟨first', last'⟩ := range
    obtain ⟨hm, i, hi, hop, rfl, rfl⟩ := Draft.lastNil?_eq_some hl
    cases hjo : joinRanges? first (first + n - 1) i.argA (i.argA + i.argB) with
    | none => exact .inl (by simp only [Option.bind_some, hjo])
    | some range =>
      obtain ⟨hp, hq, hg⟩ := joinRanges?_eq_some (p := range.1) (q := range.2) hjo
      refine .inr ⟨i, _, _, hm, hi, hop, hp, hq, hg, ?_⟩
      simp only [Option.bind_some, hjo]
      rfl

lemma meets_loadNil {first : Nat} (h : g.Reaches m .plain r g0) (hn : 0 < n) (hs : first + n ≤ r) :
    Meets lax g0 (loadNil first n) fun _ g' => g.Reaches 255 .plain r g' ∧
      g0.LoadsNil first n g' := by
  have hma := h.stack_le
  have hs : first + n ≤ g0.bounds.stack := Nat.le_trans hs h.le_stack
  have hne : Meets lax g0 (discard <| emitABC .loadNil first (n - 1) 0) fun _ g' =>
      g.Reaches 255 .plain r g' ∧ g0.LoadsNil first n g' := by
    refine (meets_emitABC .loadNil first (n - 1) 0 h rfl (by omega) (by omega) (Nat.zero_le _)
      (fits_loadNil (by omega)) rfl).discard ?_
    rintro pc g' ⟨hr, -, i, hi, he⟩
    exact ⟨hr, .new i hi he⟩
  unfold Meets at hne ⊢
  rcases loadNil_cases first n g0 with heq | ⟨i, p, q, hm, hi, hop, hp, hq, hg, heq⟩
  · rw [heq]
    exact hne
  · have hre : i.argA + i.argB < g0.bounds.stack := by
      rw [Array.back?_eq_getElem?] at hi
      refine (h.ready.sound.coded.fits _ i hi).registers _ ?_
      simp [registers, hop, OpCode.registers]
    obtain ⟨j, hj, hx⟩ := abc_eq_ok (a := p.toUInt8) (b := q - p) (c := 0)
      (rfl : OpCode.loadNil.mode = .abc) (by simp only [maxB]; omega) (Nat.zero_le _)
    rw [toNat_toUInt8 (by omega)] at hx
    have hw : i.WidensTo j := ⟨hop, hx.op, by rw [hx.argA]; omega, by
      rw [hx.argA, hx.argB]
      omega⟩
    have hf : j.Fits g0.bounds := hx.fits rfl (fits_loadNil (by omega))
    rw [heq, hj]
    refine ⟨h.widen hm hi hw hf, .widened i j hm hi hw (by rw [hx.argA]; omega)
      (by rw [hx.argA, hx.argB]; omega) (fun k hk hk' => ?_) rfl⟩
    rw [hx.argA] at hk
    rw [hx.argA, hx.argB] at hk'
    have := hg k hk (by omega)
    omega

end Gen

end LuaBytecode
