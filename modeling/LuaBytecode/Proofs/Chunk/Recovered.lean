import LuaBytecode.Proofs.Chunk.Canonical

namespace LuaBytecode

open Prototype

variable {p q : ChunkName} {items more : Bytes}

namespace Prototype

mutual

/-- The function without the record of how it was loaded, at every depth. -/
def exported : Prototype → Prototype
  | ⟨numParams, isVararg, maxStackSize, code, constants, upvalues, functions, source, lineDefined,
      lastLineDefined, lineInfo, localVariables, _⟩ =>
      { numParams, isVararg, maxStackSize, code, constants, upvalues
        functions := exportedAll functions
        source, lineDefined, lastLineDefined, lineInfo, localVariables }

def exportedAll : List Prototype → List Prototype
  | [] => []
  | f :: rest => f.exported :: exportedAll rest

end

def effectiveSource (parent : ChunkName) (f : Prototype) : ChunkName :=
  if f.source.isEmpty && !(f.form.getD .plain).sourceWritten then parent else f.source

mutual

/-- What comes back of a function that is written inside one of the given source name. -/
def recovered (w : Width) (parent : ChunkName) : Prototype → Prototype
  | ⟨numParams, isVararg, maxStackSize, code, constants, upvalues, functions, source, lineDefined,
      lastLineDefined, lineInfo, localVariables, form⟩ =>
      let source := effectiveSource parent ⟨numParams, isVararg, maxStackSize, code, constants,
        upvalues, functions, source, lineDefined, lastLineDefined, lineInfo, localVariables, form⟩
      { numParams, isVararg, maxStackSize, code
        constants := constants.map (Value.rounded w)
        upvalues
        functions := recoveredAll w source functions
        source, lineDefined, lastLineDefined, lineInfo, localVariables }

def recoveredAll (w : Width) (parent : ChunkName) : List Prototype → List Prototype
  | [] => []
  | f :: rest => f.recovered w parent :: recoveredAll w parent rest

end

def texts (f : Prototype) : List Bytes :=
  f.source :: (f.constants.filterMap (fun | .string s => some s | _ => none) ++
    (f.localVariables.map (·.name) ++ f.upvalues.map (·.name)))

def AllTextsBelow (limit : Nat) (f : Prototype) : Prop :=
  ∀ path g, f.nested? path = some g → ∀ s ∈ g.texts, s.length < limit

variable {limit : Nat} {f : Prototype}

lemma nested?_cons {g : Prototype} {k : Nat} {path : List Nat} (hk : f.functions[k]? = some g) :
    f.nested? (k :: path) = g.nested? path := by
  rw [nested?, hk]
  rfl

/-- What holds of a function and of all in it, one step at a time. -/
lemma forall_nested {P : Prototype → Prop} : (∀ path g, f.nested? path = some g → P g) ↔
    P f ∧ ∀ g ∈ f.functions, ∀ path g', g.nested? path = some g' → P g' := by
  constructor
  · refine fun h => ⟨h [] f rfl, fun g hg path g' hg' => ?_⟩
    obtain ⟨k, hk⟩ := List.mem_iff_getElem?.mp hg
    exact h (k :: path) g' ((nested?_cons hk).trans hg')
  · rintro ⟨hf, h⟩ path g hg
    cases path with
    | nil =>
      cases hg
      exact hf
    | cons k path =>
      obtain ⟨f', hk, hp⟩ := Option.bind_eq_some_iff.mp hg
      exact h f' (List.mem_of_getElem? hk) path g hp

lemma texts_lt_iff : (∀ s ∈ f.texts, s.length < limit) ↔
    f.source.length < limit ∧ (∀ s, .string s ∈ f.constants → s.length < limit) ∧
      (∀ v ∈ f.localVariables, v.name.length < limit) ∧
        ∀ u ∈ f.upvalues, u.name.length < limit := by
  simp only [texts, List.forall_mem_cons, List.forall_mem_append, List.forall_mem_map]
  refine and_congr_right' (and_congr_left' ⟨fun h s hs => ?_, fun h s hs => ?_⟩)
  · exact h s (List.mem_filterMap.mpr ⟨_, hs, rfl⟩)
  · obtain ⟨v, hv, heq⟩ := List.mem_filterMap.mp hs
    cases v <;> cases heq
    exact h s hv

mutual

lemma fits_iff : ∀ {f : Prototype}, f.Fits limit ↔ ∀ path g, f.nested? path = some g →
      (∀ s ∈ g.texts, s.length < limit) ∧ g.upvalues.length ≤ maxUpvalues
  | ⟨_, _, _, _, _, _, functions, _, _, _, _, _, _⟩ => by
    rw [forall_nested, Fits, texts_lt_iff, allFit_iff_nested functions]
    simp only [and_assoc]

lemma allFit_iff_nested : ∀ fs : List Prototype, AllFit limit fs ↔
    ∀ f ∈ fs, ∀ path g, f.nested? path = some g →
      (∀ s ∈ g.texts, s.length < limit) ∧ g.upvalues.length ≤ maxUpvalues
  | [] => by simp [AllFit]
  | f :: fs => by rw [AllFit, List.forall_mem_cons, fits_iff, allFit_iff_nested fs]

end

def HasTooMany (n : Nat) (f : Prototype) : Prop :=
  ∃ path g, f.nested? path = some g ∧ maxUpvalues < g.upvalues.length ∧ g.upvalues.length = n

lemma hasTooMany_iff {n : Nat} : f.HasTooMany n ↔
    (maxUpvalues < f.upvalues.length ∧ f.upvalues.length = n) ∨
      ∃ g ∈ f.functions, g.HasTooMany n := by
  constructor
  · rintro ⟨path, g, hp, hg⟩
    cases path with
    | nil =>
      cases hp
      exact .inl hg
    | cons k path =>
      obtain ⟨f', hk, hp'⟩ := Option.bind_eq_some_iff.mp hp
      exact .inr ⟨f', List.mem_of_getElem? hk, path, g, hp', hg⟩
  · rintro (ho | ⟨f', hf', path, g, hp, hg⟩)
    · exact ⟨[], f, rfl, ho⟩
    · obtain ⟨k, hk⟩ := List.mem_iff_getElem?.mp hf'
      exact ⟨k :: path, g, (nested?_cons hk).trans hp, hg⟩

lemma Fits.textsBelow (h : f.Fits limit) : f.AllTextsBelow limit :=
  fun path g hg => (fits_iff.mp h path g hg).1

lemma Fits.not_hasTooMany (h : f.Fits limit) (n : Nat) : ¬f.HasTooMany n := by
  rintro ⟨path, g, hg, hlt, -⟩
  exact absurd (fits_iff.mp h path g hg).2 (not_le.mpr hlt)

lemma fits_of_texts (ht : f.AllTextsBelow limit) (hc : ∀ n, ¬f.HasTooMany n) :
    f.Fits limit := by
  refine fits_iff.mpr fun path g hg => ?_
  refine ⟨ht path g hg, not_lt.mp fun hlt => ?_⟩
  exact hc _ ⟨path, g, hg, hlt, rfl⟩

lemma upvalues_exported (f : Prototype) : f.exported.upvalues = f.upvalues := by
  cases f
  rfl

lemma upvalues_recovered (w : Width) (parent : ChunkName) (f : Prototype) :
    (f.recovered w parent).upvalues = f.upvalues := by
  cases f
  rfl

end Prototype

namespace Layout

open Reader

variable (l : Layout) {us : List UpvalueDescriptor} {bs : List Bytes} {b : Bytes} {f : Prototype}

lemma reads_items {ε α β : Type} (size : Nat) (item : Nat → Reader ε β) (f : α → β)
    {W : α → Bytes → Prop} {as : List α} (ha : List.Forall₂ W as bs)
    (hs : ∀ a b, W a b → size ≤ b.length)
    (hr : ∀ a ∈ as, ∀ b, W a b → ∀ i, (item i).Reads b (f a)) :
    as.length * size ≤ bs.flatten.length ∧ (times as.length item).Reads bs.flatten (as.map f) := by
  constructor
  · induction ha with
    | nil => simp
    | @cons a b as bs hab _ ih =>
      have hb := hs a b hab
      have hbs := ih fun a' hm => hr a' (by simp [hm])
      rw [List.flatten_cons, List.length_append, List.length_cons, Nat.add_mul]
      omega
  · rw [← List.length_map f]
    apply reads_times
    rw [List.forall₂_map_right_iff]
    apply List.Forall₂.flip
    exact ((List.forall₂_and_left as bs).mpr ⟨hr, ha⟩).imp fun a b h => h.1 b h.2

lemma answers_count {β : Type} {count tail : Bytes} {n size : Nat} {place : FunctionPlace}
    {k : Nat → Reader UndumpError β} {x : Except UndumpError β} (hc : l.writeCount n = .ok count)
    (hs : n * size ≤ tail.length) (h : (k n).Answers tail x) :
    (inPlace place (l.readCount size) >>= k).Answers (count ++ tail) x := by
  intro rest
  have hr : inPlace place (l.readCount size) (count ++ (tail ++ rest)) = .ok (n, tail ++ rest) := by
    rw [inPlace, mapError_eq_ok]
    exact l.reads_count hc (by rw [List.length_append]; omega)
  change (inPlace _ _ _ >>= fun p => k p.1 p.2) = _
  rw [List.append_assoc, hr]
  exact h rest

lemma answers_list {α β : Type} {count : Bytes} {n size : Nat} {place : FunctionPlace}
    {r : Nat → Reader UndumpError α} {k : α → Reader UndumpError β} {x : Except UndumpError α}
    {y : α → Except UndumpError β} (hc : l.writeCount n = .ok count) (hs : n * size ≤ items.length)
    (hi : (r n).Answers items x) (hm : ∀ a, x = .ok a → (k a).Answers more (y a)) :
    (inPlace place (l.readCount size) >>= fun n => r n >>= k).Answers (count ++ items ++ more)
      (x >>= y) := by
  rw [List.append_assoc]
  exact l.answers_count hc (by rw [List.length_append]; omega) (hi.bind hm)

lemma reads_list {α β : Type} {count : Bytes} {n size : Nat} {place : FunctionPlace}
    {r : Nat → Reader UndumpError α} {k : α → Reader UndumpError β} {a : α}
    {y : Except UndumpError β} (hc : l.writeCount n = .ok count) (hs : n * size ≤ items.length)
    (hi : (r n).Reads items a) (hm : (k a).Answers more y) :
    (inPlace place (l.readCount size) >>= fun n => r n >>= k).Answers (count ++ items ++ more) y :=
  l.answers_list (x := .ok a) (y := fun _ => y) hc hs hi fun _ ha => Except.ok.inj ha ▸ hm

lemma answers_check {ε β : Type} {P : Prop} [Decidable P] {e : ε} {k : Unit → Reader ε β}
    {x : Except ε β} (hP : ¬P) (h : (k ()).Answers b x) :
    (if P then throw e >>= k else k ()).Answers b x := by
  rw [if_neg hP]
  exact h

lemma length_constant {v : Value} (h : l.writeConstant v = .ok b) : 1 ≤ b.length := by
  cases v with
  | integer i =>
    rw [writeConstant] at h
    cases hw : l.order.signedWord l.integer i.toInt with
    | error e =>
      rw [hw] at h
      cases h
    | ok word =>
      rw [hw] at h
      cases h
      simp
  | nil | bool | float | string =>
    cases h
    simp

lemma length_writeName (isAbsent : Bool) (name : Bytes) :
    1 ≤ (l.writeName isAbsent name).length := by
  rw [writeName]
  split
  · simp
  · rw [writeString]
    split <;> simp

def presentName (isAbsent : Bool) (name : Bytes) : Option Bytes :=
  if name.isEmpty && isAbsent then none else some name

lemma getD_presentName (isAbsent : Bool) (name : Bytes) :
    (presentName isAbsent name).getD [] = name := by
  cases isAbsent <;> cases name <;> rfl

lemma reads_name (isAbsent : Bool) {name : Bytes} (h : name.length + 1 < l.sizeT.words) :
    l.readString.Reads (l.writeName isAbsent name) (presentName isAbsent name) := by
  rw [writeName, presentName]
  split
  · intro rest
    rfl
  · exact l.reads_string h

lemma reads_local {isAbsent : Bool} {v : LocalVariable} (h : l.WritesLocal isAbsent v b)
    (hf : v.name.length + 1 < l.sizeT.words) (i : Nat) :
    (l.readLocal i).Reads b (v, (presentName isAbsent v.name).isSome) := by
  obtain ⟨start, stop, hs, hst, rfl⟩ := h
  refine ((l.reads_name isAbsent hf).mapError _).bind ?_
  refine ((l.reads_int hs).mapError _).bind ?_
  rw [← List.append_nil stop]
  refine ((l.reads_int hst).mapError _).bind ?_
  rw [getD_presentName]
  exact Reads.pure _

lemma nameUpvalues_presentName (absent : List Nat) :
    nameUpvalues (us.map fun u => { u with name := [] })
      (us.zipIdx.map fun p => presentName (absent.contains p.2) p.1.name) = us := by
  rw [nameUpvalues]
  split
  · next he =>
    have : us = [] := by simpa using he
    rw [this]
    rfl
  · apply List.ext_getElem?
    intro i
    rw [List.getElem?_zipWith, List.getElem?_map, List.getElem?_map, List.getElem?_zipIdx]
    cases us[i]? with
    | none => rfl
    | some u => simp [getD_presentName]

lemma nameUpvalues_nil (h : ∀ u ∈ us, u.name = []) :
    nameUpvalues (us.map fun u => { u with name := [] }) [] = us := by
  conv_rhs => rw [← List.map_id us]
  apply List.map_congr_left
  intro u hu
  rw [← h u hu]
  rfl

lemma forall₂_map_self {α : Type} (f : α → Bytes) (as : List α) :
    List.Forall₂ (fun a b => b = f a) as (as.map f) := by
  rw [List.forall₂_map_right_iff, List.forall₂_same]
  exact fun _ _ => rfl

lemma reads_code (code : List Instruction) :
    code.length * 4 ≤ (code.flatMap l.writeInstruction).length ∧
      (times code.length fun _ => l.readInstruction).Reads (code.flatMap l.writeInstruction)
        code := by
  have h := reads_items 4 (fun _ => l.readInstruction) id
    (forall₂_map_self l.writeInstruction code) ?_ ?_
  · rwa [List.map_id] at h
  · rintro i _ rfl
    exact Nat.le_of_eq (l.order.length_word .four _).symm
  · rintro i _ _ rfl _
    exact l.reads_instruction i

lemma reads_constants {ks : List Value} (hf : ∀ s, .string s ∈ ks → s.length + 1 < l.sizeT.words)
    (h : List.Forall₂ (fun v b => l.writeConstant v = .ok b) ks bs) :
    ks.length * 1 ≤ bs.flatten.length ∧
      (times ks.length l.readConstant).Reads bs.flatten (ks.map (Value.rounded l.number)) := by
  apply reads_items 1 l.readConstant _ h
  · intro v b hb
    exact l.length_constant hb
  · intro v hv b hb i
    exact l.reads_constant hb (fun s hs => hf s (hs ▸ hv)) i

lemma reads_upvalues (us : List UpvalueDescriptor) :
    us.length * 2 ≤ (us.flatMap fun u => [flag u.inStack, u.index]).length ∧
      (times us.length readUpvalue).Reads (us.flatMap fun u => [flag u.inStack, u.index])
        (us.map fun u => { u with name := [] }) := by
  apply reads_items 2 readUpvalue _ (forall₂_map_self (fun u => [flag u.inStack, u.index]) us)
  · rintro u _ rfl
    exact Nat.le_refl 2
  · rintro u _ _ rfl i
    exact reads_upvalue u i

lemma reads_lineInfo {lines : List Int64}
    (h : List.Forall₂ (fun (i : Int64) b => l.writeInt i.toInt = .ok b) lines bs) :
    lines.length * l.int.size ≤ bs.flatten.length ∧
      (times lines.length fun _ => l.readInt).Reads bs.flatten lines := by
  have hi := reads_items l.int.size (fun _ => l.readInt) id h ?_ ?_
  · rwa [List.map_id] at hi
  · intro i b hb
    exact Nat.le_of_eq (l.length_of_writeInt hb).symm
  · intro i _ b hb _
    exact l.reads_int hb

lemma reads_locals {absent : List Nat} {vs : List LocalVariable}
    (hf : ∀ v ∈ vs, v.name.length + 1 < l.sizeT.words)
    (h : List.Forall₂ (fun p b => l.WritesLocal (absent.contains p.2) p.1 b) vs.zipIdx bs) :
    ∃ ps : List (LocalVariable × Bool), ps.map Prod.fst = vs ∧ vs.length * 1 ≤ bs.flatten.length ∧
      (times vs.length l.readLocal).Reads bs.flatten ps := by
  have hi := reads_items 1 l.readLocal
    (fun p => (p.1, (presentName (absent.contains p.2) p.1.name).isSome)) h ?_ ?_
  · rw [List.length_zipIdx] at hi
    refine ⟨_, ?_, hi⟩
    rw [List.map_map]
    exact List.zipIdx_map_fst 0 vs
  · rintro ⟨v, i⟩ b ⟨start, stop, -, -, rfl⟩
    rw [List.length_append]
    exact Nat.le_add_right_of_le (l.length_writeName _ _)
  · rintro ⟨v, i⟩ hm b hb j
    exact l.reads_local hb (hf v (List.fst_mem_of_mem_zipIdx hm)) j

lemma reads_names {form : DumpForm} (hf : ∀ u ∈ us, u.name.length + 1 < l.sizeT.words)
    (h : l.writeUpvalueNames form us = .ok b) :
    ∃ n names count items, b = count ++ items ∧ l.writeCount n = .ok count ∧
      n * 1 ≤ items.length ∧ (n = 0 ∨ n = us.length) ∧
      nameUpvalues (us.map fun u => { u with name := [] }) names = us ∧
      (times n fun i => inPlace (.upvalueName i) l.readString).Reads items names := by
  rw [writeUpvalueNames_eq_ok] at h
  split at h
  · obtain ⟨count, hc, rfl⟩ := h
    have hi := reads_items 1 (fun i => inPlace (.upvalueName i) l.readString)
      (fun p => presentName (form.absentUpvalueNames.contains p.2) p.1.name)
      (forall₂_map_self (fun p : UpvalueDescriptor × Nat =>
        l.writeName (form.absentUpvalueNames.contains p.2) p.1.name) us.zipIdx) ?_ ?_
    · rw [List.length_zipIdx] at hi
      exact ⟨us.length, _, count, _, rfl, hc, hi.1, .inr rfl,
        nameUpvalues_presentName form.absentUpvalueNames, hi.2⟩
    · rintro p _ rfl
      exact l.length_writeName _ _
    · rintro ⟨u, i⟩ hm _ rfl j
      exact (l.reads_name _ (hf u (List.fst_mem_of_mem_zipIdx hm))).mapError _
  · next hw =>
    have hus : ∀ u ∈ us, u.name = [] := by
      simp only [namesWritten, Bool.or_eq_true, not_or] at hw
      simpa using hw.1
    exact ⟨0, [], b, [], by simp, h, by simp, .inl rfl, nameUpvalues_nil hus, fun _ => rfl⟩

lemma reads_source (hp : p = [] ∨ p = q) (hfi : f.source.length + 1 < l.sizeT.words) :
    ∃ name, l.readString.Reads (if sourceWritten p f then l.writeString f.source else [0]) name ∧
      name.getD q = f.effectiveSource q := by
  by_cases hw : sourceWritten p f = true
  · rw [if_pos hw]
    refine ⟨some f.source, l.reads_string hfi, ?_⟩
    simp only [sourceWritten, Bool.or_eq_true, Bool.and_eq_true, Bool.not_eq_true'] at hw
    rw [effectiveSource, if_neg]
    · rfl
    · rcases hw with hf | ⟨hs, -⟩ <;> simp [*]
  · rw [if_neg hw]
    refine ⟨none, fun _ => rfl, ?_⟩
    simp only [sourceWritten, Bool.or_eq_true, Bool.and_eq_true, Bool.not_eq_true', not_or,
      not_and, Bool.not_eq_true] at hw
    obtain ⟨hf, hs⟩ := hw
    rw [effectiveSource, Option.getD_none]
    by_cases he : f.source.isEmpty = true
    · rw [if_pos (by simp [he, hf])]
    · have heq : f.source = p := by simpa using hs (by simpa using he)
      rw [if_neg (by simp [he])]
      rcases hp with rfl | rfl
      · rw [heq] at he
        exact absurd rfl he
      · exact heq.symm

lemma source_effectiveSource (q : ChunkName) (f : Prototype) :
    f.source = [] ∨ f.source = f.effectiveSource q := by
  by_cases he : f.source = []
  · exact .inl he
  · right
    rw [effectiveSource, if_neg (by simp [he])]

lemma answers_function (hp : p = [] ∨ p = q) (hso : f.source.length < l.sizeT.words - 1)
    (hc : ∀ s, .string s ∈ f.constants → s.length < l.sizeT.words - 1)
    (hl : ∀ v ∈ f.localVariables, v.name.length < l.sizeT.words - 1)
    (hnames : ∀ u ∈ f.upvalues, u.name.length < l.sizeT.words - 1) {parts : Parts}
    (h : parts.Written l f) {d : Nat} {x : Except UndumpError (List Prototype)}
    (hle : f.functions.length ≤ parts.nested.length)
    (hne : f.upvalues.length ≤ maxUpvalues → (times f.functions.length fun _ =>
      l.readFunction d (f.effectiveSource q)).Answers parts.nested x) :
    ∃ form, (l.readFunction (d + 1) q).Answers
      (parts.join (if sourceWritten p f then l.writeString f.source else [0]) f)
      (if maxUpvalues < f.upvalues.length then
        .error (.function .whole (.tooManyUpvalues f.upvalues.length))
      else x >>= fun gs => .ok { f with
        constants := f.constants.map (Value.rounded l.number)
        functions := gs
        source := f.effectiveSource q
        form := some form }) := by
  have hsh : ∀ {n : Nat}, n < l.sizeT.words - 1 → n + 1 < l.sizeT.words := by omega
  obtain ⟨name, hname, he⟩ := l.reads_source hp (hsh hso)
  obtain ⟨codeCount, hcodeCount, hcode⟩ := l.writeCode_eq_ok.mp h.code
  obtain ⟨constantCount, constantBytes, hconstantCount, hconstantAll, hco⟩ :=
    l.writeConstants_eq_ok.mp h.constants
  obtain ⟨upvalueCount, hupvalueCount, hup⟩ := l.writeUpvalues_eq_ok.mp h.descriptors
  obtain ⟨lineCount, lineBytes, hlineCount, hlineAll, hli⟩ := l.writeLineInfo_eq_ok.mp h.lines
  obtain ⟨localCount, localBytes, hlocalCount, hlocalAll, hlo⟩ := l.writeLocals_eq_ok.mp h.locals
  obtain ⟨hcodeLen, hcodeReads⟩ := l.reads_code f.code
  obtain ⟨hconstantLen, hconstantReads⟩ :=
    l.reads_constants (fun s hs => hsh (hc s hs)) hconstantAll
  obtain ⟨hupvalueLen, hupvalueReads⟩ := reads_upvalues f.upvalues
  obtain ⟨hlineLen, hlineReads⟩ := l.reads_lineInfo hlineAll
  obtain ⟨vs, hvs, hlocalLen, hlocalReads⟩ := l.reads_locals (fun v hv => hsh (hl v hv)) hlocalAll
  obtain ⟨n, names, nameCount, nameBytes, hn', hnameCount, hnameLen, hn, hna, hnameReads⟩ :=
    l.reads_names (fun u hu => hsh (hnames u hu)) h.names
  rw [Parts.join, ← hcode, ← hco, ← hup, ← hli, ← hlo, hn']
  refine ⟨⟨name.isSome, 0 < n, absentPlaces (vs.map Prod.snd),
    absentPlaces (names.map Option.isSome)⟩, (hname.mapError _).answers ?_⟩
  refine ((l.reads_int h.first).mapError _).answers ?_
  refine ((l.reads_int h.last).mapError _).answers ?_
  refine Reads.answers (b := [f.numParams]) ((reads_byte _ _).mapError _) ?_
  refine Reads.answers (b := [flag f.isVararg]) ((reads_flag _).mapError _) ?_
  refine Reads.answers (b := [f.maxStackSize]) ((reads_byte _ _).mapError _) ?_
  refine l.reads_list hcodeCount hcodeLen (hcodeReads.mapError _) ?_
  refine l.reads_list hconstantCount hconstantLen hconstantReads ?_
  rw [List.append_assoc]
  refine l.answers_count hupvalueCount (by rw [List.length_append]; omega) ?_
  split
  · exact fun _ => rfl
  · next hm =>
    refine hupvalueReads.answers ?_
    rw [← List.append_assoc]
    refine l.answers_list h.count (by omega) (he ▸ hne (not_lt.mp hm)) fun gs _ => ?_
    refine l.reads_list hlineCount hlineLen (hlineReads.mapError _) ?_
    refine l.reads_list hlocalCount hlocalLen hlocalReads ?_
    refine l.answers_count hnameCount hnameLen (answers_check ?_ ?_)
    · rw [List.length_map]
      omega
    · rw [← List.append_nil nameBytes]
      refine hnameReads.answers ?_
      rw [hna, hvs, he]
      exact Reads.pure _

lemma length_function (h : l.writeFunction p f = .ok b) : ∃ parts : Parts, parts.Written l f ∧
      b = parts.join (if sourceWritten p f then l.writeString f.source else [0]) f ∧
      parts.nested.length < b.length := by
  obtain ⟨parts, hp, rfl⟩ := l.writeFunction_eq_ok.mp h
  refine ⟨parts, hp, rfl, ?_⟩
  simp only [Parts.join, List.length_append, List.length_cons]
  omega

lemma length_functions {fs : List Prototype} (h : l.writeFunctions p fs = .ok b) :
    fs.length ≤ b.length := by
  obtain ⟨bs, hbs, rfl⟩ := l.writeFunctions_eq_ok.mp h
  induction hbs with
  | nil => simp
  | cons hf hbs ih =>
    obtain ⟨parts, -, -, hl⟩ := l.length_function hf
    have hr := ih (l.writeFunctions_eq_ok.mpr ⟨_, hbs, rfl⟩)
    rw [List.flatten_cons, List.length_append, List.length_cons]
    omega

/-- The function is read back, or refused for the upvalues of a function in it. -/
def ReadsBack (depth : Nat) (q : ChunkName) (b : Bytes) (f : Prototype) : Prop :=
  (∃ g, (l.readFunction depth q).Reads b g ∧ g.exported = f.recovered l.number q ∧
    ∀ n, ¬f.HasTooMany n) ∨
  ∃ n, f.HasTooMany n ∧
    (l.readFunction depth q).Answers b (.error (.function .whole (.tooManyUpvalues n)))

mutual

lemma readsBack : ∀ (f : Prototype) {p q : ChunkName} {b : Bytes} {depth : Nat},
    (p = [] ∨ p = q) → f.AllTextsBelow (l.sizeT.words - 1) → l.writeFunction p f = .ok b →
    b.length ≤ depth → l.ReadsBack depth q b f
  | ⟨numParams, isVararg, maxStackSize, code, constants, upvalues, functions, source, lineDefined,
      lastLineDefined, lineInfo, localVariables, form⟩, p, q, b, depth, hpa, hte, h, hd => by
      obtain ⟨parts, hp, rfl, hlen⟩ := l.length_function h
      obtain ⟨depth, rfl⟩ : ∃ d, depth = d + 1 := ⟨depth - 1, by omega⟩
      obtain ⟨ht, hts⟩ := forall_nested.mp hte
      obtain ⟨hs, hc, hl, hna⟩ := texts_lt_iff.mp ht
      have han := fun x => l.answers_function (d := depth) (q := q) (x := x) hpa hs hc hl hna hp
        (l.length_functions hp.nested)
      by_cases hm : maxUpvalues < upvalues.length
      · obtain ⟨form', ha⟩ := han (.ok []) fun hle => absurd hm (not_lt.mpr hle)
        rw [if_pos hm] at ha
        exact .inr ⟨upvalues.length, hasTooMany_iff.mpr (.inl ⟨hm, rfl⟩), ha⟩
      rcases readsBack_all functions (source_effectiveSource q _) hts hp.nested
        (show parts.nested.length ≤ depth by omega) with ⟨gs, hr, he, hno⟩ | ⟨n, g, hg, hn, hr⟩
      · obtain ⟨form', ha⟩ := han (.ok gs) fun _ => hr 0 []
        rw [if_neg hm] at ha
        refine .inl ⟨_, ha, by simp only [exported, recovered, he], fun n hn => ?_⟩
        rcases hasTooMany_iff.mp hn with ⟨ho, -⟩ | ⟨g, hg, hn⟩
        · exact hm ho
        · exact hno g hg n hn
      · obtain ⟨form', ha⟩ := han (.error _) fun _ => hr 0 []
        rw [if_neg hm] at ha
        exact .inr ⟨n, hasTooMany_iff.mpr (.inr ⟨g, hg, hn⟩), ha⟩

lemma readsBack_all : ∀ (fs : List Prototype) {p q : ChunkName} {b : Bytes} {depth : Nat},
    (p = [] ∨ p = q) → (∀ f ∈ fs, f.AllTextsBelow (l.sizeT.words - 1)) →
    l.writeFunctions p fs = .ok b → b.length ≤ depth →
    (∃ gs, (∀ index done rest, repeatFrom (fun _ => l.readFunction depth q) fs.length index done
        (b ++ rest) = .ok (done.reverse ++ gs, rest)) ∧
      exportedAll gs = recoveredAll l.number q fs ∧ ∀ f ∈ fs, ∀ n, ¬f.HasTooMany n) ∨
    ∃ n, ∃ f ∈ fs, f.HasTooMany n ∧ ∀ index done rest,
      repeatFrom (fun _ => l.readFunction depth q) fs.length index done (b ++ rest) =
        .error (.function .whole (.tooManyUpvalues n))
  | [], _, _, _, _, _, _, h, _ => by
    cases h
    exact .inl ⟨[], fun _ _ _ => by simp [repeatFrom], rfl, by simp⟩
  | f :: fs, p, q, b, depth, hp, ht, h, hd => by
    simp only [writeFunctions, Except.bind_eq_ok] at h
    obtain ⟨head, hh, tail, hta, heq⟩ := h
    cases heq
    rw [List.length_append] at hd
    obtain ⟨htf, hts⟩ := List.forall_mem_cons.mp ht
    simp only [List.length_cons, repeatFrom, List.append_assoc]
    rcases readsBack f hp htf hh (show head.length ≤ depth by omega) with
      ⟨g, hg, he, hno⟩ | ⟨n, hn, hr⟩
    · simp only [hg _]
      rcases readsBack_all fs hp hts hta (show tail.length ≤ depth by omega) with
        ⟨gs, hgs, hes, hnos⟩ | ⟨n, g', hg', hn, hr⟩
      · refine .inl ⟨g :: gs, fun index done rest => ?_, by rw [exportedAll, recoveredAll, he, hes],
          List.forall_mem_cons.mpr ⟨hno, hnos⟩⟩
        simp [hgs]
      · exact .inr ⟨n, g', by simp [hg'], hn, fun _ _ _ => hr _ _ _⟩
    · refine .inr ⟨n, f, by simp, hn, fun index done rest => ?_⟩
      simp only [hr (tail ++ rest), Except.map]

end

lemma reads_function (f : Prototype) {p q : ChunkName} {b : Bytes} {depth : Nat}
    (hp : p = [] ∨ p = q) (hf : f.Fits (l.sizeT.words - 1)) (h : l.writeFunction p f = .ok b)
    (hd : b.length ≤ depth) :
    ∃ g, (l.readFunction depth q).Reads b g ∧ g.exported = f.recovered l.number q := by
  rcases l.readsBack f hp hf.textsBelow h hd with ⟨g, hg, he, -⟩ | ⟨n, hn, -⟩
  · exact ⟨g, hg, he⟩
  · exact absurd hn (hf.not_hasTooMany n)

lemma orderOf_word (order : ByteOrder) (w : Width) :
    orderOf (order.word w Chunk.orderMark) = some order := by
  cases order <;> cases w <;> decide +kernel

lemma rounded_floatMark (w : Width) : Chunk.floatMark.rounded w = Chunk.floatMark := by
  cases w
  · decide +kernel
  · rfl

lemma reads_preamble (n : UInt8) : readPreamble.Reads (l.writeHeader n) (l, n) := by
  have hl : ∀ (text : Bytes) (e : PreambleFault), (literal text e).Reads text () :=
    fun text e rest => literal_eq_ok.mpr rfl
  have hla : Header.layout ⟨Header.currentVersion, Header.currentFormat, l.int.size.toUInt8,
      l.sizeT.size.toUInt8, 4, l.integer.size.toUInt8, l.number.size.toUInt8, some .little⟩ =
        .ok { l with order := .little } := Layout.layout_header { l with order := .little }
  have hm := reads_bytes (l.order.word l.integer Chunk.orderMark)
  rw [ByteOrder.length_word] at hm
  have hn := l.reads_number Chunk.floatMark
  rw [rounded_floatMark] at hn
  simp only [writeHeader, List.append_assoc, List.cons_append, List.nil_append]
  show Answers _ _ (.ok _)
  refine (hl _ _).answers ?_
  refine Reads.answers (b := [_]) (reads_byte _ _) ?_
  refine Reads.answers (b := [_]) (reads_byte _ _) ?_
  refine (hl _ _).answers ?_
  refine Reads.answers (b := [_]) (reads_byte _ _) ?_
  refine Reads.answers (b := [_]) (reads_byte _ _) ?_
  refine Reads.answers (b := [_]) (reads_byte _ _) ?_
  refine Reads.answers (b := [_]) (reads_byte _ _) ?_
  refine Reads.answers (b := [_]) (reads_byte _ _) ?_
  simp only [Layout.header, hla]
  refine (hm.mapError _).answers ?_
  simp only [orderOf_word]
  refine (hn.mapError _).answers ?_
  exact Reads.answers (b := [n]) (reads_byte _ _) (Reads.pure _)

end Layout

def Header.textLimit (h : Header) : Nat :=
  if h.sizeTSize = 4 then 0xffffffff else 0xffffffffffffffff

def Header.numberWidth (h : Header) : Width := if h.numberSize = 4 then .four else .eight

lemma Layout.textLimit_header (l : Layout) : l.header.textLimit = l.sizeT.words - 1 := by
  cases hw : l.sizeT <;> simp [Header.textLimit, Layout.header, hw, Width.size, Width.words]

lemma Layout.numberWidth_header (l : Layout) : l.header.numberWidth = l.number := by
  cases hw : l.number <;> simp [Header.numberWidth, Layout.header, hw, Width.size]

namespace Chunk

open Layout

variable {c : Chunk} {main : Prototype}

lemma exists_reloaded {data : Bytes} (h : c.dump = .ok data) (hm : c.main = some main)
    (hf : main.Fits c.header.textLimit) :
    ∃ main', undump data = .ok ⟨c.header, c.upvalueCount, some main'⟩ ∧
      main'.exported = main.recovered c.header.numberWidth [] := by
  obtain ⟨l, _, body, hl, hm', -, hc, hb, rfl⟩ := dump_eq_ok.mp h
  rw [hm] at hm'
  cases hm'
  have hh := Header.header_layout hl
  rw [← hh, l.textLimit_header] at hf
  obtain ⟨main', hr, he⟩ := l.reads_function main (.inl rfl) hf hb (Nat.le_succ body.length)
  have hu : main'.upvalues = main.upvalues := by
    rw [← main'.upvalues_exported, he, upvalues_recovered]
  refine ⟨main', undump_eq_ok.mpr ⟨l, c.upvalueCount, body, main', l.reads_preamble _ body, ?_, ?_,
    by rw [hh]⟩, ?_⟩
  · simpa using hr []
  · rw [hc, hu]
  · rw [← hh, l.numberWidth_header, he]

end Chunk

/-- What is written is read back: everything fits into its field, or nothing is written. The length
of a text is a 64-bit integer, so that texts are limited only by a narrow length field. -/
theorem Chunk.undump_dump {c : Chunk} {data : Bytes} (h : c.dump = .ok data)
    (hfit : ∀ main ∈ c.main, main.Fits c.header.textLimit) :
    ∃ c', Chunk.undump data = .ok c' ∧ c'.header = c.header ∧ c'.upvalueCount = c.upvalueCount ∧
      c'.main.map Prototype.exported =
        c.main.map (Prototype.recovered c.header.numberWidth []) := by
  obtain ⟨-, main, -, -, hmain, -⟩ := dump_eq_ok.mp h
  obtain ⟨main', hundump, hexported⟩ := exists_reloaded h hmain (hfit main hmain)
  exact ⟨_, hundump, rfl, rfl, by rw [hmain, Option.map_some, Option.map_some, hexported]⟩

def textsPrototype (source : ChunkName) (functions : List Prototype) : Prototype where
  numParams := 0
  isVararg := true
  maxStackSize := 2
  code := [⟨0x00800026⟩]
  constants := [.float ⟨0x3fb999999999999a⟩, .integer (-1), .string (.replicate 39 0x61),
    .string (.replicate 40 0x61), .string (.replicate 41 0x61)]
  upvalues := [⟨environmentName, true, 0⟩]
  functions
  source
  lineDefined := 0
  lastLineDefined := 0
  lineInfo := [-1]
  localVariables := [⟨[], 0, 1⟩]

def textsChunk : Chunk where
  header := ⟨0x53, 0, 4, 4, 4, 8, 4, some .big⟩
  upvalueCount := 1
  main := some (textsPrototype [0x40] [textsPrototype [] [textsPrototype [0x40] []]])

theorem Chunk.undump_dump_texts : ∃ data, textsChunk.dump = .ok data ∧
    (∀ main ∈ textsChunk.main, main.Fits textsChunk.header.textLimit) ∧
    ∃ c', Chunk.undump data = .ok c' ∧ c'.header = textsChunk.header ∧
      c'.upvalueCount = textsChunk.upvalueCount ∧
      c'.main.map Prototype.exported =
        textsChunk.main.map (Prototype.recovered textsChunk.header.numberWidth []) := by
  have hok : textsChunk.dump.toOption.isSome = true := by decide +kernel
  have hfit : ∀ main ∈ textsChunk.main, main.Fits textsChunk.header.textLimit := by
    simp [textsChunk, textsPrototype, Header.textLimit, Prototype.Fits, Prototype.AllFit,
      environmentName, maxUpvalues, Bytes.ofString]
  cases h : textsChunk.dump with
  | error e => simp [h, Except.toOption] at hok
  | ok data => exact ⟨data, rfl, hfit, Chunk.undump_dump h hfit⟩

end LuaBytecode
