import LuaBytecode.Chunk.Combine
import LuaBytecode.Proofs.Chunk.Field
import LuaBytecode.Proofs.Closing.Compiled

namespace LuaBytecode

variable {chunks : List Chunk} {c : Chunk}

inductive Home where
  | given (index : Nat)
  | register (depth index : Nat)
  deriving DecidableEq

namespace Prototype

/-- The functions on a path of indices into nested functions, the innermost first and followed by
those around the first one. -/
def chain? (f : Prototype) (outer : List Prototype) : List Nat → Option (List Prototype)
  | [] => some (f :: outer)
  | i :: path => f.functions[i]? >>= fun g => g.chain? (f :: outer) path

/-- Follows the descriptors outwards from an upvalue of the innermost function. -/
def home? : List Prototype → (index : Nat) → Option Home
  | [], _ => none
  | [f], k => if k < f.upvalues.length then some (.given k) else none
  | f :: g :: rest, k => f.upvalues[k]? >>= fun u =>
    if u.inStack then some (.register rest.length u.index.toNat)
    else home? (g :: rest) u.index.toNat

def Declares (f : Prototype) (name : Bytes) (r : Nat) : Prop :=
  ∃ (j : Nat) (v : LocalVariable), f.localVariables[j]? = some v ∧ v.name = name ∧
    f.registerOf j v = r

def Lent : List Prototype → Prop
  | [] | [_] => True
  | f :: g :: rest => (∀ u ∈ f.upvalues, ∃ pc i, g.Owns pc i u) ∧ Lent (g :: rest)

variable {f top : Prototype} {outer fs : List Prototype} {path : List Nat}

lemma chain?_append (f : Prototype) (outer : List Prototype) (top : Prototype) (path : List Nat) :
    f.chain? (outer ++ [top]) path = (f.chain? outer path).map (· ++ [top]) := by
  induction path generalizing f outer with
  | nil => rfl
  | cons i path ih =>
    rw [chain?, chain?]
    cases f.functions[i]? with
    | none => rfl
    | some g => exact ih g (f :: outer)

lemma chain?_lent (ha : ∀ path g, f.nested? path = some g → g.ClosesCaptured)
    (hl : Lent (f :: outer)) (h : f.chain? outer path = some fs) :
    Lent fs ∧ fs.getLast? = (f :: outer).getLast? := by
  induction path generalizing f outer with
  | nil =>
    cases h
    exact ⟨hl, rfl⟩
  | cons i path ih =>
    obtain ⟨g, hg, h⟩ := Option.bind_eq_some_iff.mp h
    have hn : ∀ path e, g.nested? path = some e → e.ClosesCaptured := by
      intro path e he
      apply ha (i :: path)
      rw [nested?, hg]
      exact he
    obtain ⟨pc, j, -, -, -, ho⟩ := (ha [] f rfl).lent i g hg
    have hl' : Lent (g :: f :: outer) := ⟨fun u hu => ⟨pc, j, ho u hu⟩, hl⟩
    obtain ⟨hfs, hla⟩ := ih hn hl' h
    exact ⟨hfs, by rw [hla, List.getLast?_cons_cons]⟩

lemma Lent.home?_append {k : Nat} {u : UpvalueDescriptor} (h : Lent (f :: outer))
    (hl : ∀ main, (f :: outer).getLast? = some main → main.upvalues = [⟨environmentName, true, 0⟩])
    (hu : f.upvalues[k]? = some u) :
    home? (f :: outer ++ [top]) k = some (.register 0 0) ∨
      ∃ depth r g, 0 < depth ∧ home? (f :: outer ++ [top]) k = some (.register depth r) ∧
        (f :: outer ++ [top]).reverse[depth]? = some g ∧ g.Declares u.name r := by
  induction outer generalizing f k u with
  | nil =>
    have hup := hl f rfl
    rw [hup] at hu
    have hk : k = 0 := by
      have := (List.getElem?_eq_some_iff.mp hu).1
      simpa using this
    subst hk
    simp [home?, hup]
  | cons g rest ih =>
    obtain ⟨pc, i, ho⟩ := h.1 u (List.mem_of_getElem? hu)
    unfold Owns at ho
    split at ho
    · next hin =>
      obtain ⟨j, v, hv, hn, hr, -⟩ := ho
      refine .inr ⟨(rest ++ [top]).length, u.index.toNat, g, by simp, ?_, ?_,
        j, v, hv, hn, hr⟩
      · simp [home?, hu, hin]
      · simp
    · next hin =>
      obtain ⟨w, hw, hn⟩ := ho
      have hs : home? (f :: g :: rest ++ [top]) k = home? (g :: rest ++ [top]) u.index.toNat := by
        simp [home?, hu, hin]
      rw [hs]
      have hl' : ∀ main, (g :: rest).getLast? = some main →
          main.upvalues = [⟨environmentName, true, 0⟩] := by
        intro main hm
        apply hl
        rw [List.getLast?_cons_cons, hm]
      rcases ih h.2 hl' hw with hh | ⟨depth, r, e, hp, hh, he, hd⟩
      · exact .inl hh
      · refine .inr ⟨depth, r, e, hp, hh, ?_, hn ▸ hd⟩
        have hlt := (List.getElem?_eq_some_iff.mp he).1
        rw [List.cons_append, List.reverse_cons, List.getElem?_append_left hlt]
        exact he

end Prototype

namespace Chunk

/-- The chunk of a text, where text and code have lengths that are 64-bit integers. -/
def IsCompiled (c : Chunk) : Prop :=
  ∃ source src, src.length < 2 ^ 63 ∧ compile source src = .ok c ∧
    ∀ main, c.main = some main → ∀ path f, main.nested? path = some f → f.code.length < 2 ^ 63

lemma IsCompiled.main {c : Chunk} (h : c.IsCompiled) : ∃ main, c.main = some main ∧
    main.upvalues = [⟨environmentName, true, 0⟩] ∧
      ∀ path f, main.nested? path = some f → f.ClosesCaptured := by
  obtain ⟨source, src, hs, hc, hco⟩ := h
  obtain ⟨main, hm, hu, ha⟩ := compile_allClose hs hc
  exact ⟨main, hm, hu, fun path f hf => ha path f hf (hco main hm path f hf)⟩

lemma mapM_callPart {is : List Nat} (h : ∀ i ∈ is, i ≤ Instruction.maxBx) :
    ∃ calls, is.mapM callPart = .ok calls := by
  induction is with
  | nil => exact ⟨[], rfl⟩
  | cons i is ih =>
    obtain ⟨hi, his⟩ := List.forall_mem_cons.mp h
    obtain ⟨calls, hca⟩ := ih his
    have hc : ∃ call, callPart i = .ok call := by
      have hm : ∃ j, Instruction.abx .closure 0 i = .ok j :=
        (Instruction.abx_eq_ok rfl hi).imp fun _ hj => hj.1
      obtain ⟨j, hj⟩ := hm
      rw [callPart, hj]
      exact ⟨_, rfl⟩
    obtain ⟨call, hc⟩ := hc
    rw [List.mapM_cons, hc, hca]
    exact ⟨call :: calls, rfl⟩

lemma combine_eq_ok (hma : 2 ≤ chunks.length) (h : combine chunks = .ok c) :
    ∃ main, c.main = some main ∧
      main.functions = chunks.filterMap (·.main) ∧ main.localVariables = [] ∧
      main.upvalues = [⟨environmentName, true, 0⟩] := by
  unfold combine at h
  split at h
  · simp at hma
  · obtain ⟨main, hm, h⟩ := Except.bind_eq_ok.mp h
    cases h
    refine ⟨main, rfl, ?_⟩
    simp only [callAll, Except.bind_eq_ok] at hm
    obtain ⟨calls, -, final, -, hm⟩ := hm
    cases hm
    exact ⟨rfl, rfl, rfl⟩

lemma combine_of_length (hm : 2 ≤ chunks.length) (hma : chunks.length ≤ Instruction.maxBx + 1) :
    ∃ c, combine chunks = .ok c := by
  have hl := List.length_filterMap_le (·.main) chunks
  have hc : ∃ calls, (List.range (chunks.filterMap (·.main)).length).mapM callPart = .ok calls :=
    mapM_callPart fun i hi => by
      have := List.mem_range.mp hi
      omega
  obtain ⟨calls, hc⟩ := hc
  have ha : ∃ main, callAll (chunks.filterMap (·.main)) = .ok main := by
    rw [callAll, hc]
    exact ⟨_, rfl⟩
  obtain ⟨main, ha⟩ := ha
  unfold combine
  split
  · simp at hm
  · rw [ha]
    exact ⟨_, rfl⟩

/-- The environment of a part is looked for in the first register of the function that calls the
parts, unless it is a local variable of the part. -/
theorem combine_environment {chunks : List Chunk} (hmany : 2 ≤ chunks.length)
    (hall : ∀ c ∈ chunks, c.IsCompiled) :
    (chunks.length ≤ Instruction.maxBx + 1 → ∃ c, combine chunks = .ok c) ∧
    ∀ c, combine chunks = .ok c → ∃ main, c.main = some main ∧ main.localVariables = [] ∧
      ∀ path f outer k u, main.chain? [] path = some (f :: outer) → f.upvalues[k]? = some u →
        u.name = environmentName →
        (path = [] ∧ Prototype.home? (f :: outer) k = some (.given 0)) ∨
        (path ≠ [] ∧ Prototype.home? (f :: outer) k = some (.register 0 0)) ∨
        (path ≠ [] ∧ ∃ depth r g, 0 < depth ∧
          Prototype.home? (f :: outer) k = some (.register depth r) ∧
          (f :: outer).reverse[depth]? = some g ∧ g.Declares environmentName r) := by
  refine ⟨combine_of_length hmany, fun c hc => ?_⟩
  obtain ⟨main, hmain, hfunctions, hlocals, hups⟩ := combine_eq_ok hmany hc
  refine ⟨main, hmain, hlocals, fun path f outer k u hchain hu hname => ?_⟩
  cases path with
  | nil =>
    cases hchain
    have hlt := (List.getElem?_eq_some_iff.mp hu).1
    simp only [hups, List.length_singleton] at hlt
    have hk : k = 0 := by omega
    subst hk
    exact .inl ⟨rfl, by simp [Prototype.home?, hups]⟩
  | cons i path =>
    obtain ⟨part, hpart, hchain⟩ := Option.bind_eq_some_iff.mp hchain
    rw [hfunctions] at hpart
    obtain ⟨p, hp, hpmain⟩ := List.mem_filterMap.mp (List.mem_of_getElem? hpart)
    obtain ⟨part', hpart', hpups, hclosed⟩ := (hall p hp).main
    cases hpmain.symm.trans hpart'
    have hinner := part.chain?_append [] main path
    rw [List.nil_append, hchain] at hinner
    obtain ⟨inner, hinner, happend⟩ := Option.map_eq_some_iff.mp hinner.symm
    have hpart' : Prototype.Lent [part] := trivial
    obtain ⟨hlent, hlast⟩ := Prototype.chain?_lent hclosed hpart' hinner
    cases inner with
    | nil => cases hlast
    | cons e rest =>
      obtain ⟨rfl, rfl⟩ := List.cons.inj happend
      have hlast' : ∀ m, (e :: rest).getLast? = some m →
          m.upvalues = [⟨environmentName, true, 0⟩] := by
        intro m hm
        cases hlast.symm.trans hm
        exact hpups
      rcases hlent.home?_append hlast' hu with hhome | ⟨depth, r, g, hpos, hhome, hg, hdeclares⟩
      · exact .inr (.inl ⟨by simp, hhome⟩)
      · exact .inr (.inr ⟨by simp, depth, r, g, hpos, hhome, hg, hname ▸ hdeclares⟩)

lemma isCompiled_of_shallow {source : ChunkName} {src : Bytes} {main : Prototype}
    (hs : src.length < 2 ^ 63) (h : compile source src = .ok c) (hm : c.main = some main)
    (hc : main.code.length < 2 ^ 63)
    (hfs : ∀ g ∈ main.functions, g.code.length < 2 ^ 63 ∧ g.functions.length = 0) :
    c.IsCompiled := by
  refine ⟨source, src, hs, h, fun main' hm' path f hf => ?_⟩
  cases hm.symm.trans hm'
  cases path with
  | nil =>
    cases hf
    exact hc
  | cons i path =>
    obtain ⟨g, hg, hf⟩ := Option.bind_eq_some_iff.mp hf
    obtain ⟨hl, hn⟩ := hfs g (List.mem_of_getElem? hg)
    cases path with
    | nil =>
      cases hf
      exact hl
    | cons j path =>
      obtain ⟨e, he, -⟩ := Option.bind_eq_some_iff.mp hf
      rw [List.length_eq_zero_iff.mp hn] at he
      cases he

def openText : Bytes := "return function() return _ENV end"

def shadowingText : Bytes := "local _ENV; return function() return _ENV end"

def sizes (source : String) (src : Bytes) : Option (Nat × List (Nat × Nat)) :=
  (compile (.ofString source) src).toOption.bind fun c => c.main.map fun main =>
    (main.code.length, main.functions.map fun g => (g.code.length, g.functions.length))

lemma isCompiled_of_sizes (source : String) (src : Bytes) {n m : Nat}
    (hsr : src.length < 2 ^ 63) (h : sizes source src = some (n, [(m, 0)])) (hn : n < 2 ^ 63)
    (hm : m < 2 ^ 63) : ∃ c, compile (.ofString source) src = .ok c ∧ c.IsCompiled := by
  obtain ⟨c, hc, h⟩ := Option.bind_eq_some_iff.mp h
  obtain ⟨main, hma, h⟩ := Option.map_eq_some_iff.mp h
  have hok : compile (.ofString source) src = .ok c := by
    cases hco : compile (.ofString source) src with
    | error e => simp [hco, Except.toOption] at hc
    | ok c' =>
      rw [hco] at hc
      cases hc
      rfl
  obtain ⟨hcode, hfs⟩ := Prod.mk.inj h
  refine ⟨c, hok, isCompiled_of_shallow hsr hok hma (by omega) fun g hg => ?_⟩
  have hs : (g.code.length, g.functions.length) ∈ [(m, 0)] := hfs ▸ List.mem_map_of_mem hg
  obtain ⟨hl, hno⟩ := Prod.mk.inj (List.mem_singleton.mp hs)
  exact ⟨by omega, hno⟩

theorem combine_environment_shadowed : ∃ a b,
    compile (.ofString "=a") openText = .ok a ∧ compile (.ofString "=b") shadowingText = .ok b ∧
      a.IsCompiled ∧ b.IsCompiled ∧ ∃ c main, combine [a, b] = .ok c ∧ c.main = some main ∧
        main.localVariables = [] := by
  obtain ⟨a, ha, hac⟩ := isCompiled_of_sizes "=a" openText (by decide +kernel)
    (show _ = some (3, [(3, 0)]) by decide +kernel) (by decide) (by decide)
  obtain ⟨b, hb, hbc⟩ := isCompiled_of_sizes "=b" shadowingText
    (by decide +kernel) (show _ = some (4, [(3, 0)]) by decide +kernel) (by decide) (by decide)
  have hall : ∀ c ∈ [a, b], c.IsCompiled := by simp [hac, hbc]
  have hmany : 2 ≤ [a, b].length := Nat.le_refl 2
  have hmax : [a, b].length ≤ Instruction.maxBx + 1 := by simp [Instruction.maxBx]
  obtain ⟨hok, hhome⟩ := combine_environment hmany hall
  obtain ⟨c, hc⟩ := hok hmax
  obtain ⟨main, hmain, hlocals, -⟩ := hhome c hc
  exact ⟨a, b, ha, hb, hac, hbc, c, main, hc, hmain, hlocals⟩

/-- The main function of a part looks for its environment in a register that holds no variable. -/
theorem combine_environment_in_register : ∃ a b c main part,
    compile (.ofString "=a") openText = .ok a ∧ compile (.ofString "=b") openText = .ok b ∧
      combine [a, b] = .ok c ∧ c.main = some main ∧ main.localVariables = [] ∧
      main.chain? [] [0] = some [part, main] ∧
      part.upvalues[0]? = some ⟨environmentName, true, 0⟩ ∧
      Prototype.home? [part, main] 0 = some (.register 0 0) := by
  obtain ⟨a, ha, hac⟩ := isCompiled_of_sizes "=a" openText (by decide +kernel)
    (show _ = some (3, [(3, 0)]) by decide +kernel) (by decide) (by decide)
  obtain ⟨b, hb, hbc⟩ := isCompiled_of_sizes "=b" openText (by decide +kernel)
    (show _ = some (3, [(3, 0)]) by decide +kernel) (by decide) (by decide)
  obtain ⟨part, hpart, hups, -⟩ := hac.main
  have hmany : 2 ≤ [a, b].length := Nat.le_refl 2
  have hmax : [a, b].length ≤ Instruction.maxBx + 1 := by simp [Instruction.maxBx]
  obtain ⟨c, hc⟩ := combine_of_length hmany hmax
  obtain ⟨main, hmain, hfunctions, hlocals, -⟩ := combine_eq_ok hmany hc
  refine ⟨a, b, c, main, part, ha, hb, hc, hmain, hlocals, ?_, by rw [hups]; rfl, ?_⟩
  · simp [Prototype.chain?, hfunctions, hpart]
  · simp [Prototype.home?, hups]

end Chunk

end LuaBytecode
