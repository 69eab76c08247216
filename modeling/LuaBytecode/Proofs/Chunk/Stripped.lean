import LuaBytecode.Proofs.Chunk.Reloaded
import Mathlib.Data.Option.Basic

namespace LuaBytecode

variable {f' f : Prototype} {c : Chunk}

namespace Prototype

structure SameBody (f f' : Prototype) : Prop where
  numParams : f.numParams = f'.numParams
  isVararg : f.isVararg = f'.isVararg
  maxStackSize : f.maxStackSize = f'.maxStackSize
  code : f.code = f'.code
  constants : f.constants = f'.constants
  locations : f.upvalues.map (fun u => (u.inStack, u.index)) =
    f'.upvalues.map fun u => (u.inStack, u.index)
  lineDefined : f.lineDefined = f'.lineDefined
  lastLineDefined : f.lastLineDefined = f'.lastLineDefined

def SameButDebug (f f' : Prototype) : Prop :=
  ∀ path, Option.Rel SameBody (f.nested? path) (f'.nested? path)

lemma unnamed_eq_iff {us us' : List UpvalueDescriptor} :
    us.map (fun u => { u with name := [] }) = us'.map (fun u => { u with name := [] }) ↔
      us.map (fun u => (u.inStack, u.index)) = us'.map fun u => (u.inStack, u.index) := by
  induction us generalizing us' with
  | nil => cases us' <;> simp
  | cons u us ih =>
    cases us' with
    | nil => simp
    | cons u' us' => simp [ih]

lemma sameBody_of_strip_eq (h : f.strip = f'.strip) : SameBody f f' := by
  cases f
  cases f'
  simp only [strip, mk.injEq] at h
  obtain ⟨h1, h2, h3, h4, h5, hup, -, -, h6, h7, -⟩ := h
  exact ⟨h1, h2, h3, h4, h5, unnamed_eq_iff.mp hup, h6, h7⟩

lemma stripAll_eq_map (fs : List Prototype) : stripAll fs = fs.map strip := by
  induction fs with
  | nil => rfl
  | cons f fs ih => rw [stripAll, List.map_cons, ih]

lemma nested?_strip (f : Prototype) (path : List Nat) :
    f.strip.nested? path = (f.nested? path).map strip := by
  induction path generalizing f with
  | nil => rfl
  | cons k path ih =>
    have hf : f.strip.functions = f.functions.map strip := by
      cases f
      exact stripAll_eq_map _
    simp only [nested?, hf, List.getElem?_map]
    cases f.functions[k]? with
    | none => rfl
    | some g => exact ih g

mutual

lemma strip_eq_of_same : ∀ {f f' : Prototype}, f.SameButDebug f' → f.strip = f'.strip
  | ⟨_, _, _, _, _, _, functions, _, _, _, _, _, _⟩,
      ⟨_, _, _, _, _, _, functions', _, _, _, _, _, _⟩, h => by
      have hn : stripAll functions = stripAll functions' :=
        stripAll_eq_of_same fun k path => h (k :: path)
      cases h [] with
      | some ho =>
        have hup := unnamed_eq_iff.mpr ho.locations
        obtain ⟨h1, h2, h3, h4, h5, -, h6, h7⟩ := ho
        simp only at h1 h2 h3 h4 h5 h6 h7 hup
        simp only [strip, h1, h2, h3, h4, h5, h6, h7, hup, hn]

lemma stripAll_eq_of_same : ∀ {fs fs' : List Prototype},
    (∀ (k : Nat) (path : List Nat), Option.Rel SameBody (fs[k]? >>= fun g => g.nested? path)
      (fs'[k]? >>= fun g => g.nested? path)) → stripAll fs = stripAll fs'
  | [], [], _ => rfl
  | [], _ :: _, h => nomatch h 0 []
  | _ :: _, [], h => nomatch h 0 []
  | f :: fs, f' :: fs', h => by
    have hh : f.SameButDebug f' := fun path => h 0 path
    have ht : stripAll fs = stripAll fs' := stripAll_eq_of_same fun k path => h (k + 1) path
    rw [stripAll, stripAll, strip_eq_of_same hh, ht]

end

lemma strip_eq_iff : f.strip = f'.strip ↔ f.SameButDebug f' := by
  constructor
  · intro h path
    have hp : (f.nested? path).map strip = (f'.nested? path).map strip := by
      rw [← nested?_strip, ← nested?_strip, h]
    cases hf : f.nested? path with
    | none =>
      cases hf' : f'.nested? path with
      | none => exact .none
      | some g' => simp [hf, hf'] at hp
    | some g =>
      cases hf' : f'.nested? path with
      | none => simp [hf, hf'] at hp
      | some g' =>
        rw [hf, hf'] at hp
        exact .some (sameBody_of_strip_eq (Option.some.inj hp))
  · exact strip_eq_of_same

mutual

lemma strip_strip : ∀ f : Prototype, f.strip.strip = f.strip
  | ⟨_, _, _, _, _, _, functions, _, _, _, _, _, _⟩ => by
    simp only [strip, List.map_map, Function.comp_def, stripAll_stripAll functions]

lemma stripAll_stripAll : ∀ fs : List Prototype, stripAll (stripAll fs) = stripAll fs
  | [] => rfl
  | f :: fs => by simp only [stripAll, strip_strip f, stripAll_stripAll fs]

end

mutual

/-- The function with its floats as numbers of the given width have them, at every depth. -/
def rounded (w : Width) : Prototype → Prototype
  | ⟨numParams, isVararg, maxStackSize, code, constants, upvalues, functions, source, lineDefined,
      lastLineDefined, lineInfo, localVariables, form⟩ =>
      { numParams, isVararg, maxStackSize, code
        constants := constants.map (Value.rounded w)
        upvalues
        functions := roundedAll w functions
        source, lineDefined, lastLineDefined, lineInfo, localVariables, form }

def roundedAll (w : Width) : List Prototype → List Prototype
  | [] => []
  | f :: rest => f.rounded w :: roundedAll w rest

end

lemma rounded_eight_value (v : Value) : v.rounded .eight = v := by
  cases v <;> rfl

mutual

lemma rounded_eight : ∀ f : Prototype, f.rounded .eight = f
  | ⟨_, _, _, _, constants, _, functions, _, _, _, _, _, _⟩ => by
    have hc : constants.map (Value.rounded .eight) = constants :=
      (List.map_congr_left fun v _ => rounded_eight_value v).trans (List.map_id' constants)
    simp only [rounded, hc, roundedAll_eight functions]

lemma roundedAll_eight : ∀ fs : List Prototype, roundedAll .eight fs = fs
  | [] => rfl
  | f :: fs => by simp only [roundedAll, rounded_eight f, roundedAll_eight fs]

end

variable {w : Width}

mutual

lemma recovered_strip : ∀ f : Prototype, f.strip.recovered w [] = f.strip.rounded w
  | ⟨_, _, _, _, _, _, functions, _, _, _, _, _, _⟩ => by
    simp only [strip, recovered, rounded, effectiveSource, List.isEmpty_nil, Option.getD_none,
      DumpForm.plain, Bool.not_false, Bool.and_self, if_true,
      recoveredAll_stripAll functions]

lemma recoveredAll_stripAll : ∀ fs : List Prototype,
    recoveredAll w [] (stripAll fs) = roundedAll w (stripAll fs)
  | [] => rfl
  | f :: fs => by
    simp only [stripAll, recoveredAll, roundedAll, recovered_strip f, recoveredAll_stripAll fs]

end

mutual

lemma strip_recovered : ∀ (f : Prototype) (p : ChunkName),
    (f.recovered w p).strip = f.strip.rounded w
  | ⟨_, _, _, _, _, _, functions, _, _, _, _, _, _⟩, p => by
    simp only [recovered, strip, rounded, stripAll_recoveredAll functions]

lemma stripAll_recoveredAll : ∀ (fs : List Prototype) (p : ChunkName),
    stripAll (recoveredAll w p fs) = roundedAll w (stripAll fs)
  | [], _ => rfl
  | f :: fs, p => by
    simp only [recoveredAll, stripAll, roundedAll, strip_recovered f, stripAll_recoveredAll fs]

end

end Prototype

namespace Chunk

def SameButDebug (c c' : Chunk) : Prop := c.header = c'.header ∧ c.upvalueCount = c'.upvalueCount ∧
    Option.Rel Prototype.SameButDebug c.main c'.main

def exported (c : Chunk) : Chunk := { c with main := c.main.map Prototype.exported }

def rounded (c : Chunk) : Chunk :=
  { c with main := c.main.map (Prototype.rounded c.header.numberWidth) }

lemma strip_eq_iff {c c' : Chunk} : c.strip = c'.strip ↔ c.SameButDebug c' := by
  obtain ⟨header, n, main⟩ := c
  obtain ⟨header', n', main'⟩ := c'
  simp only [strip, SameButDebug, mk.injEq]
  cases main <;> cases main' <;> simp [Prototype.strip_eq_iff]

lemma rounded_of_wide (h : c.header.numberSize = 8) : c.rounded = c := by
  have hw : c.header.numberWidth = .eight := by simp [Header.numberWidth, h]
  obtain ⟨header, n, main⟩ := c
  cases main with
  | none => rfl
  | some main => simp only [rounded, hw, Option.map_some, Prototype.rounded_eight]

variable {data : Bytes}

lemma undump_dump_strip (h : c.strip.dump = .ok data)
    (hf : ∀ main ∈ c.strip.main, main.Fits c.header.textLimit) :
    ∃ c', Chunk.undump data = .ok c' ∧ c'.exported = c.strip.rounded := by
  obtain ⟨-, _, -, -, hm, -⟩ := dump_eq_ok.mp h
  obtain ⟨main', hu, he⟩ := exists_reloaded h hm (hf _ hm)
  refine ⟨_, hu, ?_⟩
  obtain ⟨main, -, rfl⟩ := Option.map_eq_some_iff.mp hm
  rw [exported, rounded, hm, Option.map_some, Option.map_some, he, Prototype.recovered_strip]

lemma strip_of_reloaded (h : c.dump = .ok data)
    (hf : ∀ main ∈ c.main, main.Fits c.header.textLimit) :
    ∃ c', Chunk.undump data = .ok c' ∧ c'.strip = c.strip.rounded := by
  obtain ⟨-, main, -, -, hm, -⟩ := dump_eq_ok.mp h
  obtain ⟨main', hu, he⟩ := exists_reloaded h hm (hf _ hm)
  refine ⟨_, hu, ?_⟩
  have hs : main'.strip = main.strip.rounded c.header.numberWidth := by
    rw [← main'.strip_exported, he, Prototype.strip_recovered]
  simp only [strip, rounded, hm, Option.map_some, hs]

/-- Stripping forgets debug information, all of it and nothing else: also the written form of what
is left does not depend on it, and it is the same before writing and loading and after it. -/
theorem strip_forgets_debug (c : Chunk) : (∀ c', (c.strip = c'.strip ↔ c.SameButDebug c') ∧
      (c.SameButDebug c' → c.strip.dump = c'.strip.dump)) ∧
    c.strip.strip = c.strip ∧
    (∀ data, c.strip.dump = .ok data → (∀ main ∈ c.strip.main, main.Fits c.header.textLimit) →
      ∃ c', Chunk.undump data = .ok c' ∧ c'.exported = c.strip.rounded) ∧
    (∀ data, c.dump = .ok data → (∀ main ∈ c.main, main.Fits c.header.textLimit) →
      ∃ c', Chunk.undump data = .ok c' ∧ c'.strip = c.strip.rounded) ∧
    (c.header.numberSize = 8 → c.strip.rounded = c.strip) := by
  refine ⟨fun c' => ⟨strip_eq_iff, fun h => ?_⟩, ?_, fun _ => undump_dump_strip,
    fun _ => strip_of_reloaded, fun h => rounded_of_wide h⟩
  · rw [strip_eq_iff.mpr h]
  · obtain ⟨header, n, main⟩ := c
    cases main with
    | none => rfl
    | some main => simp only [strip, Option.map_some, Prototype.strip_strip]

def renamedChunk (numberSize : UInt8) : Chunk where
  header := ⟨0x53, 0, 4, 4, 4, 8, numberSize, some .big⟩
  upvalueCount := 1
  main := some (textsPrototype [0x3d, 0x61] [textsPrototype [0x40] [textsPrototype [] []]])

lemma renamedChunk_fits (numberSize : UInt8) : ∀ main ∈ (renamedChunk numberSize).main,
    main.Fits (renamedChunk numberSize).header.textLimit := by
  simp [renamedChunk, textsPrototype, Header.textLimit, Prototype.Fits, Prototype.AllFit,
    environmentName, maxUpvalues, Bytes.ofString]

lemma renamedChunk_strip_fits (numberSize : UInt8) : ∀ main ∈ (renamedChunk numberSize).strip.main,
    main.Fits (renamedChunk numberSize).header.textLimit := by
  simp [renamedChunk, textsPrototype, Header.textLimit, Prototype.Fits, Prototype.AllFit,
    Prototype.strip, Prototype.stripAll, Chunk.strip, maxUpvalues]

theorem strip_forgets_debug_texts : (renamedChunk 4).SameButDebug textsChunk ∧
    (renamedChunk 4).strip.dump = textsChunk.strip.dump ∧
    (∃ data, (renamedChunk 4).strip.dump = .ok data ∧
      ∃ c', Chunk.undump data = .ok c' ∧ c'.exported = (renamedChunk 4).strip.rounded) ∧
    (∃ data, (renamedChunk 4).dump = .ok data ∧
      ∃ c', Chunk.undump data = .ok c' ∧ c'.strip = (renamedChunk 4).strip.rounded) ∧
    (renamedChunk 8).strip.rounded = (renamedChunk 8).strip := by
  have hsame : (renamedChunk 4).SameButDebug textsChunk := strip_eq_iff.mp rfl
  have hstripped : (renamedChunk 4).strip.dump.toOption.isSome = true := by decide +kernel
  have hdumped : (renamedChunk 4).dump.toOption.isSome = true := by decide +kernel
  obtain ⟨hforgets, -, hstripLoaded, hloaded, -⟩ := strip_forgets_debug (renamedChunk 4)
  obtain ⟨-, -, -, -, hwide⟩ := strip_forgets_debug (renamedChunk 8)
  refine ⟨hsame, (hforgets textsChunk).2 hsame, ?_, ?_, hwide rfl⟩
  · cases h : (renamedChunk 4).strip.dump with
    | error e => simp [h, Except.toOption] at hstripped
    | ok data => exact ⟨data, rfl, hstripLoaded data h (renamedChunk_strip_fits 4)⟩
  · cases h : (renamedChunk 4).dump with
    | error e => simp [h, Except.toOption] at hdumped
    | ok data => exact ⟨data, rfl, hloaded data h (renamedChunk_fits 4)⟩

end Chunk

end LuaBytecode
