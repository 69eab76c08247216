import LuaBytecode.Chunk.Listing
import LuaBytecode.Proofs.Chunk.Reloaded
import LuaBytecode.Proofs.Generator.Code

namespace LuaBytecode

namespace Prototype

lemma length_exportedAll (fs : List Prototype) : (exportedAll fs).length = fs.length := by
  induction fs with
  | nil => rfl
  | cons f fs ih => simp only [exportedAll, List.length_cons, ih]

lemma exported_eq (f : Prototype) :
    f.exported = { f with functions := exportedAll f.functions, form := none } := by
  cases f
  rfl

end Prototype

namespace Listing

open Prototype

lemma remark?_exported (f : Prototype) (constants : Array Value) (ownName : Option Bytes)
    (base pc : Nat) (i : Instruction) (next : Option Instruction) :
    Context.remark? ⟨f.exported, constants, ownName, base⟩ pc i next =
      Context.remark? ⟨f, constants, ownName, base⟩ pc i next := by
  cases f
  simp only [Context.remark?, exported, length_exportedAll, upvalueText]
  rfl

lemma rowsFrom_exported (f : Prototype) (constants : Array Value) (ownName : Option Bytes)
    (base pc : Nat) (isArgument : Bool) (code : List Instruction) (lines : List Int64)
    (done : List Bytes) :
    Context.rowsFrom ⟨f.exported, constants, ownName, base⟩ pc isArgument code lines done =
      Context.rowsFrom ⟨f, constants, ownName, base⟩ pc isArgument code lines done := by
  induction code generalizing pc isArgument lines done with
  | nil => cases isArgument <;> rfl
  | cons i rest ih =>
    cases isArgument with
    | true => exact ih (pc + 1) false lines.tail done
    | false =>
      simp only [Context.rowsFrom, Context.row, remark?_exported]
      exact ih _ _ _ _

lemma heading_exported (name : Bytes) (f : Prototype) :
    heading name f.exported = heading name f := by
  rw [exported_eq]
  -- To state the equation of this definition takes long, so it is opened as it is.
  delta heading
  rw [length_exportedAll]
  rfl

lemma tables_exported (name : Bytes) (f : Prototype) : tables name f.exported = tables name f := by
  rw [exported_eq]
  rfl

lemma single_exported (opts : ListingOptions) (ownName : Option Bytes) (f : Prototype) :
    single opts ownName f.exported = single opts ownName f := by
  have hn : topName f.exported = topName f := by
    rw [exported_eq]
    rfl
  have hf : f.exported.code = f.code ∧ f.exported.lineInfo = f.lineInfo ∧
      f.exported.constants = f.constants := by
    rw [exported_eq]
    exact ⟨rfl, rfl, rfl⟩
  simp only [single, Context.code, rowsFrom_exported, hn, hf, heading_exported, tables_exported]

mutual

lemma parts_exported (opts : ListingOptions) : ∀ (ownName : Option Bytes) (f : Prototype),
    parts opts ownName f.exported = parts opts ownName f
  | ownName, ⟨numParams, isVararg, maxStackSize, code, constants, upvalues, functions, source,
      lineDefined, lastLineDefined, lineInfo, localVariables, form⟩ => by
      have hs := single_exported opts ownName ⟨numParams, isVararg, maxStackSize, code, constants,
        upvalues, functions, source, lineDefined, lastLineDefined, lineInfo, localVariables, form⟩
      simp only [exported] at hs
      simp only [exported, parts, hs, partsFrom_exportedAll opts ownName 0 functions]

lemma partsFrom_exportedAll (opts : ListingOptions) : ∀ (ownName : Option Bytes) (i : Nat)
    (fs : List Prototype), partsFrom opts ownName i (exportedAll fs) = partsFrom opts ownName i fs
  | _, _, [] => rfl
  | ownName, i, f :: fs => by
    simp only [exportedAll, partsFrom, parts_exported opts _ f,
      partsFrom_exportedAll opts ownName (i + 1) fs]

end

end Listing

namespace Prototype

lemma listing_congr {f f' : Prototype} (h : f'.exported = f.exported) (opts : ListingOptions) :
    f'.listing opts = f.listing opts := by
  simp only [listing, ← Listing.parts_exported opts none f', h, Listing.parts_exported]

def KeepsFloats (width : Width) (f : Prototype) : Prop :=
  ∀ path g, f.nested? path = some g → ∀ v ∈ g.constants, v.rounded width = v

lemma keepsFloats_eight (f : Prototype) : f.KeepsFloats .eight := by
  intro path g _ v _
  cases v <;> rfl

lemma effectiveSource_of_ne {f : Prototype} {parent : ChunkName} (h : f.source ≠ []) :
    effectiveSource parent f = f.source := by
  simp [effectiveSource, h]

variable {width : Width}

mutual

lemma recovered_eq_exported : ∀ (f : Prototype) (parent : ChunkName),
    (∀ path g, f.nested? path = some g → g.source ≠ []) → f.KeepsFloats width →
    f.recovered width parent = f.exported
  | ⟨_, _, _, _, constants, _, functions, source, _, _, _, _, _⟩, parent, h, hfl => by
    have hs : source ≠ [] := h [] _ rfl
    have hc : constants.map (Value.rounded width) = constants :=
      (List.map_congr_left (hfl [] _ rfl)).trans (List.map_id' constants)
    have ha : ∀ f ∈ functions, (∀ path g, f.nested? path = some g → g.source ≠ []) ∧
        f.KeepsFloats width := by
      exact fun f hf => ⟨(forall_nested.mp h).2 f hf, (forall_nested.mp hfl).2 f hf⟩
    simp only [recovered, exported]
    rw [effectiveSource_of_ne (by exact hs), recoveredAll_eq_exportedAll functions source ha,
      hc]

lemma recoveredAll_eq_exportedAll : ∀ (fs : List Prototype) (parent : ChunkName),
    (∀ f ∈ fs, (∀ path g, f.nested? path = some g → g.source ≠ []) ∧ f.KeepsFloats width) →
    recoveredAll width parent fs = exportedAll fs
  | [], _, _ => rfl
  | f :: fs, parent, h => by
    obtain ⟨hs, hf⟩ := h f (by simp)
    simp only [recoveredAll, exportedAll, recovered_eq_exported f parent hs hf,
      recoveredAll_eq_exportedAll fs parent fun g hg => h g (by simp [hg])]

end

lemma AllVerified.source_ne {f : Prototype} (h : f.AllVerified) (hs : f.source ≠ [])
    (path : List Nat) (g : Prototype) (hg : f.nested? path = some g) : g.source ≠ [] := by
  rw [(h path g hg).2.2]
  exact hs

end Prototype

end LuaBytecode
