import LuaBytecode.Command.Job
import LuaBytecode.Command.World
import LuaBytecode.Proofs.Cache
import LuaBytecode.Proofs.Chunk.Listed
import LuaBytecode.Proofs.Generator.Tree
import Mathlib.Data.Set.Function

namespace LuaBytecode

open Chunk Prototype

variable {c c' : Chunk} {chunks : List Chunk} {l : Layout} {f : Prototype}
  {cache : Option Database} {input : Input}

def Job.compiled (j : Job) (name data : Bytes) : Except SourceError Chunk :=
  (compile (j.chunkName name) data).map fun c => { c with header := j.header }

/-- A chunk or, in its place, what its binary form is loaded as. -/
def Chunk.Served (c c' : Chunk) : Prop := c' = c ∨ c.ReloadsAs c'

lemma compile_main {source : ChunkName} {src : Bytes} (h : compile source src = .ok c) :
    ∃ main, c.main = some main ∧ main.source = source ∧ main.form = none ∧ main.AllVerified := by
  simp only [compile, Except.bind_eq_ok, Except.mapError_eq_ok] at h
  obtain ⟨tree, -, hg⟩ := h
  exact generate_main hg

def Agree {α : Type} (r : α → α → Prop) : Except CommandError α → Except CommandError α → Prop
  | .ok a, .ok b => r a b
  | .error e, .error e' => e' = e
  | _, _ => False

lemma Agree.rfl {α : Type} {r : α → α → Prop} (h : ∀ a, r a a) {x : Except CommandError α} :
    Agree r x x := by
  cases x with
  | ok a => exact h a
  | error e => exact Eq.refl e

lemma Agree.bind {α β : Type} {r : α → α → Prop} {q : β → β → Prop}
    {x y : Except CommandError α} {f g : α → Except CommandError β} (h : Agree r x y)
    (hf : ∀ a b, r a b → Agree q (f a) (g b)) : Agree q (x.bind f) (y.bind g) := by
  cases x <;> cases y
  · exact h
  · exact h.elim
  · exact h.elim
  · exact hf _ _ h

namespace Job

variable {j : Job} {chunks' : List Chunk}

lemma compiled_eq_ok {name data : Bytes} (h : j.compiled name data = .ok c) :
    c.header = j.header ∧ ∃ main, c.main = some main ∧ main.source = j.chunkName name ∧
      main.AllVerified := by
  cases hc : compile (j.chunkName name) data with
  | error e => simp [compiled, hc, Except.map] at h
  | ok c0 =>
    obtain ⟨main, hm, hs, -, hv⟩ := compile_main hc
    simp only [compiled, hc, Except.map, Except.ok.injEq] at h
    subst h
    exact ⟨rfl, main, hm, hs, hv⟩

lemma chunkName_ne_nil (name : Bytes) : j.chunkName name ≠ [] := by
  rw [chunkName]
  split
  · assumption
  · split
    · decide
    · simp [ChunkName.ofFile]

lemma chunkName_ne_combined (h : j.source = []) (name : Bytes) :
    j.chunkName name ≠ combinedName := by
  rw [chunkName, if_neg (not_not.mpr h)]
  split
  · decide
  · simp [ChunkName.ofFile, combinedName, ChunkName.ofDescription, byte]

def ShowsTexts (j : Job) : Prop := j.stripDebug = true ∨ 0 < j.listing

structure Keeps (j : Job) (c : Chunk) : Prop where
  texts : j.ShowsTexts → ∀ main ∈ c.main, main.AllTextsBelow j.header.textLimit
  floats : 0 < j.listing → ∀ main ∈ c.main, main.KeepsFloats j.header.numberWidth

def Serves (j : Job) (c c' : Chunk) : Prop :=
  c' = c ∨ ∃ name data, j.compiled name data = .ok c ∧ c.ReloadsAs c' ∧ j.Keeps c

lemma fits (hl : j.header.layout = .ok l) (ht : f.AllTextsBelow j.header.textLimit)
    (hv : f.AllVerified) : f.Fits (l.sizeT.words - 1) := by
  rw [← l.textLimit_header, Header.header_layout hl]
  exact Prototype.fits_iff.mpr fun path g hg => ⟨ht path g hg, (hv path g hg).2.1⟩

lemma bytecode_congr (h : c'.dump = c.dump)
    (hst : j.stripDebug = true → c'.strip.dump = c.strip.dump) : j.bytecode c' = j.bytecode c := by
  simp only [bytecode]
  split
  · rfl
  · split
    · next hs => rw [hst hs]
    · rw [h]

/-- A function in whose place the other is written and listed in the same way. -/
structure Replaces (j : Job) (f f' : Prototype) : Prop where
  upvalues : f'.upvalues.length = f.upvalues.length
  exported : 0 < j.listing → f'.exported = f.exported
  written : ∀ l, j.header.layout = .ok l → l.writeFunction [] f' = l.writeFunction [] f ∧
    (j.source = [] → l.writeFunction combinedName f' = l.writeFunction combinedName f) ∧
    (j.stripDebug = true → l.writeFunction [] f'.strip = l.writeFunction [] f.strip)

lemma Serves.cases (h : j.Serves c c') : c' = c ∨ ∃ n f f', c = ⟨j.header, n, some f⟩ ∧
    c' = ⟨j.header, n, some f'⟩ ∧ j.Replaces f f' := by
  refine h.imp_right ?_
  rintro ⟨name, data, hc, hre, hk⟩
  obtain ⟨hh, f, hf, hn, hv⟩ := compiled_eq_ok hc
  obtain ⟨l, main, f', hl, hm, rfl, hr, hle⟩ := hre.reloads
  cases hm.symm.trans hf
  rw [hh] at hl ⊢
  have hs : f.source ≠ [] := hn ▸ chunkName_ne_nil name
  have hfi : j.ShowsTexts → f.Fits (l.sizeT.words - 1) := fun ht => fits hl (hk.texts ht f hm) hv
  refine ⟨c.upvalueCount, f, f', by rw [← hh, ← hm], rfl, hle, fun hli => ?_, fun l' hl' => ?_⟩
  · have hnu : l.number = j.header.numberWidth := by
      rw [← Header.header_layout hl, Layout.numberWidth_header]
    rw [hr.exported (hfi (.inr hli)), hnu,
      recovered_eq_exported f [] (hv.source_ne hs) (hk.floats hli f hm)]
  · cases hl.symm.trans hl'
    exact ⟨hr.writeFunction_eq, fun hso =>
      hr.writeFunction_named hs (hn ▸ chunkName_ne_combined hso name), fun hst =>
      hr.writeFunction_strip (hfi (.inl hst)) []⟩

lemma bytecode_callAll {fs fs' : List Prototype} (hso : j.source = [])
    (h : List.Forall₂ j.Replaces fs fs') {main : Prototype} (hm : callAll fs = .ok main) :
    j.bytecode ⟨j.header, 1, some { main with functions := fs' }⟩ =
      j.bytecode ⟨j.header, 1, some main⟩ := by
  obtain ⟨rfl, hna⟩ := callAll_eq_ok hm
  have hle := h.length_eq.symm
  refine bytecode_congr (dump_congr rfl fun l hl => ?_) ?_
  · refine l.writeFunction_functions hle (l.writeFunctions_congr ?_)
    rw [hna]
    exact h.imp fun _ _ hf => (hf.written l hl).2.1 hso
  · intro hs
    refine dump_congr ?_ fun l hl => ?_
    · rw [length_upvalues_strip, length_upvalues_strip]
    · refine l.writeFunction_functions_strip hle (l.writeFunctions_strip_congr ?_)
      exact h.imp fun _ _ hf => (hf.written l hl).2.2 hs

lemma combine_several (h : chunks.length ≠ 1) :
    j.combine chunks = ((Chunk.callAll (chunks.filterMap (·.main))).mapError .combine).map
      fun main => ⟨j.header, 1, some main⟩ := by
  have hc : Chunk.combine chunks =
      (do return ⟨.default, 1, some (← Chunk.callAll (chunks.filterMap (·.main)))⟩) := by
    match chunks, h with
    | [], _ => rfl
    | _ :: _ :: _, _ => rfl
  rw [combine, hc]
  cases Chunk.callAll (chunks.filterMap (·.main)) <;> rfl

lemma replaces_mains (hs : List.Forall₂ j.Serves chunks chunks') :
    List.Forall₂ j.Replaces (chunks.filterMap (·.main)) (chunks'.filterMap (·.main)) := by
  refine List.rel_filterMap (fun c c' hc => ?_) hs
  rcases hc.cases with rfl | ⟨n, f, f', rfl, rfl, hr⟩
  · cases c'.main with
    | none => exact .none
    | some f => exact .some ⟨rfl, fun _ => rfl, fun _ _ => ⟨rfl, fun _ => rfl, fun _ => rfl⟩⟩
  · exact .some hr

lemma exported_replaced {fs fs' : List Prototype} (h : List.Forall₂ j.Replaces fs fs')
    (hl : 0 < j.listing) : exportedAll fs' = exportedAll fs := by
  induction h with
  | nil => rfl
  | cons hf _ ih => simp only [exportedAll, hf.exported hl, ih]

lemma listingOf_congr {c c' : Chunk} (h : 0 < j.listing →
    c'.main.map Prototype.exported = c.main.map Prototype.exported) :
    j.listingOf c' = j.listingOf c := by
  unfold listingOf
  split
  · next hl =>
    have hm := h hl
    unfold Chunk.listing?
    cases hf : c.main <;> cases hf' : c'.main <;> simp only [hf, hf', Option.map_some,
      Option.map_none, reduceCtorEq, Option.some.injEq] at hm ⊢
    exact listing_congr hm _
  · rfl

lemma shown_serves (hso : j.source = [] ∨ chunks.length = 1)
    (hs : List.Forall₂ j.Serves chunks chunks') :
    Agree (fun c c' => j.listingOf c' = j.listingOf c ∧ j.bytecode c' = j.bytecode c)
      (j.combine chunks) (j.combine chunks') := by
  by_cases ho : chunks.length = 1
  · obtain ⟨c, rfl⟩ := List.length_eq_one_iff.mp ho
    obtain ⟨c', _, hc, hn, rfl⟩ := List.forall₂_cons_left_iff.mp hs
    cases hn
    rcases hc.cases with rfl | ⟨n, f, f', rfl, rfl, hr⟩
    · exact ⟨rfl, rfl⟩
    refine ⟨listingOf_congr fun hl => congrArg some (hr.exported hl),
      bytecode_congr (dump_congr hr.upvalues fun l hl => (hr.written l hl).1) fun hs => ?_⟩
    refine dump_congr ?_ fun l hl => (hr.written l hl).2.2 hs
    rw [length_upvalues_strip, length_upvalues_strip, hr.upvalues]
  · have hr := replaces_mains hs
    rw [combine_several ho, combine_several (hs.length_eq ▸ ho), callAll_congr hr.length_eq.symm]
    cases hm : callAll (chunks.filterMap (·.main)) with
    | error fault => rfl
    | ok main =>
      refine ⟨listingOf_congr fun hl => ?_, bytecode_callAll (hso.resolve_right ho) hr hm⟩
      obtain ⟨hf, -⟩ := callAll_eq_ok hm
      simp only [Option.map_some, exported_eq main, exported_eq
        { main with functions := _ }, hf, exported_replaced hr hl]

lemma bytecode_serves (hso : j.source = [] ∨ chunks.length = 1)
    (hs : List.Forall₂ j.Serves chunks chunks') :
    (j.combine chunks' >>= j.bytecode) = (j.combine chunks >>= j.bytecode) := by
  have h := shown_serves hso hs
  revert h
  cases j.combine chunks <;> cases j.combine chunks' <;> intro h
  · exact congrArg _ h
  · exact h.elim
  · exact h.elim
  · exact h.2

/-- The cache does not change what is written. A text of a replaced chunk that is too long for its
length field is not read back as it was, which shows once debug information is removed. -/
theorem bytecode_cached {inputs : List (Bytes × Bytes)} {chunks chunks' : List Chunk}
    (hsource : j.source = [] ∨ inputs.length = 1)
    (hcompiled : List.Forall₂ (fun input c => j.compiled input.1 input.2 = .ok c) inputs chunks)
    (hserved : List.Forall₂ Chunk.Served chunks chunks')
    (htexts : j.stripDebug = true → ∀ p ∈ chunks.zip chunks', p.2 ≠ p.1 → ∀ main ∈ p.1.main,
      main.AllTextsBelow j.header.textLimit) :
    (j.combine chunks' >>= j.bytecode) = (j.combine chunks >>= j.bytecode) := by
  -- Nothing is listed here, so texts are seen only without debug information.
  let k : Job := { j with listing := 0 }
  have hunlisted : ¬0 < k.listing := Int64.lt_irrefl (a := 0)
  have hserves : List.Forall₂ k.Serves chunks chunks' := by
    clear hsource
    induction hcompiled generalizing chunks' with
    | nil =>
      cases hserved
      exact .nil
    | @cons _ c _ _ hc _ ih =>
      obtain ⟨c', rest, hc', hrest, rfl⟩ := List.forall₂_cons_left_iff.mp hserved
      refine .cons (or_iff_not_imp_left.mpr fun hne => ?_) (ih hrest fun hs p hp => ?_)
      · have hkeeps : k.Keeps c := by
          refine ⟨fun hs => ?_, fun hl => absurd hl hunlisted⟩
          exact htexts (hs.resolve_right hunlisted) (c, c') (by simp) hne
        exact ⟨_, _, hc, hc'.resolve_left hne, hkeeps⟩
      · exact htexts hs p (by simp [hp])
  rw [hcompiled.length_eq] at hsource
  exact bytecode_serves (j := k) hsource hserves

def narrowJob : Job where
  source := []
  undump := false
  header := ⟨0x53, 0, 4, 4, 4, 8, 4, some .big⟩
  listing := 0
  rawPC := false
  parseOnly := false
  stripDebug := true

def closureText : Bytes := "local a = ... return function() return a end"

def varargText : Bytes := "local b return b, ..."

def shallowBelow (limit : Nat) (c : Chunk) : Bool :=
  let below (f : Prototype) : Bool := f.texts.all (·.length < limit)
  c.main.all fun main => below main && main.functions.all fun g => below g && g.functions.isEmpty

lemma allTextsBelow_of_shallow {limit : Nat} (h : shallowBelow limit c = true) {main : Prototype}
    (hm : main ∈ c.main) : main.AllTextsBelow limit := by
  simp only [shallowBelow, Option.all_eq_true, Bool.and_eq_true, List.all_eq_true,
    decide_eq_true_eq, List.isEmpty_iff] at h
  obtain ⟨ho, hn⟩ := h main hm
  refine forall_nested.mpr ⟨ho, fun g hg => forall_nested.mpr ⟨(hn g hg).1, fun g' hg' => ?_⟩⟩
  rw [(hn g hg).2] at hg'
  cases hg'

def reloadable (j : Job) (name data : Bytes) : Bool := (j.compiled name data).toOption.any fun c =>
    shallowBelow j.header.textLimit c && c.main.any (·.form.isNone) &&
      c.dump.toOption.any fun bytes => (Chunk.undump bytes).toOption.any fun c' =>
        c'.main.all (·.form.isSome)

lemma toOption_eq_some {ε α : Type} {x : Except ε α} {a : α} : x.toOption = some a ↔ x = .ok a := by
  cases x <;> simp [Except.toOption]

lemma exists_reloaded {name data : Bytes} (h : j.reloadable name data = true) : ∃ c c',
    j.compiled name data = .ok c ∧ c.ReloadsAs c' ∧ c' ≠ c ∧
      ∀ main ∈ c.main, main.AllTextsBelow j.header.textLimit := by
  simp only [reloadable, Option.any_eq_true, Bool.and_eq_true, toOption_eq_some] at h
  obtain ⟨c, hc, ⟨ht, f, hf, hn⟩, bytes, hb, c', hc', hs⟩ := h
  refine ⟨c, c', hc, ⟨bytes, hb, hc'⟩, ?_, fun main hm =>
    allTextsBelow_of_shallow ht hm⟩
  rintro rfl
  simp [hf, Option.isNone_iff_eq_none.mp hn] at hs

theorem bytecode_cached_closures : ∃ c₁ c₂ c',
    narrowJob.compiled (.ofString "a.lua") closureText = .ok c₁ ∧
    narrowJob.compiled standardName varargText = .ok c₂ ∧ c₁.ReloadsAs c' ∧ c' ≠ c₁ ∧
    (narrowJob.combine [c', c₂] >>= narrowJob.bytecode) =
      (narrowJob.combine [c₁, c₂] >>= narrowJob.bytecode) := by
  have hfile : narrowJob.reloadable (.ofString "a.lua") closureText = true := by decide +kernel
  have hinput : narrowJob.reloadable standardName varargText = true := by decide +kernel
  obtain ⟨c₁, c', h1, hreload, hne, htexts⟩ := exists_reloaded hfile
  obtain ⟨c₂, -, h2, -⟩ := exists_reloaded hinput
  refine ⟨c₁, c₂, c', h1, h2, hreload, hne, ?_⟩
  have hcompiled : List.Forall₂ (fun input c => narrowJob.compiled input.1 input.2 = .ok c)
      [(.ofString "a.lua", closureText), (standardName, varargText)] [c₁, c₂] :=
    .cons h1 (.cons h2 .nil)
  exact bytecode_cached (.inl rfl) hcompiled (.cons (.inr hreload) (.cons (.inl rfl) .nil))
    (by simpa using fun _ _ => htexts)

end Job

namespace Cache

def Stores (known : Set Bytes) (k : Key) (bytecode : Bytes) : Prop :=
  ∃ name header source chunk, keyText name header source ∈ known ∧
    k = .ofSource name header source ∧
      (compile name source).map (fun c => { c with header := header }) = .ok chunk ∧
      chunk.dump = .ok bytecode

def LeftBy (known : Set Bytes) (c : Cache) : Prop :=
  ∀ k e, c.find? k = some e → Stores known k e.bytecode

variable {known : Set Bytes} {c : Cache}

lemma leftBy_empty : empty.LeftBy known := by
  intro k e h
  cases h

lemma LeftBy.put (h : c.LeftBy known) {key : Key} {bytecode : Bytes}
    (hs : Stores known key bytecode) (now : Int) : (c.put key bytecode now).LeftBy known := by
  intro k e he
  rw [find?_put] at he
  split at he
  · next hk =>
    cases he
    exact hk ▸ hs
  · exact h k e he

lemma LeftBy.get (h : c.LeftBy known) (key : Key) (now : Int) : (c.get key now).2.LeftBy known := by
  intro k e he
  rw [find?_get] at he
  split at he
  · next hk =>
    obtain ⟨e', he', rfl⟩ := Option.map_eq_some_iff.mp he
    exact hk ▸ h key e' he'
  · exact h k e he

lemma LeftBy.prune (h : c.LeftBy known) (before : Int) : (c.prune before).2.LeftBy known := by
  intro k e he
  rw [find?_prune] at he
  exact h k e (Option.eq_some_of_filter_eq_some he)

end Cache

namespace Database

variable {known : Set Bytes} {d : Database}

def LeftBy (known : Set Bytes) : Database → Prop
  | .usable c => c.LeftBy known
  | .broken => True

lemma LeftBy.put (h : d.LeftBy known) {key : Cache.Key} {bytecode : Bytes}
    (hs : Cache.Stores known key bytecode) (now : Int) : (d.put key bytecode now).LeftBy known := by
  cases d with
  | usable c => exact Cache.LeftBy.put h hs now
  | broken => trivial

lemma LeftBy.get (h : d.LeftBy known) (k : Cache.Key) (now : Int) :
    (d.get k now).2.LeftBy known := by
  cases d with
  | usable c => exact Cache.LeftBy.get h k now
  | broken => trivial

/-- Only a usable database finds anything. -/
lemma get_eq_some {k : Cache.Key} {now : Int} {bytecode : Bytes}
    (h : (d.get k now).1 = some bytecode) :
    ∃ c e, d = .usable c ∧ c.find? k = some e ∧ e.bytecode = bytecode := by
  cases d with
  | broken => cases h
  | usable c =>
    simp only [get, Cache.get] at h
    split at h
    · next e he =>
      cases h
      exact ⟨c, e, rfl, he, rfl⟩
    · cases h

end Database

namespace Job

open Cache

variable {j : Job} {known : Set Bytes} {d : Database} {now : Int} {inputs : List Input}
  {name data : Bytes}

def keyTexts (j : Job) (inputs : List Input) : Set Bytes :=
  { text | ∃ input ∈ inputs, ∃ data, input.content = .ok data ∧
    text = keyText (j.chunkName input.name) j.header data }

def Writable (j : Job) (inputs : List Input) : Prop :=
  ∀ input ∈ inputs, ∀ data, input.content = .ok data → ∀ chunk,
    j.compiled input.name data = .ok chunk → (∃ bytecode, chunk.dump = .ok bytecode) ∧ j.Keeps chunk

lemma compileInto_leftBy (h : d.LeftBy known)
    (hm : keyText (j.chunkName name) j.header data ∈ known) :
    ∃ d', (j.compileInto now (some d) name data).2 = some d' ∧ d'.LeftBy known := by
  unfold compileInto
  cases hc : compile (j.chunkName name) data with
  | error e => exact ⟨d, rfl, h⟩
  | ok chunk =>
    cases hd : Chunk.dump { chunk with header := j.header } with
    | error e => exact ⟨d, by simp [hd], h⟩
    | ok bytecode =>
      refine ⟨_, by simp [hd], h.put ⟨_, _, _, _, hm, rfl, ?_, hd⟩ now⟩
      rw [hc]
      rfl

lemma load_leftBy (h : d.LeftBy known) (hs : j.keyTexts [input] ⊆ known) :
    ∃ d', (j.load now (some d) input).2 = some d' ∧ d'.LeftBy known := by
  unfold load
  cases hd : input.content with
  | error e => exact ⟨d, rfl, h⟩
  | ok data =>
    have hm : keyText (j.chunkName input.name) j.header data ∈ known :=
      hs ⟨input, by simp, data, hd, rfl⟩
    have hg := h.get (.ofSource (j.chunkName input.name) j.header data) now
    simp only
    split
    · exact ⟨d, rfl, h⟩
    · split
      · next chunk cache heq =>
        obtain rfl := (Prod.ext_iff.mp heq).2
        exact ⟨_, rfl, hg⟩
      · next cache heq =>
        obtain rfl := (Prod.ext_iff.mp heq).2
        exact compileInto_leftBy hg hm

lemma loadAll_cons_fst (cache : Option Database) (input : Input) (rest : List Input) :
    (j.loadAll now cache (input :: rest)).1 = (j.load now cache input).1.bind fun chunk =>
        (j.loadAll now (j.load now cache input).2 rest).1.bind fun chunks =>
          .ok (chunk :: chunks) := by
  simp only [loadAll]
  rcases j.load now cache input with ⟨_ | chunk, cache'⟩
  · rfl
  · simp only
    rcases j.loadAll now cache' rest with ⟨_ | chunks, cache''⟩ <;> rfl

lemma loadAll_cons_snd (cache : Option Database) (input : Input) (rest : List Input) :
    (j.loadAll now cache (input :: rest)).2 =
      if (j.load now cache input).1.isOk then (j.loadAll now (j.load now cache input).2 rest).2
      else (j.load now cache input).2 := by
  simp only [loadAll]
  rcases j.load now cache input with ⟨_ | chunk, cache'⟩
  · rfl
  · simp only
    rcases j.loadAll now cache' rest with ⟨_ | chunks, cache''⟩ <;> rfl

lemma keyTexts_cons (input : Input) (rest : List Input) :
    j.keyTexts (input :: rest) = j.keyTexts [input] ∪ j.keyTexts rest := by
  ext text
  simp [keyTexts]

lemma loadAll_leftBy (now : Int) (h : d.LeftBy known) (hs : j.keyTexts inputs ⊆ known) :
    ∃ d', (j.loadAll now (some d) inputs).2 = some d' ∧ d'.LeftBy known := by
  induction inputs generalizing d with
  | nil => exact ⟨d, rfl, h⟩
  | cons input rest ih =>
    rw [keyTexts_cons, Set.union_subset_iff] at hs
    obtain ⟨d', hd', hl⟩ : ∃ d', (j.load now (some d) input).2 = some d' ∧ d'.LeftBy known :=
      load_leftBy h hs.1
    rw [loadAll_cons_snd, hd']
    split
    · exact ih hl hs.2
    · exact ⟨d', rfl, hl⟩

lemma cached_reloads (h : d.LeftBy known) (hi : Set.InjOn sha256 known)
    (hm : keyText (j.chunkName name) j.header data ∈ known) {chunk' : Chunk}
    (hg : (j.cached now name data (some d)).1 = some chunk') :
    ∃ chunk, j.compiled name data = .ok chunk ∧ chunk.ReloadsAs chunk' := by
  simp only [cached, Option.bind_eq_some_iff] at hg
  obtain ⟨bytecode, hb, hu⟩ := hg
  obtain ⟨c, e, rfl, he, rfl⟩ := Database.get_eq_some hb
  obtain ⟨name', header, source, chunk, hm', hk, hc, hd⟩ := h _ e he
  obtain ⟨rfl, rfl, rfl⟩ := keyText_inj (hi hm hm' hk)
  exact ⟨chunk, hc, e.bytecode, hd, toOption_eq_some.mp hu⟩

lemma compileInto_none (name data : Bytes) :
    (j.compileInto now none name data).1 = (j.compiled name data).mapError .source := by
  unfold compileInto compiled
  cases compile (j.chunkName name) data <;> rfl

lemma compileInto_some
    (h : ∀ chunk, j.compiled name data = .ok chunk → ∃ bytecode, chunk.dump = .ok bytecode)
    (d : Database) :
    (j.compileInto now (some d) name data).1 = (j.compiled name data).mapError .source := by
  unfold compileInto compiled at *
  cases hc : compile (j.chunkName name) data with
  | error e => rfl
  | ok chunk =>
    obtain ⟨bytecode, hd⟩ := h { chunk with header := j.header } (by rw [hc]; rfl)
    simp only [hd]
    rfl

lemma load_none_snd (input : Input) : (j.load now none input).2 = none := by
  unfold load compileInto cached
  cases input.content with
  | error e => rfl
  | ok data =>
    simp only
    split
    · rfl
    · cases compile (j.chunkName input.name) data <;> rfl

lemma loadAll_none_snd (inputs : List Input) : (j.loadAll now none inputs).2 = none := by
  induction inputs with
  | nil => rfl
  | cons input rest ih =>
    rw [loadAll_cons_snd, load_none_snd, ih]
    exact ite_self none

lemma load_agrees (h : d.LeftBy known) (hi : Set.InjOn sha256 known)
    (hs : j.keyTexts [input] ⊆ known) (hw : j.Writable [input]) :
    Agree j.Serves (j.load now none input).1 (j.load now (some d) input).1 := by
  unfold load
  cases hd : input.content with
  | error e => trivial
  | ok data =>
    simp only
    split
    · exact .rfl fun _ => .inl rfl
    · have hm : keyText (j.chunkName input.name) j.header data ∈ known :=
        hs ⟨input, by simp, data, hd, rfl⟩
      have hn : j.cached now input.name data none = (none, none) := rfl
      simp only [hn, compileInto_none]
      split
      · next chunk' cache heq =>
        obtain ⟨chunk, hch, hr⟩ := cached_reloads h hi hm (congrArg Prod.fst heq)
        rw [hch]
        exact .inr ⟨input.name, data, hch, hr, (hw input (by simp) data hd chunk hch).2⟩
      · next cache heq =>
        obtain ⟨d', rfl⟩ : ∃ d', cache = some d' := ⟨_, (congrArg Prod.snd heq).symm⟩
        rw [compileInto_some fun chunk hc => (hw input (by simp) data hd chunk hc).1]
        exact .rfl fun _ => .inl rfl

lemma loadAll_agrees (h : d.LeftBy known) (hin : Set.InjOn sha256 known)
    (hs : j.keyTexts inputs ⊆ known) (hw : j.Writable inputs) :
    Agree (List.Forall₂ j.Serves) (j.loadAll now none inputs).1
      (j.loadAll now (some d) inputs).1 := by
  induction inputs generalizing d with
  | nil => exact .nil
  | cons input rest ih =>
    rw [keyTexts_cons, Set.union_subset_iff] at hs
    have hlo : Agree j.Serves (j.load now none input).1 (j.load now (some d) input).1 :=
      load_agrees h hin hs.1 fun i hi => hw i (by simp_all)
    obtain ⟨d', hd', hl⟩ : ∃ d', (j.load now (some d) input).2 = some d' ∧ d'.LeftBy known :=
      load_leftBy h hs.1
    have hr := ih hl hs.2 fun i hi => hw i (by simp [hi])
    rw [loadAll_cons_fst, loadAll_cons_fst, hd', load_none_snd]
    exact hlo.bind fun _ _ hch => hr.bind fun _ _ hc => .cons hch hc

lemma length_loadAll (h : (j.loadAll now cache inputs).1 = .ok chunks) :
    chunks.length = inputs.length := by
  induction inputs generalizing cache chunks with
  | nil =>
    cases h
    rfl
  | cons input rest ih =>
    rw [loadAll_cons_fst] at h
    obtain ⟨chunk, -, h⟩ := Except.bind_eq_ok.mp h
    obtain ⟨chunks', hr, ⟨⟩⟩ := Except.bind_eq_ok.mp h
    rw [List.length_cons, List.length_cons, ih hr]

end Job

def FileTarget.accepts : Except FileFault FileTarget → Bool
  | .ok (.file ..) | .ok (.vacant _) | .ok .nullDevice => true
  | .ok (.directory _) | .error _ => false

namespace FileTree

variable {t t' : FileTree} {known : Set Bytes} {content : FileContent} {path : Bytes}

def accepts (t : FileTree) (path : Bytes) : Bool :=
  path.getLast? ≠ some Path.slash && FileTarget.accepts (t.find (trimmed path))

lemma write_eq_ok_iff : (∃ t', t.write path content = .ok t') ↔ t.accepts path = true := by
  unfold write accepts
  cases t.find (trimmed path) with
  | error fault => simp [FileTarget.accepts]
  | ok target => cases target <;> by_cases h : path.getLast? = some Path.slash <;>
      simp [FileTarget.accepts, h]

lemma write_eq_ok (h : t.write path content = .ok t') :
    t' = t ∨ ∃ place, t' = t.put place content ∧ (t.find (trimmed path) = .ok (.vacant place) ∨
        ∃ before, t.find (trimmed path) = .ok (.file place before)) := by
  unfold write at h
  cases hf : t.find (trimmed path) with
  | error fault => simp [hf] at h
  | ok target =>
    by_cases hs : path.getLast? = some Path.slash
    · simp [hf, hs] at h
    · cases target <;> simp_all

lemma isDirectory_of_walk {base parts : List Bytes} (hb : ∀ q, q <+: base → t.isDirectory q = true)
    {place : List Bytes} (h : t.walk base parts = .ok (.vacant place) ∨
      ∃ before, t.walk base parts = .ok (.file place before)) {q : List Bytes} (hq : q <+: place)
    (hne : q ≠ place) : t.isDirectory q = true := by
  fun_induction t.walk base parts with
  | case2 base part rest _ ih => exact ih hb h
  | case4 base rest _ _ ih => exact ih (fun q hq => hb q (hq.trans base.dropLast_prefix)) h
  | case5 base part rest _ _ path hd ih =>
    refine ih (fun q hq => ?_) h
    rcases List.prefix_concat_iff.mp hq with rfl | hq
    · exact hd
    · exact hb q hq
  | case6 base part | case8 base part =>
    obtain rfl : base ++ [part] = place := by simpa using h
    exact hb q ((List.prefix_concat_iff.mp hq).resolve_left hne)
  | _ => simp at h

lemma isDirectory_put {place : List Bytes}
    (h : ∀ q, q <+: place → q ≠ place → t.isDirectory q = true) (q : List Bytes) :
    (t.put place content).isDirectory q = t.isDirectory q := by
  by_cases hq : q <+: place ∧ q ≠ place
  · rw [h q hq.1 hq.2]
    have ht : place.take q.length = q := (List.prefix_iff_eq_take.mp hq.1).symm
    have hl : q.length < place.length := by
      refine lt_of_le_of_ne hq.1.length_le fun heq => hq.2 (hq.1.eq_of_length heq)
    simp [isDirectory, put, ht, hl]
  · have hpl : ¬(q.length < place.length ∧ place.take q.length = q) := by
      rintro ⟨hl, ht⟩
      refine hq ⟨ht ▸ place.take_prefix q.length, ?_⟩
      rintro rfl
      exact lt_irrefl _ hl
    unfold isDirectory put
    congr 1
    rw [Bool.eq_iff_iff]
    simp only [List.any_eq_true, List.mem_cons, List.mem_filter, Prod.exists, Bool.and_eq_true,
      decide_eq_true_eq, beq_iff_eq, bne_iff_ne]
    constructor
    · rintro ⟨p, c, heq | ⟨hm, -⟩, hp⟩
      · cases heq
        exact absurd hp hpl
      · exact ⟨p, c, hm, hp⟩
    · rintro ⟨p, c, hm, hp⟩
      refine ⟨p, c, .inr ⟨hm, ?_⟩, hp⟩
      rintro rfl
      exact hpl hp

lemma isDirectory_write (h : t.write path content = .ok t') (q : List Bytes) :
    t'.isDirectory q = t.isDirectory q := by
  rcases write_eq_ok h with rfl | ⟨place, rfl, hp⟩
  · rfl
  have hw : t.walk [] (Path.parts (trimmed path)) = .ok (.vacant place) ∨
      ∃ before, t.walk [] (Path.parts (trimmed path)) = .ok (.file place before) := by
    unfold find at hp
    split_ifs at hp <;> simp_all
  refine isDirectory_put (fun q hq hne => isDirectory_of_walk ?_ hw hq hne) q
  rintro q hq
  simp [List.prefix_nil.mp hq, isDirectory]

lemma accepts_congr (h : ∀ q, t'.isDirectory q = t.isDirectory q) (path : Bytes) :
    t'.accepts path = t.accepts path := by
  have hw : ∀ parts base,
      FileTarget.accepts (t'.walk base parts) = FileTarget.accepts (t.walk base parts) := by
    intro parts
    induction parts with
    | nil => exact fun _ => rfl
    | cons part rest ih =>
      intro base
      simp only [walk, h]
      split
      · exact ih base
      · split
        · split
          · rfl
          · exact ih _
        · split
          · exact ih _
          · cases List.lookup (base ++ [part]) t'.files <;>
              cases List.lookup (base ++ [part]) t.files <;> by_cases hr : rest = [] <;>
                simp [hr, FileTarget.accepts]
  unfold accepts find
  split_ifs
  · rfl
  · rfl
  · rfl
  · rw [hw]

def CachesLeftBy (known : Set Bytes) (t : FileTree) : Prop :=
  ∀ place c, (place, .cache c) ∈ t.files → c.LeftBy known

lemma CachesLeftBy.write (h : t.CachesLeftBy known)
    (hc : ∀ c, content = .cache c → c.LeftBy known) (hw : t.write path content = .ok t') :
    t'.CachesLeftBy known := by
  rcases write_eq_ok hw with rfl | ⟨place, rfl, -⟩
  · exact h
  · intro p c hm
    rcases List.mem_cons.mp hm with heq | hm
    · exact hc c (Prod.ext_iff.mp heq).2.symm
    · exact h p c (List.mem_filter.mp hm).1

lemma CachesLeftBy.written (h : t.CachesLeftBy known)
    (hc : ∀ c, content = .cache c → c.LeftBy known) (path : Bytes) :
    ((t.write path content).toOption.getD t).CachesLeftBy known := by
  cases hw : t.write path content with
  | error e => exact h
  | ok t' => exact h.write hc hw

lemma files_makeDirectory (h : t.makeDirectory path = .ok t') : t'.files = t.files := by
  unfold makeDirectory at h
  split at h <;> cases h <;> rfl

lemma files_makeDirectories (h : t.makeDirectories path = .ok t') : t'.files = t.files := by
  unfold makeDirectories at h
  generalize path :: Path.parents path = paths at h
  induction paths generalizing t' with
  | nil =>
    cases h
    rfl
  | cons path parents ih =>
    have hmade : (do (← t.makeWithParents parents).makeDirectory path) = .ok t' →
        t'.files = t.files := fun h => by
      obtain ⟨t1, hp, hd⟩ := Except.bind_eq_ok.mp h
      exact (files_makeDirectory hd).trans (ih hp)
    unfold makeWithParents at h
    split at h
    · cases h
      rfl
    · cases h
    · cases h
    · exact hmade h
    · exact hmade h

lemma mem_of_walk {base parts place : List Bytes}
    (h : t.walk base parts = .ok (.file place content)) : (place, content) ∈ t.files := by
  fun_induction t.walk base parts with
  | case6 base part _ _ path _ found hl =>
    obtain ⟨rfl, rfl⟩ : base ++ [part] = place ∧ found = content := by simpa using h
    obtain ⟨before, after, hf, -⟩ := List.lookup_eq_some_iff.mp hl
    simp [hf, path]
  | _ => simp_all

lemma CachesLeftBy.databaseOf (h : t.CachesLeftBy known) (path : Bytes) :
    (World.databaseOf (t.read path)).LeftBy known := by
  cases hr : t.read path with
  | error e =>
    rw [World.databaseOf]
    split
    · exact Cache.leftBy_empty
    · trivial
  | ok content =>
    cases content with
    | bytes data =>
      cases data with
      | nil => exact Cache.leftBy_empty
      | cons _ _ => trivial
    | cache c =>
      obtain ⟨place, hw⟩ : ∃ place, t.walk [] (Path.parts path) = .ok (.file place (.cache c)) := by
        unfold read find at hr
        split_ifs at hr <;> simp_all
        split at hr <;> simp_all
      exact h place c (mem_of_walk hw)

end FileTree

end LuaBytecode
