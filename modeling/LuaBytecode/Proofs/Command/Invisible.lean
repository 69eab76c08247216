import LuaBytecode.Proofs.Command.CachedOutput

namespace LuaBytecode

open Command

variable {e : CommandError} {t : FileTree} {w' w : World} {j : Job} {o : Options}

def Options.withoutCache (o : Options) : Options := { o with cache := none, noCache := some true }

namespace Command

variable {m : Type → Type} [Monad m]

def loadWith (h : Host m) (o : Options) (s : Settings) (j : Job) (cache : Option Database) :
    ExceptT CommandError m (List Chunk) := do
  let inputs ← (readInputs h o.files : m (List Input))
  let now ← h.now
  let (chunks, cache) := j.loadAll now cache inputs
  if let some (.usable c) := cache then
    h.saveCache s.cacheFile (c.prune (now - maxAge)).2
  chunks

def deliver (h : Host m) (o : Options) (j : Job) (chunks : List Chunk) :
    ExceptT CommandError m Unit := do
  let chunk ← j.combine chunks
  h.print (j.listingOf chunk)
  if let some bytecode := ← j.bytecode chunk then
    write h o.output bytecode

def perform (h : Host m) (o : Options) (s : Settings) (j : Job) : ExceptT CommandError m Unit := do
  if o.ast then
    let inputs ← (readInputs h o.files : m (List Input))
    h.print (← j.trees inputs)
    return
  deliver h o j (← load h o s j)

lemma run_eq (h : Host m) (places : Places) (arguments : List Bytes) : run h places arguments = (do
      let o ← options arguments
      if o.help then
        h.print usage
        return
      let s := o.effective (← settings h places o)
      h.startLog s.debug
      perform h o s (← job o s)) := rfl

end Command

def FileTree.settings (t : FileTree) (places : Places) (o : Options) (processors : Int64 := 1) :
    Except CommandError Settings :=
  (configFiles places o).foldlM
    (fun s path => mergeFile s path ((t.read path).bind (World.bytesOf path)))
    (initialSettings places processors)

def FileTree.inputs (t : FileTree) : Bytes → List Bytes → List Input
  | _, [] => []
  | standard, name :: rest =>
    if name = standardName then ⟨name, .ok standard⟩ :: t.inputs [] rest
    else ⟨name, (t.read name).bind (World.bytesOf name)⟩ :: t.inputs standard rest

namespace World

variable {α β : Type} {s : Settings}

abbrev Action (α : Type) : Type := ExceptT CommandError (StateM World) α

lemma bind_ok {x : Action α} {f : α → Action β} {a : α} (h : x.run.run w = (.ok a, w')) :
    (x >>= f).run.run w = (f a).run.run w' := by
  rw [ExceptT.run_bind, StateT.run_bind, h]
  rfl

lemma bind_error {x : Action α} {f : α → Action β} (h : x.run.run w = (.error e, w')) :
    (x >>= f).run.run w = (.error e, w') := by
  rw [ExceptT.run_bind, StateT.run_bind, h]
  rfl

lemma bind_lift (x : StateM World α) (f : α → Action β) :
    ((liftM x : Action α) >>= f).run.run w = (f (x.run w).1).run.run (x.run w).2 := rfl

lemma bind_except (a : α) (f : α → Action β) :
    ((liftM (Except.ok a : Except CommandError α) : Action α) >>= f).run.run w =
      (f a).run.run w := rfl

lemma settings_run (places : Places) (o : Options) (n : Int64) :
    (settings (host n) places o).run.run w = (w.tree.settings places o n, w) := by
  have hn : (host n).processors.run w = (n, w) := rfl
  rw [settings, FileTree.settings, bind_lift, hn]
  dsimp only
  generalize initialSettings places n = s
  induction configFiles places o generalizing s with
  | nil => rfl
  | cons path rest ih =>
    rw [List.foldlM_cons, List.foldlM_cons]
    cases hm : mergeFile s path ((w.tree.read path).bind (bytesOf path)) with
    | error e => exact bind_error (congrArg (·, w) hm)
    | ok s' => exact (bind_ok (congrArg (·, w) hm)).trans (ih s')

lemma readInputs_cons {name : Bytes} {rest : List Bytes} {i : Input} {is : List Input} {w'' : World}
    (h : (readInput host name).run w = (i, w'))
    (hr : (readInputs host rest).run w' = (is, w'')) :
    (readInputs host (name :: rest)).run w = (i :: is, w'') := by
  rw [readInputs, List.mapM_cons, StateT.run_bind, h]
  exact congrArg (fun p : List Input × World => (i :: p.1, p.2)) hr

lemma readInputs_run (names : List Bytes) :
    (readInputs host names).run w = (w.tree.inputs w.input names,
      { w with input := if standardName ∈ names then [] else w.input }) := by
  induction names generalizing w with
  | nil => rfl
  | cons name rest ih =>
    by_cases hn : name = standardName
    · have hr : (readInput host name).run w = (⟨name, .ok w.input⟩, { w with input := [] }) := by
        rw [readInput, if_pos hn]
        rfl
      rw [readInputs_cons hr ih]
      simp [FileTree.inputs, hn]
    · have hr : (readInput host name).run w =
          (⟨name, (w.tree.read name).bind (bytesOf name)⟩, w) := by
        rw [readInput, if_neg hn]
        rfl
      rw [readInputs_cons hr ih]
      simp [FileTree.inputs, hn, Ne.symm hn]

lemma inputs_congr {t' : FileTree} {names : List Bytes}
    (h : ∀ name ∈ names, t'.read name = t.read name) (standard : Bytes) :
    t'.inputs standard names = t.inputs standard names := by
  induction names generalizing standard with
  | nil => rfl
  | cons name rest ih =>
    have hr := ih fun n hn => h n (by simp [hn])
    simp only [FileTree.inputs, h name (by simp), hr]

lemma length_inputs (t : FileTree) (standard : Bytes) (names : List Bytes) :
    (t.inputs standard names).length = names.length := by
  induction names generalizing standard with
  | nil => rfl
  | cons name rest ih =>
    rw [FileTree.inputs]
    split <;> simp [ih]

def saved (t : FileTree) (path : Bytes) (before : Int) : Option Database → FileTree
  | none | some .broken => t
  | some (.usable c) => (t.write path (.cache (c.prune before).2)).toOption.getD t

lemma now_run : host.now.run w = (w.clock, w) := rfl

lemma saveCache_run (path : Bytes) (before : Int) (c : Cache) :
    (host.saveCache path (c.prune before).2).run w =
      ((), { w with tree := saved w.tree path before (some (.usable c)) }) := by
  show saveCache path (c.prune before).2 w = _
  simp only [saveCache, saved]
  cases w.tree.write path (.cache (c.prune before).2) <;> rfl

lemma loadWith_run (o : Options) (s : Settings) (j : Job) (cache : Option Database) :
    (loadWith host o s j cache).run.run w =
      ((j.loadAll w.clock cache (w.tree.inputs w.input o.files)).1,
        { w with
          tree := saved w.tree s.cacheFile (w.clock - maxAge)
            (j.loadAll w.clock cache (w.tree.inputs w.input o.files)).2
          input := if standardName ∈ o.files then [] else w.input }) := by
  rw [loadWith, bind_lift, readInputs_run, bind_lift, now_run]
  dsimp only
  rcases j.loadAll w.clock cache (w.tree.inputs w.input o.files) with ⟨chunks, _ | c | _⟩
  · rfl
  · dsimp only
    rw [bind_lift, saveCache_run]
    rfl
  · rfl

lemma load_plain (h : usesCache o s = false) (j : Job) : (load host o s j).run.run w =
      ((j.loadAll w.clock none (w.tree.inputs w.input o.files)).1,
        { w with input := if standardName ∈ o.files then [] else w.input }) := by
  have hl : (load host o s j).run.run w = (loadWith host o s j none).run.run w := by
    rw [load, h]
    rfl
  rw [hl, loadWith_run, Job.loadAll_none_snd]
  rfl

lemma load_open (h : usesCache o s = true)
    (ho : w.tree.makeDirectories (Path.directory s.cacheFile) = .ok t) (j : Job) :
    (load host o s j).run.run w =
      ((j.loadAll w.clock (some (databaseOf (t.read s.cacheFile))) (t.inputs w.input o.files)).1,
        { w with
          tree := saved t s.cacheFile (w.clock - maxAge)
            (j.loadAll w.clock (some (databaseOf (t.read s.cacheFile)))
              (t.inputs w.input o.files)).2
          input := if standardName ∈ o.files then [] else w.input }) := by
  have hc : (host.openCache s.cacheFile).run w =
      (.ok (databaseOf (t.read s.cacheFile)), { w with tree := t }) := by
    show openCache s.cacheFile w = _
    simp only [openCache, ho]
  rw [load, h]
  show ((liftM (host.openCache s.cacheFile) : Action _) >>= _).run.run w = _
  rw [bind_lift, hc]
  exact loadWith_run (w := { w with tree := t }) o s j _

lemma load_closed (h : usesCache o s = true) {e : FileError}
    (ho : w.tree.makeDirectories (Path.directory s.cacheFile) = .error e) (j : Job) :
    (load host o s j).run.run w = (.error (.cacheDirectory e), w) := by
  have hc : (host.openCache s.cacheFile).run w = (.error e, w) := by
    show openCache s.cacheFile w = _
    simp only [openCache, ho]
  rw [load, h]
  show ((liftM (host.openCache s.cacheFile) : Action _) >>= _).run.run w = _
  rw [bind_lift, hc]
  rfl

section Deliver

variable {chunks chunks' : List Chunk} {known : Set Bytes} {path bytecode : Bytes} {chunk : Chunk}

def Alike (r r' : Except CommandError Unit × World) : Prop :=
  (r.1 = .ok () ↔ r'.1 = .ok ()) ∧ (r.1 = .ok () → r.2.output = r'.2.output)

lemma Alike.rfl {r : Except CommandError Unit × World} : Alike r r := ⟨.rfl, fun _ => Eq.refl _⟩

lemma alike_error (e e' : CommandError) (w w' : World) : Alike (.error e, w) (.error e', w') := by
  simp [Alike]

lemma bind_alike {α : Type} {r : α → α → Prop} {x x' : Action α} {f f' : α → Action Unit}
    (h : Agree r (x.run.run w).1 (x'.run.run w').1)
    (hf : ∀ a a' v v', x.run.run w = (.ok a, v) → x'.run.run w' = (.ok a', v') → r a a' →
      Alike ((f a).run.run v) ((f' a').run.run v')) :
    Alike ((x >>= f).run.run w) ((x' >>= f').run.run w') := by
  rcases hx : x.run.run w with ⟨e | a, v⟩ <;> rcases hx' : x'.run.run w' with ⟨e' | a', v'⟩ <;>
    rw [hx, hx'] at h
  · rw [bind_error hx, bind_error hx']
    exact alike_error ..
  · exact h.elim
  · exact h.elim
  · rw [bind_ok hx, bind_ok hx']
    exact hf a a' v v' hx hx' h

lemma write_standard (bytecode : Bytes) : (write host standardName bytecode).run.run w =
      (.ok (), { w with output := w.output ++ bytecode }) := rfl

lemma write_run (hp : path ≠ standardName) : (write host path bytecode).run.run w =
    (((w.tree.write path (.bytes bytecode)).map fun _ => ()).mapError .file,
      { w with tree := (w.tree.write path (.bytes bytecode)).toOption.getD w.tree }) := by
  rw [write, if_neg hp]
  show ((liftM (writeFile path bytecode) : Action _) >>= _).run.run w = _
  rw [bind_lift]
  simp only [writeFile, StateT.run]
  cases w.tree.write path (.bytes bytecode) <;> rfl

def printed (w : World) (text : Bytes) : World := { w with output := w.output ++ text }

lemma write_alike (ho : w.output = w'.output) (ha : w.tree.accepts path = w'.tree.accepts path) :
    Alike ((write host path bytecode).run.run w) ((write host path bytecode).run.run w') := by
  by_cases hp : path = standardName
  · subst hp
    rw [write_standard, write_standard]
    exact ⟨Iff.rfl, fun _ => congrArg (· ++ bytecode) ho⟩
  · have hi : (∃ t, w.tree.write path (.bytes bytecode) = .ok t) ↔
        ∃ t, w'.tree.write path (.bytes bytecode) = .ok t := by
      rw [FileTree.write_eq_ok_iff, FileTree.write_eq_ok_iff, ha]
    rw [write_run hp, write_run hp]
    refine ⟨?_, fun _ => ho⟩
    cases hw : w.tree.write path (.bytes bytecode) <;>
      cases hw' : w'.tree.write path (.bytes bytecode) <;> simp_all [Except.map, Except.mapError]

lemma deliver_alike (h : Agree
      (fun c c' => j.listingOf c' = j.listingOf c ∧ j.bytecode c' = j.bytecode c)
      (j.combine chunks) (j.combine chunks'))
    (ho : w.output = w'.output) (ha : w.tree.accepts o.output = w'.tree.accepts o.output) :
    Alike ((deliver host o j chunks).run.run w) ((deliver host o j chunks').run.run w') := by
  refine bind_alike h fun c c' v v' hv hv' hcc => ?_
  obtain ⟨hl, hby⟩ := hcc
  obtain rfl : w = v := congrArg Prod.snd hv
  obtain rfl : w' = v' := congrArg Prod.snd hv'
  have hp : (w.printed (j.listingOf c)).output = (w'.printed (j.listingOf c')).output := by
    simp only [printed, ho, hl]
  have hb : Agree Eq (j.bytecode c) (j.bytecode c') := hby ▸ .rfl fun _ => rfl
  rw [bind_lift, bind_lift]
  refine bind_alike hb fun b b' v v' hv hv' heq => ?_
  obtain rfl := heq
  obtain rfl : w.printed (j.listingOf c) = v := congrArg Prod.snd hv
  obtain rfl : w'.printed (j.listingOf c') = v' := congrArg Prod.snd hv'
  cases b with
  | none => exact ⟨Iff.rfl, fun _ => hp⟩
  | some bytecode => exact write_alike hp ha

lemma caches_bind {α β : Type} {x : Action α} {f : α → Action β}
    (hx : (x.run.run w).2.tree.CachesLeftBy known)
    (hf : ∀ a v, x.run.run w = (.ok a, v) → v.tree.CachesLeftBy known →
      ((f a).run.run v).2.tree.CachesLeftBy known) :
    ((x >>= f).run.run w).2.tree.CachesLeftBy known := by
  rcases hr : x.run.run w with ⟨e | a, v⟩ <;> rw [hr] at hx
  · rw [bind_error hr]
    exact hx
  · rw [bind_ok hr]
    exact hf a v hr hx

lemma caches_write (h : w.tree.CachesLeftBy known) (path bytecode : Bytes) :
    ((write host path bytecode).run.run w).2.tree.CachesLeftBy known := by
  by_cases hp : path = standardName
  · subst hp
    exact h
  · rw [write_run hp]
    exact h.written (by simp) path

lemma caches_deliver (h : w.tree.CachesLeftBy known) :
    ((deliver host o j chunks).run.run w).2.tree.CachesLeftBy known := by
  refine caches_bind h fun c v _ h => caches_bind h fun _ v _ h => caches_bind h fun b v _ h => ?_
  cases b with
  | none => exact h
  | some bytecode => exact caches_write h o.output bytecode

end Deliver

section Perform

variable {known : Set Bytes}

lemma accepts_saved (path output : Bytes) (before : Int) (cache : Option Database) :
    (saved t path before cache).accepts output = t.accepts output := by
  rcases cache with _ | c | _
  · rfl
  · simp only [saved]
    cases hw : t.write path (.cache (c.prune before).2) with
    | error e => rfl
    | ok t' => exact FileTree.accepts_congr (FileTree.isDirectory_write hw) output
  · rfl

lemma caches_saved (h : t.CachesLeftBy known) {d : Database} (hd : d.LeftBy known) (path : Bytes)
    (before : Int) : (saved t path before (some d)).CachesLeftBy known := by
  cases d with
  | broken => exact h
  | usable c =>
    refine h.written (fun c' hc' => ?_) path
    cases hc'
    exact Cache.LeftBy.prune hd before

/-- The cache gets in the way of nothing: its directory can be made, the inputs are still read and
the output can still be written. -/
structure Undisturbed (w : World) (o : Options) (s : Settings) (j : Job) : Prop where
  directory : ∃ t, w.tree.makeDirectories (Path.directory s.cacheFile) = .ok t ∧
    (∀ name ∈ o.files, t.read name = w.tree.read name) ∧
    t.accepts o.output = w.tree.accepts o.output
  writable : j.Writable (w.tree.inputs w.input o.files)

lemma perform_ast (h : o.ast = true) (s s' : Settings) :
    perform host o s j = perform host o.withoutCache s' j := by
  have h' : o.withoutCache.ast = true := h
  rw [perform, perform, if_pos h, if_pos h']
  rfl

lemma perform_run (h : o.ast ≠ true) : (perform host o s j).run.run w =
    (load host o s j >>= deliver host o j).run.run w := by
  rw [perform, if_neg h]

lemma perform_alike (hle : w.tree.CachesLeftBy known) (hi : Set.InjOn sha256 known)
    (ht : ∀ t, w.tree.makeDirectories (Path.directory s.cacheFile) = .ok t →
      j.keyTexts (t.inputs w.input o.files) ⊆ known)
    (hso : j.source = [] ∨ o.files.length = 1)
    (h : usesCache o s = true → w.Undisturbed o s j) :
    Alike ((perform host o.withoutCache { s with cache := false } j).run.run w)
      ((perform host o s j).run.run w) := by
  by_cases hast : o.ast = true
  · rw [perform_ast hast]
    exact .rfl
  have hast' : o.withoutCache.ast ≠ true := hast
  have hp := load_plain (w := w) (o := o.withoutCache) (s := { s with cache := false }) rfl j
  rw [perform_run hast, perform_run hast']
  by_cases hu : usesCache o s = true
  · obtain ⟨⟨t, ho, hr, ha⟩, hw⟩ := h hu
    have hf := FileTree.files_makeDirectories ho
    replace ht := ht t ho
    have ho := load_open hu ho j
    rw [inputs_congr hr] at ho ht
    have hleft : t.CachesLeftBy known := fun place c hm => hle place c (hf ▸ hm)
    refine bind_alike (r := List.Forall₂ j.Serves) ?_ fun chunks chunks' v v' hv hv' hs => ?_
    · rw [hp, ho]
      exact Job.loadAll_agrees (hleft.databaseOf _) hi ht hw
    · rw [hp] at hv
      rw [ho] at hv'
      obtain ⟨hch, rfl⟩ := Prod.ext_iff.mp hv
      obtain ⟨-, rfl⟩ := Prod.ext_iff.mp hv'
      have hl : chunks.length = o.files.length := (Job.length_loadAll hch).trans (length_inputs ..)
      refine deliver_alike (Job.shown_serves (hl ▸ hso) hs) rfl ?_
      exact ((accepts_saved ..).trans ha).symm
  · have hlo := load_plain (w := w) (Bool.not_eq_true _ ▸ hu) j
    have heq : (load host o.withoutCache { s with cache := false } j >>=
        deliver host o j).run.run w = (load host o s j >>= deliver host o j).run.run w := by
      rw [ExceptT.run_bind, ExceptT.run_bind, StateT.run_bind, StateT.run_bind, hp, hlo]
      rfl
    exact heq ▸ .rfl

lemma caches_load (h : w.tree.CachesLeftBy known)
    (hte : ∀ t, w.tree.makeDirectories (Path.directory s.cacheFile) = .ok t →
      j.keyTexts (t.inputs w.input o.files) ⊆ known) :
    ((load host o s j).run.run w).2.tree.CachesLeftBy known := by
  by_cases hu : usesCache o s = true
  · cases ho : w.tree.makeDirectories (Path.directory s.cacheFile) with
    | error e =>
      rw [load_closed hu ho]
      exact h
    | ok t =>
      have hf := FileTree.files_makeDirectories ho
      have ht : t.CachesLeftBy known := fun place c hm => h place c (hf ▸ hm)
      obtain ⟨d, hd, hl⟩ := Job.loadAll_leftBy w.clock (ht.databaseOf s.cacheFile) (hte t ho)
      rw [load_open hu ho, hd]
      exact caches_saved ht hl _ _
  · rw [load_plain (by simpa using hu)]
    exact h

lemma caches_perform (h : w.tree.CachesLeftBy known)
    (ht : ∀ t, w.tree.makeDirectories (Path.directory s.cacheFile) = .ok t →
      j.keyTexts (t.inputs w.input o.files) ⊆ known) :
    ((perform host o s j).run.run w).2.tree.CachesLeftBy known := by
  by_cases hast : o.ast = true
  · rw [perform, if_pos hast, bind_lift, readInputs_run]
    cases j.trees (w.tree.inputs w.input o.files) <;> exact h
  · rw [perform_run hast]
    exact caches_bind (caches_load h ht) fun _ _ _ hv => caches_deliver hv

end Perform

section Run

variable {places : Places} {arguments : List Bytes} {input : Bytes} {known : Set Bytes}

def start (w : World) (input : Bytes) : World := { w with input, output := [], debug := none }

def logged (w : World) (input : Bytes) (s : Settings) : World :=
  { w with input, output := [], debug := some s.debug }

lemma run_refused (h : options arguments = .error e) :
    w.run places arguments input = (.error e, w.start input) := by
  rw [run, run_eq, h]
  rfl

lemma print_run (text : Bytes) :
    ((liftM (host.print text) : Action Unit) >>= fun _ => pure ()).run.run w =
      (.ok (), w.printed text) := rfl

lemma run_help (h : options arguments = .ok o) (hh : o.help = true) :
    w.run places arguments input = (.ok (), (w.start input).printed usage) := by
  rw [run, run_eq, h, bind_except, if_pos hh]
  exact print_run usage

lemma run_unset (h : options arguments = .ok o) (hh : o.help ≠ true)
    (hs : w.tree.settings places o = .error e) :
    w.run places arguments input = (.error e, w.start input) := by
  rw [run, run_eq, h, bind_except, if_neg hh]
  exact bind_error ((settings_run places o 1).trans (congrArg (·, _) hs))

lemma run_settled (h : options arguments = .ok o) (hh : o.help ≠ true)
    (hs : w.tree.settings places o = .ok s) :
    w.run places arguments input = ((liftM (job o (o.effective s)) : Action Job) >>=
      perform host o (o.effective s)).run.run (w.logged input (o.effective s)) := by
  rw [run, run_eq, h, bind_except, if_neg hh]
  exact bind_ok (w := w.start input) ((settings_run places o 1).trans (congrArg (·, _) hs))

def keyTexts (w : World) (places : Places) (arguments : List Bytes) (input : Bytes) : Set Bytes :=
  { text | ∃ o s j t, options arguments = .ok o ∧ w.tree.settings places o = .ok s ∧
    job o (o.effective s) = .ok j ∧
    w.tree.makeDirectories (Path.directory s.cacheFile) = .ok t ∧
    text ∈ j.keyTexts (t.inputs input o.files) }

lemma caches_run (h : w.tree.CachesLeftBy known) (hte : w.keyTexts places arguments input ⊆ known) :
    (w.run places arguments input).2.tree.CachesLeftBy known := by
  cases ho : options arguments with
  | error e =>
    rw [run_refused ho]
    exact h
  | ok o =>
    by_cases hh : o.help = true
    · rw [run_help ho hh]
      exact h
    · cases hs : w.tree.settings places o with
      | error e =>
        rw [run_unset ho hh hs]
        exact h
      | ok s =>
        rw [run_settled ho hh hs]
        cases hj : job o (o.effective s) with
        | error e => exact h
        | ok j =>
          refine caches_perform (w := w.logged input (o.effective s)) h fun t ht text hm => ?_
          exact hte ⟨o, s, j, t, ho, hs, hj, ht, hm⟩

inductive Earlier (known : Set Bytes) : FileTree → Prop
  | fresh {t : FileTree} (h : ∀ place c, (place, .cache c) ∉ t.files) : Earlier known t
  | changed {t t' : FileTree} (h : Earlier known t)
      (hcaches : ∀ place c, (place, .cache c) ∈ t'.files → ∃ place', (place', .cache c) ∈ t.files) :
      Earlier known t'
  | run {w : World} (places : Places) (arguments : List Bytes) (input : Bytes)
      (h : Earlier known w.tree) (htexts : w.keyTexts places arguments input ⊆ known) :
      Earlier known (w.run places arguments input).2.tree

lemma Earlier.cachesLeftBy (h : Earlier known t) : t.CachesLeftBy known := by
  induction h with
  | fresh h => exact fun place c hm => absurd hm (h place c)
  | changed _ hc ih =>
    intro place c hm
    obtain ⟨place', hm'⟩ := hc place c hm
    exact ih place' c hm'
  | run places arguments input _ ht ih => exact caches_run ih ht

lemma job_source (h : job o s = .ok j) : j.source = [] ∨ o.files.length ≤ 1 := by
  simp only [job, Except.bind_eq_ok] at h
  obtain ⟨header, -, h⟩ := h
  split at h
  · cases h
  · next hs =>
    cases h
    simpa [or_iff_not_imp_left] using hs

lemma files_ne_nil (h : options arguments = .ok o) (hh : o.help ≠ true) : o.files ≠ [] := by
  simp only [options, Except.bind_eq_ok] at h
  obtain ⟨o', -, h⟩ := h
  split at h
  · next hh' =>
    cases h
    exact absurd hh' hh
  · split at h
    · cases h
    · next hf =>
      split at h <;> cases h
      exact hf

lemma effective_withoutCache (o : Options) (s : Settings) :
    o.withoutCache.effective s = { o.effective s with cache := false } := rfl

/-- The cache changes neither whether a run succeeds nor what it prints. Chunks that do not fit into
the written form, floats that are rounded there and a directory that cannot be made are excluded. -/
theorem run_withoutCache {plain : List Bytes} (hearlier : Earlier known w.tree)
    (hinj : Set.InjOn sha256 known) (htexts : w.keyTexts places arguments input ⊆ known)
    (ho : Command.options arguments = .ok o) (hplain : Command.options plain = .ok o.withoutCache)
    (h : ∀ s j, w.tree.settings places o = .ok s → Command.job o (o.effective s) = .ok j →
      Command.usesCache o (o.effective s) = true →
        (w.start input).Undisturbed o (o.effective s) j) :
    ((w.run places plain input).1 = .ok () ↔ (w.run places arguments input).1 = .ok ()) ∧
      ((w.run places plain input).1 = .ok () →
        (w.run places plain input).2.output = (w.run places arguments input).2.output) := by
  show Alike _ _
  by_cases hhelp : o.help = true
  · rw [run_help ho hhelp, run_help hplain hhelp]
    exact .rfl
  have hsettings : w.tree.settings places o.withoutCache = w.tree.settings places o := rfl
  cases hs : w.tree.settings places o with
  | error e =>
    rw [run_unset ho hhelp hs, run_unset hplain hhelp (hsettings.trans hs)]
    exact .rfl
  | ok s =>
    rw [run_settled ho hhelp hs, run_settled hplain hhelp (hsettings.trans hs),
      effective_withoutCache]
    have hjob : Command.job o.withoutCache { o.effective s with cache := false } =
      Command.job o (o.effective s) := rfl
    rw [hjob]
    cases hj : Command.job o (o.effective s) with
    | error e => exact alike_error ..
    | ok j =>
      rw [bind_except, bind_except]
      have hsource : j.source = [] ∨ o.files.length = 1 := (job_source hj).imp id fun hle =>
          le_antisymm hle (List.length_pos_iff.mpr (files_ne_nil ho hhelp))
      refine perform_alike (w := w.logged input (o.effective s)) hearlier.cachesLeftBy hinj
        (fun t ht text hmem => htexts ⟨o, s, j, t, ho, hs, hj, ht, hmem⟩) hsource fun huses => ?_
      obtain ⟨hdirectory, hwritable⟩ := h s j hs hj huses
      exact ⟨hdirectory, hwritable⟩

def sourceWorld : World := ⟨⟨[(["a.lua"], .bytes "local a return a")], []⟩, [], [], none, 0⟩

def listArguments : List Bytes := ["-l", "-p", "a.lua"]

def plainArguments : List Bytes := "--no-cache" :: listArguments

def listOptions : Options :=
  { Options.default with listing := some 1, parseOnly := true, files := ["a.lua"] }

def listJob : Job := ⟨[], false, Header.default, 1, false, true, false⟩

def cachePlaces : Places := ⟨[], "cd"⟩

def filledWorld : World := (sourceWorld.run cachePlaces listArguments []).2

lemma options_list : options listArguments = .ok listOptions := rfl

lemma options_plain : options plainArguments = .ok listOptions.withoutCache := rfl

def listSettings : Settings := initialSettings cachePlaces 1

lemma settings_list (t : FileTree) : t.settings cachePlaces listOptions = .ok listSettings := rfl

lemma job_list : job listOptions (listOptions.effective listSettings) = .ok listJob := rfl

lemma directory_list :
    Path.directory (listOptions.effective listSettings).cacheFile = "cd/luac53" := rfl

lemma listJob_eq (t : FileTree) (ho : options listArguments = .ok o)
    (hs : t.settings cachePlaces o = .ok s) (hj : job o (o.effective s) = .ok j) :
    o = listOptions ∧ s = listSettings ∧ j = listJob := by
  obtain rfl := Except.ok.inj (ho.symm.trans options_list)
  obtain rfl := Except.ok.inj (hs.symm.trans (settings_list t))
  exact ⟨rfl, rfl, Except.ok.inj (hj.symm.trans job_list)⟩

lemma inputs_list (h : (t.read "a.lua").toOption = some (.bytes "local a return a")) :
    t.inputs [] listOptions.files = [⟨"a.lua", .ok "local a return a"⟩] := by
  have hi : t.inputs [] listOptions.files =
      [⟨"a.lua", (t.read "a.lua").bind (bytesOf "a.lua")⟩] := rfl
  rw [hi, Job.toOption_eq_some.mp h]
  rfl

def sourceText : Bytes :=
  Cache.keyText (listJob.chunkName "a.lua") listJob.header "local a return a"

lemma keyTexts_source (h : ∀ t ∈ (w.tree.makeDirectories "cd/luac53").toOption,
      (t.read "a.lua").toOption = some (.bytes "local a return a")) :
    w.keyTexts cachePlaces listArguments [] ⊆ {sourceText} := by
  rintro text ⟨o, s, j, t, ho, hs, hj, ht, input, hi, data, hd, rfl⟩
  obtain ⟨rfl, rfl, rfl⟩ := listJob_eq w.tree ho hs hj
  have hr := h t (directory_list ▸ Job.toOption_eq_some.mpr ht)
  rw [inputs_list hr] at hi
  obtain rfl := List.mem_singleton.mp hi
  obtain rfl := Except.ok.inj hd
  rfl

lemma writable_list (h : (t.read "a.lua").toOption = some (.bytes "local a return a")) :
    listJob.Writable (t.inputs [] listOptions.files) := by
  have hr : listJob.reloadable "a.lua" "local a return a" = true := by
    decide +kernel
  obtain ⟨c, -, hc, ⟨bytecode, hdu, -⟩, -, ht⟩ := Job.exists_reloaded hr
  intro input hi data hd chunk hch
  rw [inputs_list h] at hi
  obtain rfl := List.mem_singleton.mp hi
  obtain rfl := Except.ok.inj hd
  obtain rfl := Except.ok.inj (hch.symm.trans hc)
  exact ⟨⟨bytecode, hdu⟩, fun _ => ht, fun _ main _ => main.keepsFloats_eight⟩

lemma undisturbed_list (ho : (w.tree.makeDirectories "cd/luac53").toOption = some w.tree)
    (hr : (w.tree.read "a.lua").toOption = some (.bytes "local a return a")) :
    (w.start []).Undisturbed listOptions (listOptions.effective listSettings) listJob where
  directory := by
    refine ⟨w.tree, ?_, fun _ _ => rfl, rfl⟩
    rw [directory_list]
    exact Job.toOption_eq_some.mp ho
  writable := writable_list hr

lemma makeDirectories_filled :
    (filledWorld.tree.makeDirectories "cd/luac53").toOption = some filledWorld.tree := by
  decide +kernel

lemma read_filled : (filledWorld.tree.read "a.lua").toOption =
    some (.bytes "local a return a") := by
  decide +kernel

lemma earlier_filled : Earlier {sourceText} filledWorld.tree := by
  rw [filledWorld]
  refine .run cachePlaces listArguments [] (.fresh ?_) (keyTexts_source ?_)
  · intro place c hm
    simp [sourceWorld] at hm
  · decide +kernel

/-- The second run takes the chunk from the cache and lists it as before. -/
theorem run_withoutCache_filled : Earlier {sourceText} filledWorld.tree ∧
      (databaseOf (filledWorld.tree.read (.ofString "cd/luac53/cache.db"))).entryCount? = some 1 ∧
      (filledWorld.run cachePlaces plainArguments []).1 = .ok () ∧
      (filledWorld.run cachePlaces listArguments []).1 = .ok () ∧
      (filledWorld.run cachePlaces plainArguments []).2.output =
        (filledWorld.run cachePlaces listArguments []).2.output := by
  have hplain : (filledWorld.run cachePlaces plainArguments []).1 = .ok () :=
    Job.toOption_eq_some.mp (by decide +kernel)
  have htexts : filledWorld.keyTexts cachePlaces listArguments [] ⊆ {sourceText} := by
    refine keyTexts_source fun t ht => ?_
    rw [makeDirectories_filled] at ht
    exact Option.some.inj ht ▸ read_filled
  obtain ⟨hiff, houtput⟩ := run_withoutCache earlier_filled (Set.injOn_singleton sha256 _) htexts
    options_list options_plain fun s j hs hj _ => by
      obtain ⟨-, rfl, rfl⟩ := listJob_eq filledWorld.tree options_list hs hj
      exact undisturbed_list makeDirectories_filled read_filled
  exact ⟨earlier_filled, by decide +kernel, hplain, hiff.mp hplain, houtput hplain⟩

/-- With a file where the directory of the cache should be, only the run without the cache
succeeds. -/
theorem run_fails_with_cache :
    (sourceWorld.run ⟨[], .ofString "a.lua"⟩ plainArguments []).1 = .ok () ∧
      (sourceWorld.run ⟨[], .ofString "a.lua"⟩ listArguments []).1 =
        .error (.cacheDirectory ⟨.makingDirectory, .ofString "a.lua", .notDirectory⟩) := by
  refine ⟨Job.toOption_eq_some.mp (by decide +kernel), ?_⟩
  have hs : sourceWorld.tree.settings ⟨[], .ofString "a.lua"⟩ listOptions =
    .ok (initialSettings ⟨[], .ofString "a.lua"⟩ 1) := rfl
  have hj : job listOptions (listOptions.effective (initialSettings ⟨[], .ofString "a.lua"⟩ 1)) =
    .ok listJob := rfl
  rw [run_settled options_list (by decide) hs, hj, bind_except, perform_run (by decide),
    bind_error (load_closed rfl rfl listJob)]
  rfl

end Run

end World

end LuaBytecode
