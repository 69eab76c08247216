import LuaBytecode.Proofs.Command.Invisible

namespace LuaBytecode

open JsonValue Settings Command

abbrev Members := List (Bytes × JsonValue)

variable {members : Members} {v : JsonValue} {n : Int64} {p : Bytes × JsonValue} {path : Bytes}
  {o : Options}

namespace Members

def last? (members : Members) (name : Bytes) : Option JsonValue := members.reverse.lookup name

def header (members : Members) : Members :=
  members.flatMap fun p => if p.1 = .ofString "header" then p.2.members?.getD [] else []

def lastSet? (name : Bytes) : List Members → Option JsonValue
  | [] => none
  | file :: later => (lastSet? name later).or (file.last? name)

variable {name : Bytes}

lemma last?_cons : last? (p :: members) name =
    (members.last? name).or (if p.1 = name then some p.2 else none) := by
  obtain ⟨key, v⟩ := p
  have ho : List.lookup name [(key, v)] = if key = name then some v else none := by
    by_cases h : key = name
    · simp [h]
    · have hb : (name == key) = false := by simpa using Ne.symm h
      simp [List.lookup_cons, h, hb]
  rw [last?, last?, List.reverse_cons, List.lookup_append, ho]

lemma header_cons_of_ne (h : p.1 ≠ "header") : header (p :: members) = header members := by
  simp [header, h]

lemma header_cons {ms : Members} (h : v.members? = some ms) :
    header (("header", v) :: members) = ms ++ header members := by
  simp [header, h]

end Members

open Members

structure Takes {α : Type} (found : Option JsonValue) (decode : JsonValue → Option α)
    (old new : α) : Prop where
  kept : found = none → new = old
  given : ∀ v, found = some v → decode v = some new

namespace Takes

variable {α : Type} {found found' : Option JsonValue} {decode : JsonValue → Option α}
  {old mid new : α}

lemma eq (h : Takes found decode old new) : new = (found.bind decode).getD old := by
  cases found with
  | none => exact h.kept rfl
  | some v => simp [h.given v rfl]

lemma refl : Takes none decode old old := ⟨fun _ => rfl, by simp⟩

lemma trans (h : Takes found decode old mid) (h' : Takes found' decode mid new) :
    Takes (found'.or found) decode old new := by
  cases found' with
  | none =>
    rw [h'.kept rfl]
    exact h
  | some v => exact ⟨by simp, fun w hw => h'.given w hw⟩

end Takes

/-- A way to set things by their names gives one of them its own value, and leaves it alone under
any other name. -/
structure Reads {σ α : Type} (set : σ → Bytes → JsonValue → Option σ) (name : Bytes)
    (decode : JsonValue → Option α) (get : σ → α) : Prop where
  own : ∀ {s s' : σ} {v : JsonValue}, set s name v = some s' → decode v = some (get s')
  other : ∀ {s s' : σ} {key : Bytes} {v : JsonValue}, key ≠ name → set s key v = some s' →
    get s' = get s

section Reads

variable {σ α : Type} {set : σ → Bytes → JsonValue → Option σ} {name : Bytes}
  {decode : JsonValue → Option α} {get : σ → α}

lemma Reads.step (h : Reads set name decode get) {s s' : σ} (hs : set s p.1 p.2 = some s') :
    Takes (if p.1 = name then some p.2 else none) decode (get s) (get s') := by
  by_cases hp : p.1 = name
  · rw [if_pos hp]
    refine ⟨by simp, ?_⟩
    rintro v ⟨⟩
    rw [hp] at hs
    exact h.own hs
  · rw [if_neg hp]
    exact ⟨fun _ => h.other hp hs, by simp⟩

lemma Reads.takes (h : Reads set name decode get) {s s' : σ}
    (hs : members.foldlM (fun s p => set s p.1 p.2) s = some s') :
    Takes (members.last? name) decode (get s) (get s') := by
  induction members generalizing s with
  | nil =>
    cases hs
    exact .refl
  | cons p rest ih =>
    rw [List.foldlM_cons, Option.bind_eq_bind, Option.bind_eq_some_iff] at hs
    obtain ⟨s1, hse, hr⟩ := hs
    rw [last?_cons]
    exact (h.step hse).trans (ih hr)

lemma exists_foldlM (s : σ) (h : ∀ p ∈ members, ∀ s, ∃ s', set s p.1 p.2 = some s') :
    ∃ s', members.foldlM (fun s p => set s p.1 p.2) s = some s' := by
  induction members generalizing s with
  | nil => exact ⟨s, rfl⟩
  | cons p rest ih =>
    obtain ⟨s1, hs⟩ := h p (List.mem_cons_self ..) s
    obtain ⟨s', hr⟩ := ih s1 fun q hq => h q (List.mem_cons_of_mem _ hq)
    exact ⟨s', by rw [List.foldlM_cons, hs]; exact hr⟩

end Reads

namespace HeaderSettings

inductive Width where
  | int
  | sizeT
  | integer
  | number

def Width.name : Width → Bytes
  | .int => "intSize"
  | .sizeT => "sizeTSize"
  | .integer => "integerSize"
  | .number => "numberSize"

def width (s : HeaderSettings) : Width → Int64
  | .int => s.intSize
  | .sizeT => s.sizeTSize
  | .integer => s.integerSize
  | .number => s.numberSize

def orderOf? (v : JsonValue) : Option ByteOrder := v.string?.bind ByteOrder.ofName?

structure Admits (name : Bytes) (v : JsonValue) : Prop where
  width : ∀ w : Width, name = w.name → ∃ n, v.int? = some n
  byteOrder : name = "byteOrder" → ∃ o, orderOf? v = some o

lemma nodup_names :
    (["intSize", "sizeTSize", "integerSize", "numberSize", "byteOrder"] : List Bytes).Nodup := by
  decide

lemma reads_width (w : Width) : Reads set w.name int? (·.width w) := by
  have hn := nodup_names
  constructor
  · cases w <;> grind [set, Width.name, width, Option.map_eq_some_iff]
  · cases w <;> grind [set, Width.name, width, Option.map_eq_some_iff]

lemma reads_byteOrder : Reads set "byteOrder" (fun v => (orderOf? v).map some) (·.byteOrder) := by
  have hn := nodup_names
  simp only [List.nodup_cons, List.mem_cons] at hn
  constructor
  · grind [set, orderOf?, Option.map_eq_some_iff]
  · grind [set, Option.map_eq_some_iff]

lemma getD_orderOf? (found : Option JsonValue) :
    (found.bind fun v => (orderOf? v).map some).getD none = found.bind orderOf? := by
  cases found with
  | none => rfl
  | some v => cases h : orderOf? v <;> simp [h]

lemma Admits.exists_set {name : Bytes} (h : Admits name v) (s : HeaderSettings) :
    ∃ s', s.set name v = some s' := by
  have hint := h.width .int
  have hsizeT := h.width .sizeT
  have hi := h.width .integer
  have hn := h.width .number
  have ho := h.byteOrder
  simp only [Width.name, orderOf?, ← Option.isSome_iff_exists] at *
  grind [set]

end HeaderSettings

namespace Settings

inductive Switch where
  | debug
  | stripDebug
  | cache

inductive Amount where
  | listing
  | jobs

def Switch.name : Switch → Bytes
  | .debug => "debug"
  | .stripDebug => "stripDebug"
  | .cache => "cache"

def Amount.name : Amount → Bytes
  | .listing => "listing"
  | .jobs => "jobs"

def switch (s : Settings) : Switch → Bool
  | .debug => s.debug
  | .stripDebug => s.stripDebug
  | .cache => s.cache

def amount (s : Settings) : Amount → Int64
  | .listing => s.listing
  | .jobs => s.jobs

structure Admits (name : Bytes) (v : JsonValue) : Prop where
  switch : ∀ b : Switch, name = b.name → ∃ x, v.bool? = some x
  amount : ∀ n : Amount, name = n.name → ∃ x, v.int? = some x
  cacheFile : name = "cacheDB" → ∃ x, v.string? = some x
  header : name = "header" → ∃ members, v.members? = some members ∧
    ∀ p ∈ members, HeaderSettings.Admits p.1 p.2

lemma nodup_names : (["debug", "stripDebug", "cache", "listing", "jobs", "cacheDB", "header"] :
    List Bytes).Nodup := by
  decide

lemma reads_switch (b : Switch) : Reads set b.name bool? (·.switch b) := by
  have hn := nodup_names
  constructor
  · cases b <;> grind [set, Switch.name, switch, Option.map_eq_some_iff]
  · cases b <;> grind [set, Switch.name, switch, Option.map_eq_some_iff]

lemma reads_amount (n : Amount) : Reads set n.name int? (·.amount n) := by
  have hn := nodup_names
  constructor
  · cases n <;> grind [set, Amount.name, amount, Option.map_eq_some_iff]
  · cases n <;> grind [set, Amount.name, amount, Option.map_eq_some_iff]

lemma reads_cacheFile : Reads set "cacheDB" string? (·.cacheFile) := by
  have hn := nodup_names
  constructor
  · grind [set, Option.map_eq_some_iff]
  · grind [set, Option.map_eq_some_iff]

variable {s s' : Settings}

lemma set_header (h : s.set "header" v = some s') : ∃ ms, v.members? = some ms ∧
      ms.foldlM (fun s p => HeaderSettings.set s p.1 p.2) s.header = some s'.header := by
  have hn := nodup_names
  have hm : (s.header.merge v).map ({ s with header := · }) = some s' := by grind [set]
  obtain ⟨header, hh, rfl⟩ := Option.map_eq_some_iff.mp hm
  rw [HeaderSettings.merge, Option.bind_eq_bind, Option.bind_eq_some_iff] at hh
  exact hh

lemma set_header_of_ne {name : Bytes} (hne : name ≠ "header")
    (h : s.set name v = some s') : s'.header = s.header := by
  grind [set, Option.map_eq_some_iff]

lemma merge_header (h : members.foldlM (fun s p => s.set p.1 p.2) s = some s') :
    members.header.foldlM (fun s p => HeaderSettings.set s p.1 p.2) s.header = some s'.header := by
  induction members generalizing s with
  | nil =>
    cases h
    rfl
  | cons p rest ih =>
    rw [List.foldlM_cons, Option.bind_eq_bind, Option.bind_eq_some_iff] at h
    obtain ⟨s1, hs, hr⟩ := h
    obtain ⟨name, v⟩ := p
    by_cases hn : name = "header"
    · subst hn
      obtain ⟨ms, hms, hh⟩ := set_header hs
      rw [header_cons hms, List.foldlM_append, hh]
      exact ih hr
    · rw [header_cons_of_ne hn, ← set_header_of_ne hn hs]
      exact ih hr

lemma Admits.exists_set {name : Bytes} (h : Admits name v) (s : Settings) :
    ∃ s', s.set name v = some s' := by
  have hd := h.switch .debug
  have hs := h.switch .stripDebug
  have hc := h.switch .cache
  have hl := h.amount .listing
  have hj := h.amount .jobs
  have hf := h.cacheFile
  have hh : name = "header" → ∃ header, s.header.merge v = some header := by
    intro hn
    obtain ⟨ms, hms, ha⟩ := h.header hn
    rw [HeaderSettings.merge, hms]
    exact exists_foldlM s.header fun p hp => (ha p hp).exists_set
  simp only [Switch.name, Amount.name, ← Option.isSome_iff_exists] at *
  grind [set]

end Settings

/-- What a path says about settings: nothing if there is no file, or the members of an object. -/
def FileTree.Configures (t : FileTree) (path : Bytes) (members : Members) : Prop :=
  (∃ e, (t.read path).bind (World.bytesOf path) = .error e ∧ e.fault = .notFound ∧ members = []) ∨
    ∃ file, (t.read path).bind (World.bytesOf path) = .ok file ∧ read? file = some (.object members)

namespace FileTree

variable {t : FileTree} {s s' : Settings}

lemma Configures.mergeFile (h : t.Configures path members)
    (hs : members.foldlM (fun s p => s.set p.1 p.2) s = some s') :
    Command.mergeFile s path ((t.read path).bind (World.bytesOf path)) = .ok s' := by
  rcases h with ⟨e, hr, hf, rfl⟩ | ⟨file, hr, hfi⟩
  · cases hs
    rw [hr, Command.mergeFile, if_pos hf]
  · have hm : s.mergeFile file = some s' := by
      rw [Settings.mergeFile, hfi]
      exact hs
    rw [hr, Command.mergeFile, hm]

structure Layered (files : List Members) (s s' : Settings) : Prop where
  own : ∀ {α : Type} {name : Bytes} {decode : JsonValue → Option α} {get : Settings → α},
    Reads set name decode get → Takes (lastSet? name files) decode (get s) (get s')
  header : ∀ {α : Type} {name : Bytes} {decode : JsonValue → Option α} {get : HeaderSettings → α},
    Reads HeaderSettings.set name decode get →
      Takes (lastSet? name (files.map Members.header)) decode (get s.header) (get s'.header)

lemma exists_layered {paths : List Bytes} {files : List Members}
    (h : List.Forall₂ t.Configures paths files)
    (hv : ∀ members ∈ files, ∀ p ∈ members, Admits p.1 p.2) (s : Settings) :
    ∃ s', paths.foldlM (fun s path =>
      mergeFile s path ((t.read path).bind (World.bytesOf path))) s = .ok s' ∧
        Layered files s s' := by
  induction h generalizing s with
  | nil => exact ⟨s, rfl, fun _ => .refl, fun _ => .refl⟩
  | @cons path members paths files hpa _ ih =>
    have hf : ∃ s1, members.foldlM (fun s p => set s p.1 p.2) s = some s1 :=
      exists_foldlM s fun p hp => (hv members (List.mem_cons_self ..) p hp).exists_set
    obtain ⟨s1, hs1⟩ := hf
    obtain ⟨s2, hs2, hl⟩ := ih (fun ms hms => hv ms (List.mem_cons_of_mem _ hms)) s1
    refine ⟨s2, ?_, ?_, ?_⟩
    · rw [List.foldlM_cons, hpa.mergeFile hs1]
      exact hs2
    · exact fun hr => (hr.takes hs1).trans (hl.own hr)
    · exact fun hr => (hr.takes (merge_header hs1)).trans (hl.header hr)

end FileTree

namespace Argument

def valuesOf (flag : Flag) (arguments : List Argument) : List Bytes := arguments.filterMap fun
    | .assignment f value => if f = flag then some value else none
    | _ => none

end Argument

namespace Options

open Argument

structure Answers {α : Type} (flag : Flag) (next : Option α → Bytes → Option α)
    (get : Options → Option α) : Prop where
  own : ∀ {o o' : Options} {value : Bytes}, o.assign flag value = .ok o' →
    get o' = next (get o) value
  other : ∀ {o o' : Options} {f : Flag} {value : Bytes}, f ≠ flag → o.assign f value = .ok o' →
    get o' = get o
  files : ∀ (o : Options) (files : List Bytes), get { o with files } = get o

variable {α : Type} {flag : Flag} {next : Option α → Bytes → Option α} {get : Options → Option α}
  {o' : Options} {arguments : List Argument} {value : Bytes}

lemma Answers.add (h : Answers flag next get) {a : Argument} (ha : o.add a = .ok o') :
    get o' = (valuesOf flag [a]).foldl next (get o) := by
  cases a with
  | file path =>
    cases ha
    exact h.files o _
  | fault e => cases ha
  | assignment f value =>
    have has : o.assign f value = .ok o' := by
      cases hx : o.assign f value with
      | error e => simp [Options.add, hx, Except.mapError] at ha
      | ok o1 => simpa [Options.add, hx, Except.mapError] using ha
    by_cases hf : f = flag
    · subst hf
      simpa [valuesOf] using h.own has
    · simpa [valuesOf, hf] using h.other hf has

lemma valuesOf_cons (flag : Flag) (a : Argument) (rest : List Argument) :
    valuesOf flag (a :: rest) = valuesOf flag [a] ++ valuesOf flag rest := by
  rw [valuesOf, valuesOf, valuesOf, ← List.filterMap_append, List.singleton_append]

lemma Answers.foldlM (h : Answers flag next get) (ho : arguments.foldlM Options.add o = .ok o') :
    get o' = (valuesOf flag arguments).foldl next (get o) := by
  induction arguments generalizing o with
  | nil =>
    cases ho
    rfl
  | cons a rest ih =>
    rw [List.foldlM_cons, Except.bind_eq_ok] at ho
    obtain ⟨o1, ha, hr⟩ := ho
    rw [ih hr, h.add ha, ← List.foldl_append, ← valuesOf_cons]

lemma answers_of {read : Option α → Bytes → Except FlagValueFault α} {put : Options → α → Options}
    (how : ∀ o value, o.assign flag value = do return put o (← read (get o) value))
    (hp : ∀ o x, get (put o x) = some x)
    (hr : ∀ n value x, read n value = .ok x → next n value = some x)
    (hot : ∀ {o o' : Options} {f : Flag} {value : Bytes}, f ≠ flag → o.assign f value = .ok o' →
      get o' = get o)
    (hf : ∀ (o : Options) (files : List Bytes), get { o with files } = get o) :
    Answers flag next get := by
  refine ⟨?_, hot, hf⟩
  intro o o' value h
  rw [how, Except.bind_eq_ok] at h
  obtain ⟨x, hx, ho⟩ := h
  cases ho
  rw [hp, hr _ _ _ hx]

lemma bool_eq_ok {b : Bool} (h : bool value = .ok b) : boolOf? value = some b := by
  unfold bool at h
  split at h
  · next hb => rw [hb, Except.ok.inj h]
  · cases h

lemma order_eq_ok {b : ByteOrder} (h : order value = .ok b) : ByteOrder.ofName? value = some b := by
  unfold order at h
  split at h
  · next hb => rw [hb, Except.ok.inj h]
  · cases h

lemma integer_eq_ok (h : integer value = .ok n) : (readInteger value).toOption = some n := by
  unfold integer at h
  cases hr : readInteger value with
  | error e => simp [hr, Except.mapError] at h
  | ok k => simpa [hr, Except.mapError, Except.toOption] using h

def counted (before : Option Int64) (value : Bytes) : Option Int64 :=
  if value = "+1" then some (before.getD 0 + 1) else (readInteger value).toOption

lemma count_eq_ok {before : Option Int64} (h : count before value = .ok n) :
    counted before value = some n := by
  unfold count at h
  unfold counted
  split at h
  · next ho =>
    cases h
    rw [if_pos ho]
  · next ho =>
    rw [if_neg ho]
    exact integer_eq_ok h

def toggle (o : Options) : Flag → Option Bool
  | .debug => o.debug
  | .stripDebug => o.stripDebug
  | .cache => o.cache
  | .noCache => o.noCache
  | _ => none

lemma assign_others {f : Flag} (h : o.assign f value = .ok o') :
    (∀ flag, f ≠ flag → o'.toggle flag = o.toggle flag) ∧ (f ≠ .jobs → o'.jobs = o.jobs) ∧
      (f ≠ .byteOrder → o'.byteOrder = o.byteOrder) ∧ (f ≠ .list → o'.listing = o.listing) := by
  refine ⟨fun flag => ?_, ?_⟩
  · cases flag <;> cases f <;> simp_all [assign, toggle, Except.bind_eq_ok, pure, Except.pure] <;>
      grind
  · cases f <;> simp_all [assign, Except.bind_eq_ok, pure, Except.pure] <;> grind

lemma answers_toggle (h : flag ∈ [.debug, .stripDebug, .cache, .noCache]) :
    Answers flag (fun _ => boolOf?) (·.toggle flag) := by
  simp only [List.mem_cons, List.not_mem_nil, or_false] at h
  rcases h with rfl | rfl | rfl | rfl <;>
    exact answers_of (fun _ _ => rfl) (fun _ _ => rfl) (fun _ _ _ => bool_eq_ok)
      (fun hne h => (assign_others h).1 _ hne) fun _ _ => rfl

lemma answers_jobs : Answers .jobs (fun _ value => (readInteger value).toOption) (·.jobs) :=
  answers_of (fun _ _ => rfl) (fun _ _ => rfl) (fun _ _ _ => integer_eq_ok)
    (fun hne h => (assign_others h).2.1 hne) fun _ _ => rfl

lemma answers_byteOrder : Answers .byteOrder (fun _ => ByteOrder.ofName?) (·.byteOrder) :=
  answers_of (fun _ _ => rfl) (fun _ _ => rfl) (fun _ _ _ => order_eq_ok)
    (fun hne h => (assign_others h).2.2.1 hne) fun _ _ => rfl

lemma answers_list : Answers .list counted (·.listing) :=
  answers_of (fun _ _ => rfl) (fun _ _ => rfl) (fun _ _ _ => count_eq_ok)
    (fun hne h => (assign_others h).2.2.2 hne) fun _ _ => rfl

def lastGiven? (flag : Flag) (decode : Bytes → Option α) (arguments : List Argument) : Option α :=
  (valuesOf flag arguments).getLast?.bind decode

lemma foldl_last {decode : Bytes → Option α} (values : List Bytes) :
    values.foldl (fun _ => decode) none = values.getLast?.bind decode := by
  induction values using List.reverseRecOn with
  | nil => rfl
  | append_singleton values value _ => simp

lemma Answers.lastGiven {decode : Bytes → Option α} (h : Answers flag (fun _ => decode) get)
    (ho : arguments.foldlM Options.add o = .ok o') (hn : get o = none) :
    get o' = lastGiven? flag decode arguments := by
  rw [h.foldlM ho, hn, foldl_last]
  rfl

end Options

lemma Command.foldlM_of_options {arguments : List Bytes} (h : options arguments = .ok o) :
    (Argument.scan arguments).foldlM Options.add .default = .ok o := by
  simp only [options, Except.bind_eq_ok, Except.mapError_eq_ok] at h
  obtain ⟨o', hs, h⟩ := h
  have heq : o' = o := by
    split at h
    · exact Except.ok.inj h
    · split at h
      · cases h
      · split at h
        · cases h
        · exact Except.ok.inj h
  rw [← heq]
  exact hs

open Options

/-- The settings in effect, one by one. If the files are absent or valid, they can be read, and each
setting has the value of its flag, else that of the last file with its name, else its default. A
flag of the cache that is false is as good as none. -/
theorem settings_in_effect {w : World} {places : Places} {arguments : List Bytes} {o : Options}
    {files : List Members} (ho : Command.options arguments = .ok o)
    (hfiles : List.Forall₂ w.tree.Configures (Command.configFiles places o) files)
    (hvalid : ∀ members ∈ files, ∀ p ∈ members, Settings.Admits p.1 p.2) (processors : Int64) :
    ∃ s, (Command.settings (World.host processors) places o).run.run w = (.ok s, w) ∧
      (o.effective s).debug = (lastGiven? .debug boolOf? (Argument.scan arguments)).getD
        (((lastSet? (.ofString "debug") files).bind JsonValue.bool?).getD false) ∧
      (o.effective s).stripDebug = (lastGiven? .stripDebug boolOf? (Argument.scan arguments)).getD
        (((lastSet? (.ofString "stripDebug") files).bind JsonValue.bool?).getD false) ∧
      (o.effective s).listing =
        ((Argument.valuesOf .list (Argument.scan arguments)).foldl counted none).getD
          (((lastSet? (.ofString "listing") files).bind JsonValue.int?).getD 0) ∧
      (o.effective s).jobs =
        (lastGiven? .jobs (fun v => (readInteger v).toOption) (Argument.scan arguments)).getD
          (((lastSet? (.ofString "jobs") files).bind JsonValue.int?).getD processors) ∧
      (o.effective s).cache =
        (if lastGiven? .noCache boolOf? (Argument.scan arguments) = some true then false
        else if lastGiven? .cache boolOf? (Argument.scan arguments) = some true then true
        else ((lastSet? (.ofString "cache") files).bind JsonValue.bool?).getD true) ∧
      (o.effective s).header.byteOrder =
        (lastGiven? .byteOrder ByteOrder.ofName? (Argument.scan arguments)).or
          ((lastSet? (.ofString "byteOrder") (files.map Members.header)).bind
            HeaderSettings.orderOf?) ∧
      (o.effective s).cacheFile = ((lastSet? (.ofString "cacheDB") files).bind
        JsonValue.string?).getD (Command.initialSettings places processors).cacheFile ∧
      ∀ width : HeaderSettings.Width, (o.effective s).header.width width =
        ((lastSet? width.name (files.map Members.header)).bind JsonValue.int?).getD 0 := by
  obtain ⟨s, hs, hlayered⟩ :=
    FileTree.exists_layered hfiles hvalid (Command.initialSettings places processors)
  have hscan := Command.foldlM_of_options ho
  have htoggle (flag : Flag) (hf : flag ∈ [.debug, .stripDebug, .cache, .noCache]) :=
    (answers_toggle hf).lastGiven hscan
  have hswitch := fun b => (hlayered.own (Settings.reads_switch b)).eq
  have hamount := fun n => (hlayered.own (Settings.reads_amount n)).eq
  have horder := (hlayered.header HeaderSettings.reads_byteOrder).eq
  have hwidth := fun width => (hlayered.header (HeaderSettings.reads_width width)).eq
  refine ⟨s, (World.settings_run places o processors).trans (congrArg (·, w) hs),
    ?_, ?_, ?_, ?_, ?_, ?_, (hlayered.own Settings.reads_cacheFile).eq, ?_⟩
  · rw [← htoggle _ (by decide) rfl]
    exact congrArg o.debug.getD (hswitch .debug)
  · rw [← htoggle _ (by decide) rfl]
    exact congrArg o.stripDebug.getD (hswitch .stripDebug)
  · have hcount : o.listing = _ := answers_list.foldlM hscan
    exact congr (congrArg Option.getD hcount) (hamount .listing)
  · rw [← answers_jobs.lastGiven hscan rfl]
    exact congrArg o.jobs.getD (hamount .jobs)
  · rw [← htoggle _ (by decide) rfl, ← htoggle .cache (by decide) rfl]
    exact congrArg (fun b => if o.noCache = some true then false
      else if o.cache = some true then true else b) (hswitch .cache)
  · rw [← answers_byteOrder.lastGiven hscan rfl]
    have hfile : s.header.byteOrder = _ := horder.trans (HeaderSettings.getD_orderOf? _)
    exact congrArg o.byteOrder.or hfile
  · intro width
    have hfile := hwidth width
    cases width <;> exact hfile

section Configured

def configuredWorld : World := ⟨⟨[(["c"], .bytes "\x7b\"listing\":2\x7d"),
    (["d"], .bytes "\x7b\"listing\":1\x7d"),
    (["a.lua"], .bytes "local a return a")], []⟩, [], [], none, 0⟩

def configuredArguments : List Bytes :=
  ["--config", "c", "--config", "d", "--debug", "a.lua"].map .ofString

def configuredOptions : Options :=
  { Options.default with
    configFiles := ["c", "d"], debug := some true, files := ["a.lua"] }

def listsOnly (n : Int64) (members : Members) : Bool :=
  members.all (fun p => p.1 == "listing" && p.2.int?.isSome) &&
    (members.last? "listing").bind int? == some n

lemma admits_listing (h : v.int?.isSome) : Admits "listing" v := by
  have hn := nodup_names
  simp only [List.nodup_cons, List.mem_cons] at hn
  refine ⟨fun b hb => ?_, fun _ _ => Option.isSome_iff_exists.mp h, fun hf => ?_, fun hh => ?_⟩
  · cases b <;> grind [Switch.name]
  · grind
  · grind

lemma admits_of_listsOnly (h : listsOnly n members = true) : ∀ p ∈ members, Admits p.1 p.2 := by
  intro p hp
  rw [listsOnly, Bool.and_eq_true, List.all_eq_true] at h
  have hn := h.1 p hp
  rw [Bool.and_eq_true, beq_iff_eq] at hn
  rw [hn.1]
  exact admits_listing hn.2

lemma exists_configures {file : Bytes}
    (hf : ((configuredWorld.tree.read path).bind (World.bytesOf path)).toOption = some file)
    (h : ((read? file).bind members?).any (listsOnly n) = true) :
    ∃ members, configuredWorld.tree.Configures path members ∧ listsOnly n members = true := by
  have hr := Job.toOption_eq_some.mp hf
  cases hv : read? file with
  | none => simp [hv] at h
  | some v =>
    cases v with
    | object members =>
      exact ⟨members, .inr ⟨file, hr, hv⟩, by simpa [hv, members?] using h⟩
    | _ => simp [hv, members?] at h

lemma options_configured : options configuredArguments = .ok configuredOptions := rfl

lemma lastSet?_configured {first second : Members} (h : listsOnly n second = true) :
    (lastSet? "listing" [first, second]).bind int? = some n := by
  rw [listsOnly, Bool.and_eq_true, beq_iff_eq] at h
  obtain ⟨v, hv, hn⟩ := Option.bind_eq_some_iff.mp h.2
  simp [lastSet?, hv, hn]

/-- The second file comes before the first, and the flag before the default. -/
theorem settings_in_effect_configured :
    Command.options configuredArguments = .ok configuredOptions ∧
      ∃ s, (Command.settings World.host ⟨[], []⟩ configuredOptions).run.run configuredWorld =
          (.ok s, configuredWorld) ∧
        (configuredOptions.effective s).debug = true ∧
        (configuredOptions.effective s).listing = 1 := by
  have hc : ∃ members, configuredWorld.tree.Configures (.ofString "c") members ∧
      listsOnly 2 members = true := by
    have hread : ((configuredWorld.tree.read (.ofString "c")).bind
        (World.bytesOf (.ofString "c"))).toOption = some (.ofString "\x7b\"listing\":2\x7d") := rfl
    exact exists_configures hread (by decide +kernel)
  have hd : ∃ members, configuredWorld.tree.Configures (.ofString "d") members ∧
      listsOnly 1 members = true := by
    have hread : ((configuredWorld.tree.read (.ofString "d")).bind
        (World.bytesOf (.ofString "d"))).toOption = some (.ofString "\x7b\"listing\":1\x7d") := rfl
    exact exists_configures hread (by decide +kernel)
  obtain ⟨first, hfirst, hlists⟩ := hc
  obtain ⟨second, hsecond, hlists'⟩ := hd
  have hfiles : List.Forall₂ configuredWorld.tree.Configures
      (Command.configFiles ⟨[], []⟩ configuredOptions) [first, second] :=
    .cons hfirst (.cons hsecond .nil)
  have hvalid : ∀ members ∈ [first, second], ∀ p ∈ members, Settings.Admits p.1 p.2 :=
    List.forall_mem_cons.mpr ⟨admits_of_listsOnly hlists, List.forall_mem_cons.mpr
      ⟨admits_of_listsOnly hlists', by simp⟩⟩
  obtain ⟨s, hs, hdebug, -, hlisting, -⟩ := settings_in_effect options_configured hfiles hvalid 1
  have hgiven : Options.lastGiven? .debug Options.boolOf? (Argument.scan configuredArguments) =
      some true := rfl
  have hcount : (Argument.valuesOf .list (Argument.scan configuredArguments)).foldl Options.counted
      none = none := rfl
  rw [hgiven] at hdebug
  rw [hcount, lastSet?_configured hlists'] at hlisting
  exact ⟨options_configured, s, hs, hdebug, hlisting⟩

end Configured

/-- The cache is refused by its flag, and used all the same. -/
theorem cache_used_against_flag : Options.lastGiven? .cache Options.boolOf?
        (Argument.scan (.ofString "--cache=false" :: World.listArguments)) = some false ∧
      (World.databaseOf ((World.sourceWorld.run World.cachePlaces
        (.ofString "--cache=false" :: World.listArguments) []).2.tree.read
          (.ofString "cd/luac53/cache.db"))).entryCount? = some 1 := by
  decide +kernel

end LuaBytecode
