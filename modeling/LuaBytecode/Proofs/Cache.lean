import LuaBytecode.Cache
import LuaBytecode.Cache.Key
import Mathlib.Data.Set.Card
import Mathlib.Tactic.Lemma

namespace LuaBytecode

variable {now : Int} {a : Key}

lemma varint_append_inj {n m : Nat} {s t : Bytes} (h : varint n ++ s = varint m ++ t) :
    n = m ∧ s = t := by
  induction n using Nat.strongRecOn generalizing m with
  | ind n ih =>
    unfold varint at h
    split at h <;> split at h
    · obtain ⟨hb, rfl⟩ := List.cons.inj h
      have hn := congrArg UInt8.toNat hb
      simp only [UInt8.toNat_ofNat'] at hn
      exact ⟨by omega, rfl⟩
    · have hn := congrArg UInt8.toNat (List.cons.inj h).1
      simp only [UInt8.toNat_ofNat'] at hn
      omega
    · have hn := congrArg UInt8.toNat (List.cons.inj h).1
      simp only [UInt8.toNat_ofNat'] at hn
      omega
    · obtain ⟨hb, hr⟩ := List.cons.inj h
      have hn := congrArg UInt8.toNat hb
      simp only [UInt8.toNat_ofNat'] at hn
      obtain ⟨hd, rfl⟩ := ih (n / 128) (by omega) hr
      exact ⟨by omega, rfl⟩

namespace Cache

lemma counted_append_inj {s t a b : Bytes} (h : counted s ++ a = counted t ++ b) :
    s = t ∧ a = b := by
  simp only [counted, List.append_assoc] at h
  obtain ⟨hl, h⟩ := varint_append_inj h
  exact List.append_inj h hl

lemma orderName_inj {o o' : Option ByteOrder} (h : orderName o = orderName o') : o = o' := by
  rcases o with _ | _ | _ <;> rcases o' with _ | _ | _ <;> first | rfl | exact absurd h (by decide)

lemma keyText_inj {name name' : ChunkName} {header header' : Header} {source source' : Bytes}
    (h : keyText name header source = keyText name' header' source') :
    name = name' ∧ header = header' ∧ source = source' := by
  simp only [keyText, List.append_assoc] at h
  obtain ⟨-, h⟩ := counted_append_inj h
  obtain ⟨hn, h⟩ := counted_append_inj h
  obtain ⟨hf, h⟩ := List.append_inj h rfl
  obtain ⟨ho, h⟩ := counted_append_inj h
  have hs : source = source' := (counted_append_inj (a := []) (b := []) (by simpa using h)).1
  obtain ⟨version, format, intSize, sizeTSize, instructionSize, integerSize, numberSize, order⟩ :=
    header
  obtain ⟨rfl, rfl, rfl, rfl, rfl, rfl, rfl⟩ := hf
  obtain rfl : order = header'.byteOrder := orderName_inj ho
  exact ⟨hn, rfl, hs⟩

end Cache

def Sha256.Collide (s t : Bytes) : Prop := s ≠ t ∧ sha256 s = sha256 t

/-- The text that a key is the digest of determines the compilation, so that two compilations have
one key only if they are the same one or their texts are a collision of the digest. -/
theorem Cache.keyText_separates (name name' : ChunkName) (header header' : Header)
    (source source' : Bytes) :
    (keyText name header source = keyText name' header' source' ↔
      name = name' ∧ header = header' ∧ source = source') ∧
    (Key.ofSource name header source = Key.ofSource name' header' source' ↔
      name = name' ∧ header = header' ∧ source = source' ∨
        Sha256.Collide (keyText name header source) (keyText name' header' source')) := by
  have htext : keyText name header source = keyText name' header' source' ↔
      name = name' ∧ header = header' ∧ source = source' := by
    constructor
    · exact keyText_inj
    · rintro ⟨rfl, rfl, rfl⟩
      rfl
  refine ⟨htext, fun hkey => ?_, ?_⟩
  · by_cases heq : keyText name header source = keyText name' header' source'
    · exact .inl (htext.mp heq)
    · exact .inr ⟨heq, hkey⟩
  · rintro (hsame | hcollide)
    · rw [Key.ofSource, htext.mpr hsame, Key.ofSource]
    · exact hcollide.2

namespace Cache

inductive Operation where
  | put (k : Key) (bytecode : Bytes) (now : Int)
  | get (k : Key) (now : Int)
  | prune (before : Int)

inductive Event where
  | put (k : Key) (bytecode : Bytes) (now : Int)
  | get (k : Key) (now : Int) (found : Option Bytes)
  | prune (before : Int) (count : Nat)

abbrev History := List Event

def perform (c : Cache) : Operation → Event × Cache
  | .put k bytecode now => (.put k bytecode now, c.put k bytecode now)
  | .get k now => (.get k now (c.get k now).1, (c.get k now).2)
  | .prune before => (.prune before (c.prune before).1, (c.prune before).2)

def run (ops : List Operation) : History × Cache :=
  ops.foldl (fun (h, c) op => ((c.perform op).1 :: h, (c.perform op).2)) ([], empty)

lemma run_append (ops : List Operation) (op : Operation) :
    run (ops ++ [op]) =
      (((run ops).2.perform op).1 :: (run ops).1, ((run ops).2.perform op).2) := by
  simp [run]

/-- The clock when a key was last written, or read with success. -/
def usedAt? (k : Key) : History → Option Int
  | [] => none
  | .put a _ now :: past => if a = k then some now else usedAt? k past
  | .get a now found :: past => if a = k ∧ found.isSome then some now else usedAt? k past
  | .prune _ _ :: past => usedAt? k past

def written? (k : Key) : History → Option Bytes
  | [] => none
  | .put a bytecode _ :: past => if a = k then some bytecode else written? k past
  | _ :: past => written? k past

/-- The key was written, and whenever the cache was pruned since, it had been used recently enough.
-/
def Retained (k : Key) (h : History) : Prop :=
  ∃ later bytecode now earlier, h = later ++ .put k bytecode now :: earlier ∧
    ∀ newer before count older, later = newer ++ .prune before count :: older →
      ∀ t, usedAt? k (older ++ .put k bytecode now :: earlier) = some t → before ≤ t

variable {k : Key} {e : Event} {h : History} {c : Cache}

def Event.Spares (k : Key) (h : History) : Event → Prop
  | .prune before _ => ∀ t, usedAt? k h = some t → before ≤ t
  | _ => True

lemma not_retained_nil : ¬ Retained k [] := by
  rintro ⟨later, bytecode, now, earlier, heq, -⟩
  simp at heq

lemma retained_put (k : Key) (bytecode : Bytes) (now : Int) (h : History) :
    Retained k (.put k bytecode now :: h) := by
  refine ⟨[], bytecode, now, h, rfl, ?_⟩
  intro newer before count older heq
  simp at heq

lemma Retained.cons (hr : Retained k h) (he : e.Spares k h) : Retained k (e :: h) := by
  obtain ⟨later, bytecode, now, earlier, rfl, hl⟩ := hr
  refine ⟨e :: later, bytecode, now, earlier, rfl, ?_⟩
  intro newer before count older heq
  rcases List.cons_eq_append_iff.mp heq with ⟨rfl, hh⟩ | ⟨newer', rfl, hre⟩
  · obtain ⟨rfl, rfl⟩ := List.cons.inj hh
    exact he
  · exact hl newer' before count older hre

lemma Retained.of_cons (hr : Retained k (e :: h)) :
    (∃ bytecode now, e = .put k bytecode now) ∨ (Retained k h ∧ e.Spares k h) := by
  obtain ⟨later, bytecode, now, earlier, heq, hl⟩ := hr
  rcases List.cons_eq_append_iff.mp heq with ⟨rfl, hh⟩ | ⟨later', rfl, rfl⟩
  · exact .inl ⟨bytecode, now, (List.cons.inj hh).1.symm⟩
  · refine .inr ⟨⟨later', bytecode, now, earlier, rfl, ?_⟩, ?_⟩
    · intro newer before count older hs
      exact hl (e :: newer) before count older (by rw [hs]; rfl)
    · cases e with
      | prune before count => exact hl [] before count later' rfl
      | put _ _ _ => trivial
      | get _ _ _ => trivial

lemma retained_put_of_ne {bytecode : Bytes} (hne : a ≠ k) :
    Retained k (.put a bytecode now :: h) ↔ Retained k h := by
  refine ⟨fun hr => ?_, fun hr => hr.cons trivial⟩
  rcases hr.of_cons with ⟨_, _, heq⟩ | ⟨hr, -⟩
  · cases heq
    exact absurd rfl hne
  · exact hr

lemma retained_get {found : Option Bytes} : Retained k (.get a now found :: h) ↔ Retained k h := by
  refine ⟨fun hr => ?_, fun hr => hr.cons trivial⟩
  rcases hr.of_cons with ⟨_, _, heq⟩ | ⟨hr, -⟩
  · cases heq
  · exact hr

lemma retained_prune {before : Int} {count : Nat} : Retained k (.prune before count :: h) ↔
      Retained k h ∧ ∀ t, usedAt? k h = some t → before ≤ t := by
  refine ⟨fun hr => ?_, fun hr => hr.1.cons hr.2⟩
  rcases hr.of_cons with ⟨_, _, heq⟩ | hr
  · cases heq
  · exact hr

def Recalls (h : History) (c : Cache) : Prop := ∀ k e, c.find? k = some e ↔
    Retained k h ∧ written? k h = some e.bytecode ∧ usedAt? k h = some e.usedAt

lemma recalls_empty : Recalls [] empty := by
  intro k e
  simp [not_retained_nil]

lemma Recalls.put (hr : Recalls h c) (a : Key) (bytecode : Bytes) (now : Int) :
    Recalls (.put a bytecode now :: h) (c.put a bytecode now) := by
  intro k e
  rw [find?_put]
  by_cases heq : k = a
  · subst heq
    have hp := retained_put k bytecode now h
    obtain ⟨written, used⟩ := e
    simp [written?, usedAt?, hp]
  · have hne : a ≠ k := Ne.symm heq
    simp only [heq, if_false, written?, usedAt?, hne, retained_put_of_ne hne]
    exact hr k e

lemma get_fst (c : Cache) (k : Key) (now : Int) :
    (c.get k now).1 = (c.find? k).map (·.bytecode) := by
  unfold get
  cases c.find? k <;> rfl

lemma Recalls.get (hr : Recalls h c) (a : Key) (now : Int) :
    Recalls (.get a now (c.get a now).1 :: h) (c.get a now).2 := by
  intro k e
  rw [find?_get, retained_get, get_fst]
  by_cases heq : k = a
  · subst heq
    cases hf : c.find? k with
    | none =>
      simp only [if_true, Option.map_none, Option.isSome_none, Bool.false_eq_true, and_false,
        if_false, written?, usedAt?]
      rw [← hr k e, hf]
    | some old =>
      obtain ⟨hk, hw, -⟩ := (hr k old).mp hf
      obtain ⟨written, used⟩ := e
      simp [written?, usedAt?, hk, hw]
  · have hne : a ≠ k := Ne.symm heq
    simp only [heq, if_false, written?, usedAt?, hne, false_and]
    exact hr k e

lemma Recalls.prune (hr : Recalls h c) (before : Int) (count : Nat) :
    Recalls (.prune before count :: h) (c.prune before).2 := by
  intro k e
  rw [find?_prune, Option.filter_eq_some_iff, hr k e, retained_prune, decide_eq_true_iff]
  constructor
  · rintro ⟨⟨hk, hw, hu⟩, hre⟩
    refine ⟨⟨hk, fun t ht => ?_⟩, hw, hu⟩
    cases hu.symm.trans ht
    exact hre
  · rintro ⟨⟨hk, hre⟩, hw, hu⟩
    exact ⟨⟨hk, hw, hu⟩, hre _ hu⟩

lemma Recalls.perform (hr : Recalls h c) (op : Operation) :
    Recalls ((c.perform op).1 :: h) (c.perform op).2 := by
  cases op with
  | put k bytecode now => exact hr.put k bytecode now
  | get k now => exact hr.get k now
  | prune before => exact hr.prune before _

lemma recalls_run (ops : List Operation) : Recalls (run ops).1 (run ops).2 := by
  induction ops using List.reverseRecOn with
  | nil => exact recalls_empty
  | append_singleton ops op ih =>
    rw [run_append]
    exact ih.perform op

lemma Retained.used (hr : Retained k h) :
    (∃ bytecode, written? k h = some bytecode) ∧ ∃ t, usedAt? k h = some t := by
  induction h with
  | nil => exact absurd hr not_retained_nil
  | cons e h ih =>
    rcases hr.of_cons with ⟨bytecode, now, rfl⟩ | ⟨hr, -⟩
    · exact ⟨⟨bytecode, by simp [written?]⟩, now, by simp [usedAt?]⟩
    · obtain ⟨⟨bytecode, hw⟩, t, hu⟩ := ih hr
      cases e with
      | put a new now =>
        by_cases ha : a = k
        · exact ⟨⟨new, by simp [written?, ha]⟩, now, by simp [usedAt?, ha]⟩
        · exact ⟨⟨bytecode, by simp [written?, ha, hw]⟩, t, by simp [usedAt?, ha, hu]⟩
      | get a now found =>
        by_cases ha : a = k ∧ found.isSome
        · exact ⟨⟨bytecode, hw⟩, now, by simp [usedAt?, ha]⟩
        · exact ⟨⟨bytecode, hw⟩, t, by simp [usedAt?, ha, hu]⟩
      | prune before count => exact ⟨⟨bytecode, hw⟩, t, hu⟩

lemma Recalls.get_eq_some (hr : Recalls h c) (k : Key) (now : Int) (bytecode : Bytes) :
    (c.get k now).1 = some bytecode ↔ Retained k h ∧ written? k h = some bytecode := by
  rw [get_fst, Option.map_eq_some_iff]
  constructor
  · rintro ⟨e, hf, rfl⟩
    obtain ⟨hk, hw, -⟩ := (hr k e).mp hf
    exact ⟨hk, hw⟩
  · rintro ⟨hk, hw⟩
    obtain ⟨t, hu⟩ := hk.used.2
    exact ⟨⟨bytecode, t⟩, (hr k ⟨bytecode, t⟩).mpr ⟨hk, hw, hu⟩, rfl⟩

lemma Recalls.get_isSome (hr : Recalls h c) (k : Key) (now : Int) :
    (c.get k now).1.isSome ↔ Retained k h := by
  rw [Option.isSome_iff_exists]
  constructor
  · rintro ⟨bytecode, hf⟩
    exact ((hr.get_eq_some k now bytecode).mp hf).1
  · intro hk
    obtain ⟨bytecode, hw⟩ := hk.used.1
    exact ⟨bytecode, (hr.get_eq_some k now bytecode).mpr ⟨hk, hw⟩⟩

def stale (c : Cache) (before : Int) : List (Key × Entry) :=
  c.entries.filter fun p => p.2.usedAt < before

lemma prune_fst (c : Cache) (before : Int) : (c.prune before).1 = (c.stale before).length := by
  have hs := List.length_eq_length_filter_add (l := c.entries) (before ≤ ·.2.usedAt)
  have hn : (fun p : Key × Entry => !decide (before ≤ p.2.usedAt)) =
      fun p => decide (p.2.usedAt < before) := by
    funext p
    rw [← decide_not, decide_eq_decide, Int.not_le]
  rw [hn] at hs
  show c.entries.length - _ = (c.entries.filter _).length
  omega

lemma mem_stale (c : Cache) (before : Int) (k : Key) :
    k ∈ (c.stale before).map Prod.fst ↔ ∃ e, c.find? k = some e ∧ e.usedAt < before := by
  have hl : (c.stale before).lookup k = (c.find? k).filter (·.usedAt < before) :=
    lookup_filter_value (p := fun e : Entry => e.usedAt < before) c.nodup k
  constructor
  · intro hm
    cases hfo : (c.stale before).lookup k with
    | none =>
      obtain ⟨p, hp, rfl⟩ := List.mem_map.mp hm
      simpa using List.lookup_eq_none_iff.mp hfo p hp
    | some e =>
      obtain ⟨hf, hold⟩ := Option.filter_eq_some_iff.mp (hl.symm.trans hfo)
      exact ⟨e, hf, by simpa using hold⟩
  · rintro ⟨e, hf, hold⟩
    by_contra hm
    rw [lookup_eq_none_of_not_mem hm, hf, Option.filter_some, if_pos (by simpa using hold)]
      at hl
    cases hl

lemma Recalls.prune_fst (hr : Recalls h c) (before : Int) (count : Nat) : (c.prune before).1 =
      Set.ncard {k | Retained k h ∧ ¬ Retained k (.prune before count :: h)} := by
  have hs : {k | Retained k h ∧ ¬ Retained k (.prune before count :: h)} =
      ((c.stale before).map Prod.fst).toFinset := by
    ext k
    simp only [Set.mem_ofPred_eq, List.coe_toFinset, mem_stale, retained_prune]
    constructor
    · rintro ⟨hk, hg⟩
      obtain ⟨⟨bytecode, hw⟩, t, hu⟩ := hk.used
      refine ⟨⟨bytecode, t⟩, (hr k ⟨bytecode, t⟩).mpr ⟨hk, hw, hu⟩, ?_⟩
      by_contra hre
      refine hg ⟨hk, fun t' ht' => ?_⟩
      cases hu.symm.trans ht'
      exact Int.not_lt.mp hre
    · rintro ⟨e, hf, hold⟩
      obtain ⟨hk, -, hu⟩ := (hr k e).mp hf
      exact ⟨hk, fun hb => absurd (hb.2 _ hu) (Int.not_le.mpr hold)⟩
  have hn : ((c.stale before).map Prod.fst).Nodup :=
    (List.filter_sublist.map Prod.fst).nodup c.nodup
  rw [hs, Set.ncard_coe_finset, List.toFinset_card_of_nodup hn, List.length_map, Cache.prune_fst]

/-- Whatever was done to a cache, its history tells whether a key is found and with which bytecode,
and pruning counts the keys that are found no more. -/
theorem run_refines_history (ops : List Operation) :
    (∀ k now, ((run ops).2.get k now).1.isSome ↔ Retained k (run ops).1) ∧
    (∀ k now bytecode, ((run ops).2.get k now).1 = some bytecode ↔
      Retained k (run ops).1 ∧ written? k (run ops).1 = some bytecode) ∧
    ∀ before, ((run ops).2.prune before).1 =
      Set.ncard {k | Retained k (run ops).1 ∧ ¬ Retained k (run (ops ++ [.prune before])).1} := by
  have hr := recalls_run ops
  refine ⟨fun k now => hr.get_isSome k now, fun k now bytecode => hr.get_eq_some k now bytecode, ?_⟩
  intro before
  rw [run_append]
  exact hr.prune_fst before _

end Cache

end LuaBytecode
