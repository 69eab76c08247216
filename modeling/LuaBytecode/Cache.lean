import LuaBytecode.Cache.Key

namespace LuaBytecode

namespace Cache

structure Entry where
  bytecode : Bytes
  usedAt : Int
  deriving DecidableEq, Repr

end Cache

structure Cache where
  entries : List (Cache.Key × Cache.Entry)
  nodup : (entries.map Prod.fst).Nodup
  deriving DecidableEq

namespace Cache

def empty : Cache := ⟨[], by simp⟩

def find? (c : Cache) (k : Key) : Option Entry := c.entries.lookup k

def put (c : Cache) (k : Key) (bytecode : Bytes) (now : Int) : Cache where
  entries := (k, ⟨bytecode, now⟩) :: c.entries.filter (·.1 != k)
  nodup := by
    simp only [List.map_cons, List.nodup_cons]
    refine ⟨by simp, ?_⟩
    exact (List.filter_sublist.map Prod.fst).nodup c.nodup

def get (c : Cache) (k : Key) (now : Int) : Option Bytes × Cache :=
  match c.find? k with
  | some e => (some e.bytecode, c.put k e.bytecode now)
  | none => (none, c)

def prune (c : Cache) (before : Int) : Nat × Cache :=
  let kept := c.entries.filter (before ≤ ·.2.usedAt)
  (c.entries.length - kept.length, ⟨kept, (List.filter_sublist.map Prod.fst).nodup c.nodup⟩)

end Cache

/-- An opened database. A broken one finds nothing and keeps nothing. -/
inductive Database where
  | usable (c : Cache)
  | broken

namespace Database

def put (d : Database) (k : Cache.Key) (bytecode : Bytes) (now : Int) : Database :=
  match d with
  | .usable c => .usable (c.put k bytecode now)
  | .broken => .broken

def get (d : Database) (k : Cache.Key) (now : Int) : Option Bytes × Database :=
  match d with
  | .usable c => ((c.get k now).1, .usable (c.get k now).2)
  | .broken => (none, .broken)

def entryCount? : Database → Option Nat
  | .usable c => some c.entries.length
  | .broken => none

end Database

namespace Cache

theorem lookup_filter_ne {α β : Type} [BEq α] [LawfulBEq α] {l : List (α × β)} {k a : α}
    (h : a ≠ k) : (l.filter (·.1 != k)).lookup a = l.lookup a := by
  induction l with
  | nil => rfl
  | cons p l ih =>
    obtain ⟨b, v⟩ := p
    by_cases hb : b = k
    · subst hb
      have hab : (a == b) = false := by simpa using h
      simp [List.lookup_cons, ih, hab]
    · simp [hb, List.lookup_cons, ih]

@[simp] theorem find?_empty (k : Key) : empty.find? k = none := rfl

theorem find?_put (c : Cache) (k a : Key) (bytecode : Bytes) (now : Int) :
    (c.put k bytecode now).find? a = if a = k then some ⟨bytecode, now⟩ else c.find? a := by
  by_cases h : a = k
  · simp [find?, put, h]
  · have hb : (a == k) = false := by simpa using h
    simp [find?, put, h, List.lookup_cons, hb, lookup_filter_ne h]

theorem find?_get (c : Cache) (k a : Key) (now : Int) : (c.get k now).2.find? a =
      if a = k then (c.find? k).map fun e => ⟨e.bytecode, now⟩ else c.find? a := by
  unfold get
  split
  · rename_i e he
    simp [find?_put, he]
  · rename_i he
    by_cases h : a = k
    · simp [h, he]
    · simp [h]

theorem lookup_eq_none_of_not_mem {α β : Type} [BEq α] [LawfulBEq α] {l : List (α × β)} {a : α}
    (h : a ∉ l.map Prod.fst) : l.lookup a = none := by
  rw [List.lookup_eq_none_iff]
  intro p hp
  have hne : a ≠ p.1 := fun e => h (e ▸ List.mem_map_of_mem hp)
  simpa using hne

theorem lookup_filter_value {α β : Type} [BEq α] [LawfulBEq α] {l : List (α × β)} {p : β → Bool}
    (h : (l.map Prod.fst).Nodup) (a : α) :
    (l.filter fun x => p x.2).lookup a = (l.lookup a).filter p := by
  induction l with
  | nil => rfl
  | cons x l ih =>
    obtain ⟨b, v⟩ := x
    simp only [List.map_cons, List.nodup_cons] at h
    by_cases hb : a = b
    · subst hb
      by_cases hv : p v
      · simp [hv, Option.filter]
      · have hl := lookup_eq_none_of_not_mem h.1
        simp [hv, ih h.2, hl, Option.filter]
    · have hab : (a == b) = false := by simpa using hb
      by_cases hv : p v
      · simp [hv, List.lookup_cons, hab, ih h.2]
      · simp [hv, List.lookup_cons, hab, ih h.2]

theorem find?_prune (c : Cache) (before : Int) (k : Key) :
    (c.prune before).2.find? k = (c.find? k).filter (before ≤ ·.usedAt) :=
  lookup_filter_value (p := fun e : Entry => before ≤ e.usedAt) c.nodup k

end Cache

end LuaBytecode
