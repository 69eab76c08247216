import LuaBytecode.Value
import Std.Data.HashMap

namespace LuaBytecode

deriving instance Hashable for Value

structure ConstantTable where
  values : Array Value
  index : Std.HashMap Value Nat
  index_eq : ∀ v : Value, index[v]? = values.findIdx? (· == v)

namespace ConstantTable

def empty : ConstantTable := ⟨#[], ∅, by simp⟩

def size (t : ConstantTable) : Nat := t.values.size

def find? (t : ConstantTable) (v : Value) : Option Nat := t.index[v]?

theorem find?_eq (t : ConstantTable) (v : Value) : t.find? v = t.values.findIdx? (· == v) :=
  t.index_eq v

theorem findIdx?_push_of_new {values : Array Value} {v : Value}
    (h : values.findIdx? (· == v) = none) (w : Value) :
    (values.push v).findIdx? (· == w) =
      if v == w then some values.size else values.findIdx? (· == w) := by
  rw [Array.findIdx?_push]
  by_cases hv : v = w
  · subst hv
    simp [h]
  · simp [hv]

def insert (t : ConstantTable) (v : Value) : ConstantTable :=
  if h : t.find? v = none then
    let values := t.values.push v
    ⟨values, t.index.insert v (values.size - 1), fun w => by
      rw [findIdx?_push_of_new (by rw [← find?_eq]; exact h), Std.HashMap.getElem?_insert,
        t.index_eq]
      simp [values]⟩
  else t

end ConstantTable

end LuaBytecode
