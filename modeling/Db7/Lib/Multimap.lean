import Mathlib.Data.List.Sort
import Mathlib.Data.Prod.Lex

/-!
# Sorted multimaps

Pairs of a key and a value in the order of keys and then values. The order is
part of the type: an insert puts the pair in its place.

* **lookup** (`get`): the values of a key, in ascending order;
* **insertion** (`mem_get_insert`): one pair more, and the other keys as before.
-/

namespace Lib

/-- A multimap, as the sorted list of its pairs. -/
structure Multimap (κ ν : Type) [LinearOrder κ] [LinearOrder ν] where
  entries : List (κ ×ₗ ν)
  sorted : entries.Pairwise (· ≤ ·)

namespace Multimap

variable {κ ν : Type} [LinearOrder κ] [LinearOrder ν]

/-- The multimap without pairs. -/
def empty : Multimap κ ν := ⟨[], .nil⟩

/-- One pair more. -/
def insert (m : Multimap κ ν) (k : κ) (v : ν) : Multimap κ ν :=
  ⟨m.entries.orderedInsert (· ≤ ·) (toLex (k, v)), m.sorted.orderedInsert _ _⟩

/-- The values of a key. -/
def get (m : Multimap κ ν) (k : κ) : List ν :=
  m.entries.filterMap fun e => if (ofLex e).1 = k then some (ofLex e).2 else none

variable {m : Multimap κ ν} {k l : κ} {v w : ν}

@[simp] theorem get_empty : (empty : Multimap κ ν).get k = [] := rfl

theorem mem_get : v ∈ m.get k ↔ toLex (k, v) ∈ m.entries := by
  unfold get
  rw [List.mem_filterMap]
  constructor
  · rintro ⟨e, he, hv⟩
    split at hv
    · rename_i hk
      obtain rfl := Option.some.inj hv
      rw [← hk]
      exact he
    · exact absurd hv (by simp)
  · intro he
    exact ⟨_, he, by simp⟩

@[simp] theorem mem_get_insert : w ∈ (m.insert k v).get l ↔ l = k ∧ w = v ∨ w ∈ m.get l := by
  rw [mem_get, mem_get]
  show toLex (l, w) ∈ m.entries.orderedInsert _ _ ↔ _
  rw [List.mem_orderedInsert]
  exact or_congr_left (by simp)

end Multimap

end Lib
