import Mathlib.Algebra.BigOperators.Group.Finset.Basic
import Mathlib.Algebra.Order.BigOperators.Group.Finset

/-!
# Totals over infinitely many contributors

`HasTotal g n`: finitely many `i` contribute to `g` and together they make `n`.
This is the invariant behind a shared counter that each thread raises and
lowers for itself.
-/

namespace Lib

open Finset

/-- The contributions `g` add up to `n`. -/
def HasTotal {ι : Type} (g : ι → Nat) (n : Nat) : Prop :=
  ∃ F : Finset ι, (∀ i, g i ≠ 0 → i ∈ F) ∧ n = ∑ i ∈ F, g i

namespace HasTotal

variable {ι : Type} {g g' : ι → Nat} {n n' : Nat}

theorem zero : HasTotal (fun _ : ι => 0) 0 := ⟨∅, by simp, by simp⟩

/-- A total of zero means that nobody contributes. -/
theorem eq_zero (h : HasTotal g 0) (i : ι) : g i = 0 := by
  obtain ⟨F, hF, hsum⟩ := h
  by_contra hi
  exact hi (Finset.sum_eq_zero_iff.mp hsum.symm i (hF i hi))

theorem total_zero (h : HasTotal g n) (hg : ∀ i, g i = 0) : n = 0 := by
  obtain ⟨F, -, rfl⟩ := h
  exact Finset.sum_eq_zero fun i _ => hg i

theorem le_total (h : HasTotal g n) (i : ι) : g i ≤ n := by
  obtain ⟨F, hF, rfl⟩ := h
  by_cases hi : g i = 0
  · omega
  · exact Finset.single_le_sum (fun _ _ => Nat.zero_le _) (hF i hi)

/-- Two contributors do not exceed the total. -/
theorem add_le_total [DecidableEq ι] (h : HasTotal g n) {i j : ι} (hij : i ≠ j) :
    g i + g j ≤ n := by
  obtain ⟨F, hF, rfl⟩ := h
  by_cases hi : g i = 0
  · have hle := le_total ⟨F, hF, rfl⟩ j
    omega
  · by_cases hj : g j = 0
    · have hle := le_total ⟨F, hF, rfl⟩ i
      omega
    · rw [← Finset.sum_pair hij]
      refine Finset.sum_le_sum_of_subset fun k hk => ?_
      rcases Finset.mem_insert.mp hk with rfl | hk
      · exact hF k hi
      · exact hF k (Finset.mem_singleton.mp hk ▸ hj)

/-- One contributor alone makes the total. -/
theorem eq_of_alone [DecidableEq ι] (h : HasTotal g n) (i : ι) (hne : ∀ j, j ≠ i → g j = 0) :
    n = g i := by
  obtain ⟨F, hF, rfl⟩ := h
  by_cases hi : i ∈ F
  · exact Finset.sum_eq_single_of_mem i hi fun j _ hj => hne j hj
  · rw [Finset.sum_eq_zero fun j hj => hne j fun hji => hi (hji ▸ hj)]
    by_contra h0
    exact hi (hF i (Ne.symm h0))

/-- One contributor changes its share, and the counter follows. -/
theorem step [DecidableEq ι] (h : HasTotal g n) (i : ι) (hne : ∀ j, j ≠ i → g' j = g j)
    (hn : n' + g i = n + g' i) : HasTotal g' n' := by
  obtain ⟨F, hF, rfl⟩ := h
  refine ⟨insert i F, fun j hj => ?_, ?_⟩
  · by_cases hji : j = i
    · simp [hji]
    · exact Finset.mem_insert_of_mem (hF j (hne j hji ▸ hj))
  · have hrest : ∑ j ∈ F.erase i, g' j = ∑ j ∈ F.erase i, g j :=
      Finset.sum_congr rfl fun j hj => hne j (Finset.ne_of_mem_erase hj)
    have hold : ∑ j ∈ F, g j = g i + ∑ j ∈ F.erase i, g j := by
      by_cases hi : i ∈ F
      · rw [Finset.add_sum_erase F g hi]
      · have : g i = 0 := by
          by_contra h0
          exact hi (hF i h0)
        rw [this, Finset.erase_eq_of_notMem hi, Nat.zero_add]
    have hnew : ∑ j ∈ insert i F, g' j = g' i + ∑ j ∈ F.erase i, g' j := by
      rw [← Finset.add_sum_erase (insert i F) g' (Finset.mem_insert_self i F),
        Finset.erase_insert_eq_erase]
    omega

end HasTotal

end Lib
