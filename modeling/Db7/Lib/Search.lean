import Mathlib.Algebra.Order.Group.Nat
import Mathlib.Data.Int.Order.Basic
import Mathlib.Data.List.Basic
import Mathlib.Data.List.TakeWhile

/-!
# Binary search

Three loops over the indices `0 .. count`, each halving `[lo, hi)`, with one
unit of fuel for every probe:

* `partitionPoint p` ends at the first index where `p` fails;
* `partitionPointNe cmp` does so for `cmp i < 0`, and gives up (`none`) on a
  probe that compares equal;
* `searchEq cmp` stops at a probe that compares equal.

`p` and `cmp` are only asked to be monotone on the searched range.
-/

namespace Lib

/-- `while (lo < hi)`, moving `lo` past a probe that meets `p`. -/
def partitionPoint (p : Nat → Bool) : (fuel lo hi : Nat) → Nat
  | 0, lo, _ => lo
  | fuel + 1, lo, hi =>
      if lo < hi then
        let mid := lo + (hi - lo) / 2
        if p mid then partitionPoint p fuel (mid + 1) hi else partitionPoint p fuel lo mid
      else lo

/-- The same for `cmp i < 0`, asserting that no probe compares equal. -/
def partitionPointNe (cmp : Nat → Int) : (fuel lo hi : Nat) → Option Nat
  | 0, lo, _ => some lo
  | fuel + 1, lo, hi =>
      if lo < hi then
        let mid := lo + (hi - lo) / 2
        if cmp mid = 0 then none
        else if cmp mid < 0 then partitionPointNe cmp fuel (mid + 1) hi
        else partitionPointNe cmp fuel lo mid
      else some lo

/-- The same for `cmp i < 0`, returning a probe that compares equal. -/
def searchEq (cmp : Nat → Int) : (fuel lo hi : Nat) → Nat
  | 0, lo, _ => lo
  | fuel + 1, lo, hi =>
      if lo < hi then
        let mid := lo + (hi - lo) / 2
        if cmp mid = 0 then mid
        else if cmp mid < 0 then searchEq cmp fuel (mid + 1) hi
        else searchEq cmp fuel lo mid
      else lo

theorem partitionPoint_le (p : Nat → Bool) : ∀ fuel lo hi, lo ≤ hi →
    partitionPoint p fuel lo hi ≤ hi := by
  intro fuel
  induction fuel with
  | zero => exact fun _ _ h => h
  | succ fuel ih =>
      intro lo hi hle
      rw [partitionPoint]
      split
      · dsimp only
        split
        · exact ih _ _ (by omega)
        · exact Nat.le_trans (ih _ _ (by omega)) (by omega)
      · exact hle

theorem partitionPointNe_le (cmp : Nat → Int) : ∀ fuel lo hi r, lo ≤ hi →
    partitionPointNe cmp fuel lo hi = some r → r ≤ hi := by
  intro fuel
  induction fuel with
  | zero =>
      intro lo hi r hle h
      obtain rfl : lo = r := by simpa [partitionPointNe] using h
      exact hle
  | succ fuel ih =>
      intro lo hi r hle h
      rw [partitionPointNe] at h
      split at h
      · dsimp only at h
        split at h
        · exact absurd h (by simp)
        · split at h
          · exact ih _ _ r (by omega) h
          · exact Nat.le_trans (ih _ _ r (by omega) h) (by omega)
      · obtain rfl : lo = r := by simpa using h
        exact hle

/-- `r` parts the indices below `n`: `p` holds before it and nowhere after. -/
structure Parts (p : Nat → Bool) (n r : Nat) : Prop where
  le : r ≤ n
  before : ∀ i, i < r → p i = true
  after : ∀ i, r ≤ i → i < n → p i = false

variable {p : Nat → Bool} {cmp : Nat → Int} {n : Nat}

/-- `p` holds below `lo` and fails from `hi` on. -/
structure Between (p : Nat → Bool) (n lo hi : Nat) : Prop where
  le : lo ≤ hi
  bound : hi ≤ n
  before : ∀ i, i < lo → p i = true
  after : ∀ i, hi ≤ i → i < n → p i = false

theorem Between.parts {lo hi : Nat} (h : Between p n lo hi) (hge : hi ≤ lo) : Parts p n lo := by
  have hle := h.le
  exact ⟨Nat.le_trans hle h.bound, h.before, fun i hi => h.after i (by omega)⟩

theorem Between.right {lo hi mid : Nat} (h : Between p n lo hi)
    (hmono : ∀ i j, i ≤ j → j < n → p j = true → p i = true) (hmid : mid < hi)
    (hp : p mid = true) : Between p n (mid + 1) hi :=
  ⟨hmid, h.bound, fun i hi => hmono i mid (by omega) (Nat.lt_of_lt_of_le hmid h.bound) hp, h.after⟩

theorem Between.left {lo hi mid : Nat} (h : Between p n lo hi)
    (hmono : ∀ i j, i ≤ j → j < n → p j = true → p i = true) (hlo : lo ≤ mid) (hmid : mid < hi)
    (hp : p mid = false) : Between p n lo mid := by
  refine ⟨hlo, Nat.le_trans (Nat.le_of_lt hmid) h.bound, h.before, fun i hi hin => ?_⟩
  by_contra hpi
  have := hmono mid i hi hin (by simpa using hpi)
  simp [hp] at this

theorem partitionPoint_between (hmono : ∀ i j, i ≤ j → j < n → p j = true → p i = true) :
    ∀ fuel lo hi, hi - lo ≤ fuel → Between p n lo hi → Parts p n (partitionPoint p fuel lo hi) := by
  intro fuel
  induction fuel with
  | zero => intro lo hi hfuel h; exact h.parts (by omega)
  | succ fuel ih =>
      intro lo hi hfuel h
      rw [partitionPoint]
      split
      · have hmid : lo + (hi - lo) / 2 < hi := by omega
        dsimp only
        split <;> rename_i hp
        · exact ih _ _ (by omega) (h.right hmono hmid hp)
        · exact ih _ _ (by omega) (h.left hmono (by omega) hmid (by simpa using hp))
      · exact h.parts (by omega)

/-- The search over a range on which `p` is monotone. -/
theorem partitionPoint_parts (hmono : ∀ i j, i ≤ j → j < n → p j = true → p i = true) :
    Parts p n (partitionPoint p n 0 n) :=
  partitionPoint_between hmono n 0 n (by omega)
    ⟨Nat.zero_le n, le_rfl, fun i hi => absurd hi (Nat.not_lt_zero i), fun i hi hn => by omega⟩

/-- The search over a list whose elements with `p` come first. -/
theorem drop_partitionPoint {α : Type} {l : List α} {p : α → Bool}
    (hmono : l.Pairwise fun a b => p b = true → p a = true) :
    l.drop (partitionPoint (fun i => (l[i]?).any p) l.length 0 l.length) = l.dropWhile p := by
  obtain ⟨hle, hbefore, hafter⟩ := @partitionPoint_parts (fun i => (l[i]?).any p) l.length (by
    intro i j hij hj h
    rcases Nat.eq_or_lt_of_le hij with rfl | hij
    · exact h
    · rw [List.getElem?_eq_getElem hj, Option.any_some] at h
      rw [List.getElem?_eq_getElem (by omega), Option.any_some]
      exact List.pairwise_iff_getElem.mp hmono i j (by omega) hj hij h)
  generalize partitionPoint (fun i => (l[i]?).any p) l.length 0 l.length = r at hle hbefore hafter
  have htake : ∀ a ∈ l.take r, p a = true := by
    intro a ha
    obtain ⟨i, hi, rfl⟩ := List.getElem_of_mem ha
    rw [List.length_take] at hi
    have h := hbefore i (by omega)
    rwa [List.getElem?_eq_getElem (by omega), Option.any_some,
      ← List.getElem_take (i := i) (j := r)] at h
  conv_rhs => rw [← List.take_append_drop r l, List.dropWhile_append_of_pos htake]
  cases hrest : l.drop r with
  | nil => rfl
  | cons a rest =>
      have hr : r < l.length := by
        by_contra hge
        rw [List.drop_eq_nil_of_le (by omega)] at hrest
        cases hrest
      rw [List.drop_eq_getElem_cons hr] at hrest
      obtain ⟨rfl, -⟩ := List.cons.inj hrest
      have h := hafter r (Nat.le_refl r) hr
      rw [List.getElem?_eq_getElem hr, Option.any_some] at h
      exact (List.dropWhile_cons_of_neg (by simp [h])).symm

/-- An index that compares equal is probed, since it ends up as `hi`. -/
theorem partitionPointNe_between
    (hmono : ∀ i j, i ≤ j → j < n → cmp j < 0 → cmp i < 0) :
    ∀ fuel lo hi, hi - lo ≤ fuel → Between (fun i => decide (cmp i < 0)) n lo hi →
      (hi = n ∨ cmp hi ≠ 0) →
      match partitionPointNe cmp fuel lo hi with
      | none => ∃ i, i < n ∧ cmp i = 0
      | some r => Parts (fun i => decide (cmp i < 0)) n r ∧ (r = n ∨ cmp r ≠ 0) := by
  have hmono' : ∀ i j, i ≤ j → j < n → decide (cmp j < 0) = true → decide (cmp i < 0) = true := by
    simpa using hmono
  intro fuel
  induction fuel with
  | zero =>
      intro lo hi hfuel h hhi
      have := h.le
      obtain rfl : lo = hi := by omega
      exact ⟨h.parts le_rfl, hhi⟩
  | succ fuel ih =>
      intro lo hi hfuel h hhi
      rw [partitionPointNe]
      by_cases hlt : lo < hi
      · have hmid : lo + (hi - lo) / 2 < hi := by omega
        have hbound := h.bound
        simp only [if_pos hlt]
        by_cases hz : cmp (lo + (hi - lo) / 2) = 0
        · simp only [if_pos hz]
          exact ⟨_, by omega, hz⟩
        · simp only [if_neg hz]
          by_cases hneg : cmp (lo + (hi - lo) / 2) < 0
          · simp only [if_pos hneg]
            exact ih _ _ (by omega) (h.right hmono' hmid (by simpa using hneg)) hhi
          · simp only [if_neg hneg]
            exact ih _ _ (by omega) (h.left hmono' (by omega) hmid (by simpa using hneg)) (.inr hz)
      · have := h.le
        obtain rfl : lo = hi := by omega
        rw [if_neg hlt]
        exact ⟨h.parts le_rfl, hhi⟩

/-- A search that does not give up found the place of an element that is not
there. -/
theorem partitionPointNe_some {r : Nat} (hmono : ∀ i j, i ≤ j → j < n → cmp j < 0 → cmp i < 0)
    (h : partitionPointNe cmp n 0 n = some r) :
    Parts (fun i => decide (cmp i < 0)) n r ∧ (r = n ∨ cmp r ≠ 0) := by
  have := partitionPointNe_between hmono n 0 n (by omega)
    ⟨Nat.zero_le n, le_rfl, fun i hi => absurd hi (Nat.not_lt_zero i), fun i hi hn => by omega⟩
    (.inl rfl)
  rwa [h] at this

theorem partitionPointNe_ne_none (hmono : ∀ i j, i ≤ j → j < n → cmp j < 0 → cmp i < 0)
    (hne : ∀ i, i < n → cmp i ≠ 0) : partitionPointNe cmp n 0 n ≠ none := by
  intro h
  have := partitionPointNe_between hmono n 0 n (by omega)
    ⟨Nat.zero_le n, le_rfl, fun i hi => absurd hi (Nat.not_lt_zero i), fun i hi hn => by omega⟩
    (.inl rfl)
  rw [h] at this
  obtain ⟨i, hi, hz⟩ := this
  exact hne i hi hz

theorem searchEq_between (hlow : ∀ i j, i < j → j < n → cmp j ≤ 0 → cmp i < 0) {k : Nat}
    (hk : k < n) (heq : cmp k = 0) :
    ∀ fuel lo hi, hi - lo ≤ fuel → lo ≤ k → k < hi → hi ≤ n → searchEq cmp fuel lo hi = k := by
  have hup : ∀ i, k < i → i < n → 0 < cmp i := by
    intro i hki hi
    by_contra hle
    have := hlow k i hki hi (by omega)
    omega
  intro fuel
  induction fuel with
  | zero => intro lo hi hfuel hlo hhi; omega
  | succ fuel ih =>
      intro lo hi hfuel hlo hhi hn
      rw [searchEq, if_pos (by omega)]
      rcases Nat.lt_trichotomy (lo + (hi - lo) / 2) k with hlt | heq' | hgt
      · have hneg := hlow _ k hlt hk heq.le
        simp only [if_neg hneg.ne, if_pos hneg]
        exact ih _ _ (by omega) (by omega) hhi hn
      · simp only [heq', heq, if_true]
      · have hpos := hup _ hgt (by omega)
        simp only [if_neg hpos.ne', if_neg (not_lt.mpr hpos.le)]
        exact ih _ _ (by omega) hlo hgt (by omega)

/-- An element of a strictly ordered range is found. -/
theorem searchEq_eq (hlow : ∀ i j, i < j → j < n → cmp j ≤ 0 → cmp i < 0) {k : Nat}
    (hk : k < n) (heq : cmp k = 0) : searchEq cmp n 0 n = k :=
  searchEq_between hlow hk heq n 0 n (by omega) (Nat.zero_le k) hk le_rfl

theorem Parts.congr {q : Nat → Bool} {r : Nat} (h : Parts p n r) (hq : ∀ i, i < n → q i = p i) :
    Parts q n r := by
  have hle := h.le
  refine ⟨hle, fun i hi => ?_, fun i hi hn => ?_⟩
  · rw [hq i (by omega)]
    exact h.before i hi
  · rw [hq i hn]
    exact h.after i hi hn

/-- Two parting points are equal. -/
theorem Parts.unique {r r' : Nat} (h : Parts p n r) (h' : Parts p n r') : r = r' := by
  have hle := h.le
  have hle' := h'.le
  rcases Nat.lt_trichotomy r r' with hlt | heq | hgt
  · have h1 := h'.before r hlt
    rw [h.after r le_rfl (by omega)] at h1
    exact absurd h1 (by simp)
  · exact heq
  · have h1 := h.before r' hgt
    rw [h'.after r' le_rfl (by omega)] at h1
    exact absurd h1 (by simp)

/-- A parting point of the indices parts the list. -/
theorem Parts.take_drop {α : Type} {l : List α} {q : α → Bool} {r : Nat}
    (h : Parts p l.length r) (hq : ∀ i (hi : i < l.length), p i = q l[i]) :
    (∀ a ∈ l.take r, q a = true) ∧ ∀ b ∈ l.drop r, q b = false := by
  constructor
  · intro a ha
    obtain ⟨i, hi, rfl⟩ := List.mem_iff_getElem.mp ha
    rw [List.length_take] at hi
    rw [List.getElem_take, ← hq i (by omega)]
    exact h.before i (by omega)
  · intro b hb
    obtain ⟨i, hi, rfl⟩ := List.mem_iff_getElem.mp hb
    rw [List.length_drop] at hi
    rw [List.getElem_drop, ← hq (r + i) (by omega)]
    exact h.after _ (by omega) (by omega)

/-- A parting point counts the elements in front of it. -/
theorem Parts.countP {α : Type} {l : List α} {q : α → Bool} {r : Nat}
    (h : Parts p l.length r) (hq : ∀ i (hi : i < l.length), p i = q l[i]) : l.countP q = r := by
  obtain ⟨hbefore, hafter⟩ := h.take_drop hq
  have hdrop : (l.drop r).countP q = 0 :=
    List.countP_eq_zero.mpr fun b hb => by simp [hafter b hb]
  calc l.countP q
      = (l.take r ++ l.drop r).countP q := by rw [List.take_append_drop]
    _ = (l.take r).countP q + (l.drop r).countP q := List.countP_append
    _ = (l.take r).length := by rw [List.countP_eq_length.mpr hbefore, hdrop, Nat.add_zero]
    _ = r := by rw [List.length_take, Nat.min_eq_left h.le]

/-- A loop that goes on while the predicate holds ends at the parting point. -/
theorem Parts.takeWhile {α : Type} {l : List α} {q : α → Bool} {r : Nat}
    (h : Parts p l.length r) (hq : ∀ i (hi : i < l.length), p i = q l[i]) :
    l.takeWhile q = l.take r := by
  obtain ⟨hbefore, hafter⟩ := h.take_drop hq
  have hstop : (l.drop r).takeWhile q = [] :=
    List.takeWhile_eq_nil_iff.mpr fun hpos =>
      Bool.eq_false_iff.mp (hafter _ (List.getElem_mem hpos))
  calc l.takeWhile q
      = (l.take r ++ l.drop r).takeWhile q := by rw [List.take_append_drop]
    _ = l.take r ++ (l.drop r).takeWhile q := List.takeWhile_append_of_pos hbefore
    _ = l.take r := by rw [hstop, List.append_nil]

/-- Insertion at an index, by its two sides. -/
theorem insertIdx_eq_take_drop {α : Type} (x : α) : ∀ (l : List α) (i : Nat), i ≤ l.length →
    l.insertIdx i x = l.take i ++ x :: l.drop i
  | _, 0, _ => by simp
  | [], i + 1, h => by simp at h
  | a :: l, i + 1, h => by
      rw [List.insertIdx_succ_cons, insertIdx_eq_take_drop x l i (by simpa using h)]
      rfl

end Lib
