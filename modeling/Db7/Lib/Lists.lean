import Mathlib.Data.List.Forall2
import Mathlib.Data.List.Nodup

/-!
# Lists, element by element

What a function over a list depends on: its values at the elements (`takeWhile_congr`,
`findSome?_congr_mem`, `mapM_eq_some_iff`), or the element in one place after another
(`modify_length_append`, `modify_last`, `foldl_modify_range`).
-/

namespace Lib

section Congr

variable {α β : Type} {l : List α}

theorem takeWhile_congr {p q : α → Bool} (h : ∀ a ∈ l, p a = q a) :
    l.takeWhile p = l.takeWhile q := by
  induction l with
  | nil => rfl
  | cons a l ih =>
      rw [List.takeWhile_cons, List.takeWhile_cons, h a List.mem_cons_self,
        ih fun b hb => h b (List.mem_cons_of_mem _ hb)]

theorem findSome?_congr_mem {f g : α → Option β} (h : ∀ a ∈ l, f a = g a) :
    l.findSome? f = l.findSome? g := by
  induction l with
  | nil => rfl
  | cons a l ih =>
      rw [List.findSome?_cons, List.findSome?_cons, h a List.mem_cons_self,
        ih fun b hb => h b (List.mem_cons_of_mem _ hb)]

/-- Where `f` gives a value for each element, `mapM` collects them. -/
theorem mapM_eq_some_map {f : α → Option β} {g : α → β} (h : ∀ a ∈ l, f a = some (g a)) :
    l.mapM f = some (l.map g) := by
  induction l with
  | nil => rfl
  | cons a l ih =>
      rw [List.mapM_cons, h a List.mem_cons_self, ih fun b hb => h b (List.mem_cons_of_mem _ hb)]
      rfl

theorem mapM_eq_none {f : α → Option β} {a : α} (ha : a ∈ l) (h : f a = none) :
    l.mapM f = none := by
  induction l with
  | nil => cases ha
  | cons b l ih =>
      rw [List.mapM_cons]
      rcases List.mem_cons.mp ha with rfl | ha
      · rw [h]
        rfl
      · rw [ih ha]
        cases f b <;> rfl

/-- `mapM` collects the values of the elements. -/
theorem mapM_eq_some_iff {f : α → Option β} {bs : List β} :
    l.mapM f = some bs ↔ List.Forall₂ (fun a b => f a = some b) l bs := by
  constructor
  · intro h
    induction l generalizing bs with
    | nil =>
        obtain rfl : bs = [] := by simpa using h.symm
        exact .nil
    | cons a l ih =>
        rw [List.mapM_cons] at h
        obtain ⟨b, hb, h⟩ := Option.bind_eq_some_iff.mp h
        obtain ⟨bs', hbs, h⟩ := Option.bind_eq_some_iff.mp h
        obtain rfl : b :: bs' = bs := Option.some.inj h
        exact .cons hb (ih hbs)
  · intro h
    induction h with
    | nil => rfl
    | cons hb _ ih =>
        rw [List.mapM_cons, hb, ih]
        rfl

/-- Elements whose places in a list without duplicates are all of its places are that list. -/
theorem mapM_idxOf?_iff [BEq α] [LawfulBEq α] {as : List α} (hnodup : l.Nodup) :
    (as.mapM fun a => l.idxOf? a) = some (List.range l.length) ↔ as = l := by
  rw [mapM_eq_some_iff, List.forall₂_iff_get]
  simp only [List.length_range, List.get_eq_getElem, List.getElem_range, List.idxOf?_eq_some_iff]
  constructor
  · rintro ⟨hlen, hplaces⟩
    refine List.ext_getElem hlen fun i hi hi' => ?_
    obtain ⟨_, heq, -⟩ := hplaces i hi hi'
    exact heq.symm
  · rintro rfl
    refine ⟨rfl, fun i hi _ => ⟨hi, rfl, fun j hj heq => ?_⟩⟩
    exact absurd ((List.Nodup.getElem_inj_iff hnodup).mp heq) (by omega)

end Congr

/-- Elements that lie together, behind those with `p`. -/
theorem takeWhile_dropWhile_eq_filter {α : Type} {l : List α} {p q : α → Bool}
    (hpq : ∀ a ∈ l, p a = true → q a = false) (hp : l.Pairwise fun a b => p b = true → p a = true)
    (hq : l.Pairwise fun a b => p a = false → q b = true → q a = true) :
    (l.dropWhile p).takeWhile q = l.filter q := by
  induction l with
  | nil => rfl
  | cons a l ih =>
      obtain ⟨ha, hpq⟩ := List.forall_mem_cons.mp hpq
      obtain ⟨hpa, hp⟩ := List.pairwise_cons.mp hp
      obtain ⟨hqa, hq⟩ := List.pairwise_cons.mp hq
      have ih := ih hpq hp hq
      cases hpa' : p a with
      | true => rw [List.dropWhile_cons_of_pos hpa', ih,
          List.filter_cons_of_neg (by simp [ha hpa'])]
      | false =>
          rw [List.dropWhile_cons_of_neg (by simp [hpa'])]
          cases hqa' : q a with
          | true =>
              -- `p` does not come back
              have hnone : l.dropWhile p = l := by
                cases l with
                | nil => rfl
                | cons b l =>
                    refine List.dropWhile_cons_of_neg fun hb => ?_
                    rw [hpa b List.mem_cons_self hb] at hpa'
                    cases hpa'
              rw [hnone] at ih
              rw [List.takeWhile_cons_of_pos hqa', List.filter_cons_of_pos hqa', ih]
          | false =>
              rw [List.takeWhile_cons_of_neg (by simp [hqa']),
                List.filter_cons_of_neg (by simp [hqa'])]
              symm
              refine List.filter_eq_nil_iff.mpr fun b hb hqb => ?_
              rw [hqa b hb hpa' hqb] at hqa'
              cases hqa'

section Modify

variable {α : Type}

theorem modify_length_append (l rest : List α) (a : α) (f : α → α) :
    (l ++ a :: rest).modify l.length f = l ++ f a :: rest := by
  induction l with
  | nil => rfl
  | cons b l ih => simpa using ih

/-- The last element of a list. -/
theorem modify_last {l : List α} {i : Nat} {r : α} (hr : l[i]? = some r) (hlast : i + 1 = l.length)
    (f : α → α) : l.modify i f = l.take i ++ [f r] := by
  have hl : l = l.take i ++ [r] := by
    have hdrop : l.drop i = [r] := by
      obtain ⟨hlt, rfl⟩ := List.getElem?_eq_some_iff.mp hr
      rw [List.drop_eq_getElem_cons hlt, hlast, List.drop_length]
    rw [← hdrop, List.take_append_drop]
  have hlen : (l.take i).length = i := by
    rw [List.length_take]
    omega
  conv_lhs => rw [hl]
  have h := modify_length_append (l.take i) [] r f
  rwa [hlen] at h

/-- What the change of an element leaves as it is. -/
theorem map_foldl_modify {β : Type} {f : α → α} {g : α → β} (h : ∀ a, g (f a) = g a) (l : List α)
    (ks : List Nat) :
    (ks.foldl (fun l k => l.modify k f) l).map g = l.map g := by
  induction ks generalizing l with
  | nil => rfl
  | cons k ks ih =>
      rw [List.foldl_cons, ih]
      refine List.ext_getElem? fun i => ?_
      rw [List.getElem?_map, List.getElem?_map, List.getElem?_modify]
      cases l[i]? with
      | none => rfl
      | some a =>
          by_cases hk : k = i
          · simp [hk, h]
          · simp [hk]

/-- One place after the other, up to `n`. -/
theorem foldl_modify_range (l : List α) (f : α → α) {n : Nat} (hn : n ≤ l.length) :
    (List.range n).foldl (fun l k => l.modify k f) l = (l.take n).map f ++ l.drop n := by
  induction n with
  | zero => simp
  | succ n ih =>
      have hlen : ((l.take n).map f).length = n := by
        rw [List.length_map, List.length_take]
        omega
      have h := modify_length_append ((l.take n).map f) (l.drop (n + 1)) l[n] f
      rw [hlen, ← List.drop_eq_getElem_cons] at h
      rw [List.range_succ, List.foldl_append, ih (by omega), List.foldl_cons, List.foldl_nil, h,
        List.take_succ_eq_append_getElem (by omega), List.map_append, List.append_assoc]
      rfl

end Modify

end Lib
