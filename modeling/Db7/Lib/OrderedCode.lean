import Db7.Lib.Bytes

/-!
# Codes that keep the order

Byte strings that are written one behind the other and compared as a whole. Two
codes `Orders` the ranks of their values when, whatever follows them, the
comparison is that of the ranks, and equal ranks leave it to what follows:

* **numbers** (`Orders.of_length`): codes of one length in the order of their ranks;
* **strings** (`Orders.terminated`): strings without a zero, and a zero at the end;
* **rows** (`Orders.cons`): codes one behind the other have the lexicographic order;
* **prefixes** (`Orders.eq_of_isPrefix`): no code is a proper prefix of another;
* **terminators** (`terminated_inj`): what strings in a row with a terminator each have in common.
-/

namespace Lib

/-- The codes `e` and `e'` of values of the ranks `r` and `r'`. -/
def Orders {β : Type} [LT β] (e e' : List Byte) (r r' : β) : Prop :=
  ∀ x y, e ++ x < e' ++ y ↔ r < r' ∨ r = r' ∧ x < y

theorem append_lt_append_iff (e x y : List Byte) : e ++ x < e ++ y ↔ x < y := by
  induction e with
  | nil => rfl
  | cons b e ih => simp [ih]

/-- The first place where two comparisons differ decides. -/
theorem lex_assoc {p q p' q' z : Prop} :
    p ∨ q ∧ (p' ∨ q' ∧ z) ↔ (p ∨ q ∧ p') ∨ (q ∧ q') ∧ z := by
  constructor
  · rintro (h | ⟨hq, h | ⟨hq', h⟩⟩)
    · exact .inl (.inl h)
    · exact .inl (.inr ⟨hq, h⟩)
    · exact .inr ⟨⟨hq, hq'⟩, h⟩
  · rintro ((h | ⟨hq, h⟩) | ⟨⟨hq, hq'⟩, h⟩)
    · exact .inl h
    · exact .inr ⟨hq, .inl h⟩
    · exact .inr ⟨hq, .inr ⟨hq', h⟩⟩

namespace Orders

section Order

variable {β : Type} [LinearOrder β] {e e' f f' x y : List Byte} {r r' : β} {s s' : List β}

/-- Codes of one length that are in the order of their ranks. -/
theorem of_length (hlen : e.length = e'.length) (hlt : e < e' ↔ r < r') (heq : e = e' ↔ r = r') :
    Orders e e' r r' := by
  intro x y
  rw [← hlt, ← heq]
  clear hlt heq
  induction e generalizing e' with
  | nil =>
      obtain rfl : e' = [] := List.length_eq_zero_iff.mp hlen.symm
      simp
  | cons b e ih =>
      cases e' with
      | nil => exact absurd hlen (by simp)
      | cons b' e' =>
          have ih := @ih e' (by simpa using hlen)
          simp only [List.cons_append, List.cons_lt_cons_iff, List.cons.injEq, ih]
          exact lex_assoc

/-- Nothing is coded as nothing. -/
theorem nil : Orders [] [] ([] : List β) [] := by
  intro x y
  simp

/-- One code behind the other. -/
theorem cons (h : Orders e e' r r') (hs : Orders f f' s s') :
    Orders (e ++ f) (e' ++ f') (r :: s) (r' :: s') := by
  intro x y
  rw [List.append_assoc, List.append_assoc, h, hs, List.cons_lt_cons_iff, List.cons.injEq]
  exact lex_assoc

/-- Equal strings have equal ranks. -/
theorem append_eq_iff (h : Orders e e' r r') (h' : Orders e' e r' r) :
    e ++ x = e' ++ y ↔ r = r' ∧ x = y := by
  have hlt := h x y
  have hgt := h' y x
  constructor
  · intro heq
    rw [heq] at hlt hgt
    have hnot : ¬ r < r' ∧ ¬ (r = r' ∧ x < y) := by simpa using hlt
    have hnot' : ¬ r' < r ∧ ¬ (r' = r ∧ y < x) := by simpa using hgt
    obtain rfl : r = r' := le_antisymm (not_lt.mp hnot'.1) (not_lt.mp hnot.1)
    exact ⟨rfl, le_antisymm (not_lt.mp fun hlt => hnot'.2 ⟨rfl, hlt⟩)
      (not_lt.mp fun hlt => hnot.2 ⟨rfl, hlt⟩)⟩
  · rintro ⟨rfl, rfl⟩
    refine le_antisymm (not_lt.mp ?_) (not_lt.mp ?_)
    · simp [hgt]
    · simp [hlt]

/-- No code is a proper prefix of another. -/
theorem eq_of_isPrefix (h : Orders e e' r r') (h' : Orders e' e r' r) (hpre : e <+: e') :
    e = e' := by
  obtain ⟨t, rfl⟩ := hpre
  have hr : r = r' := by
    rcases lt_trichotomy r r' with hlt | heq | hgt
    · -- with `t` behind both the smaller code is not smaller
      exact absurd ((h (t ++ t) t).mpr (.inl hlt)) (by simp)
    · exact heq
    · exact absurd ((h' t (t ++ t)).mpr (.inl hgt)) (by simp)
  have hend := h [] []
  rw [List.append_nil, List.append_nil] at hend
  have hnot : ¬ e < e ++ t := by simp [hend, hr]
  cases t with
  | nil => rw [List.append_nil]
  | cons b t =>
      have hlt : e ++ [] < e ++ b :: t := (append_lt_append_iff e _ _).mpr (List.nil_lt_cons b t)
      rw [List.append_nil] at hlt
      exact absurd hlt hnot

end Order

/-- Strings without a zero, and a zero at the end. -/
theorem terminated {s s' : List Byte} (hs : byte 0 ∉ s) (hs' : byte 0 ∉ s') :
    Orders (s ++ [byte 0]) (s' ++ [byte 0]) s s' := by
  intro x y
  induction s generalizing s' with
  | nil =>
      cases s' with
      | nil => simp
      | cons b' s' =>
          have hpos : byte 0 < b' := byte_zero_lt fun h => hs' (h ▸ List.mem_cons_self)
          simp [List.cons_lt_cons_iff, hpos]
  | cons b s ih =>
      have hb : byte 0 < b := byte_zero_lt fun h => hs (h ▸ List.mem_cons_self)
      have hs := fun h => hs (List.mem_cons_of_mem b h)
      cases s' with
      | nil => simp [List.cons_lt_cons_iff, hb.not_gt, hb.ne']
      | cons b' s' =>
          have ih := ih hs fun h => hs' (List.mem_cons_of_mem b' h)
          simp only [List.cons_append, List.cons_lt_cons_iff, List.cons.injEq, ih]
          exact lex_assoc

end Orders

/-! ## Terminated strings in a row -/

section Terminated

variable {α : Type} [BEq α] [LawfulBEq α] (a : α) (ts ts' : List (List α))

/-- Cutting terminated strings cuts each at the terminators that it contains. -/
theorem splitOn_terminated :
    (ts.flatMap fun t => t ++ [a]).splitOn a = (ts.flatMap fun t => t.splitOn a) ++ [[]] := by
  induction ts with
  | nil => rfl
  | cons t ts ih =>
      have hcons :
          (t ++ [a]) ++ (ts.flatMap fun t => t ++ [a]) = t ++ a :: ts.flatMap
          fun t => t ++ [a] := by
        rw [List.append_assoc]
        rfl
      rw [List.flatMap_cons, List.flatMap_cons, hcons, List.splitOn_append_cons_self, ih,
        List.append_assoc]

/-- Terminated strings in a row are the same when their pieces are. -/
theorem terminated_inj : (ts.flatMap fun t => t ++ [a]) = (ts'.flatMap fun t => t ++ [a]) ↔
    (ts.flatMap fun t => t.splitOn a) = ts'.flatMap fun t => t.splitOn a := by
  constructor
  · intro heq
    have hsplit := congrArg (List.splitOn a) heq
    rw [splitOn_terminated, splitOn_terminated] at hsplit
    exact List.append_cancel_right hsplit
  · intro heq
    rw [← @List.intercalate_splitOn _ (ts.flatMap fun t => t ++ [a]) _ _ a, splitOn_terminated, heq,
      ← splitOn_terminated,
      List.intercalate_splitOn]

end Terminated

end Lib
