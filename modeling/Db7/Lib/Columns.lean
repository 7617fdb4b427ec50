import Mathlib.Algebra.GroupWithZero.Nat
import Mathlib.Order.Basic
import Mathlib.Tactic.Basic

/-!
# Tables stored by columns

A column has a cell of its width for each row, one behind the other. Columns that lie in turn have
no common byte, and neither have two cells:

* **one column** (`cell_apart`, `cell_le_stop`);
* **many** (`InTurn`): the cells are apart, and between the first and the last byte
  (`InTurn.apart`).
-/

namespace Lib

/-- A column: where it starts, and the width of its cells. -/
structure Column where
  start : Nat
  width : Nat

namespace Column

variable {c d : Column} {row row' rows first last : Nat}

/-- Where the cell of a row starts. -/
def cell (c : Column) (row : Nat) : Nat := c.start + row * c.width

/-- Where the column ends. -/
def stop (c : Column) (rows : Nat) : Nat := c.start + rows * c.width

theorem start_le_cell : c.start ≤ c.cell row := Nat.le_add_right _ _

theorem cell_le_stop (h : row < rows) : c.cell row + c.width ≤ c.stop rows := by
  have hle : (row + 1) * c.width ≤ rows * c.width := Nat.mul_le_mul_right _ h
  rw [Nat.succ_mul] at hle
  unfold cell stop
  omega

theorem cell_apart (h : row < row') : c.cell row + c.width ≤ c.cell row' := cell_le_stop h

/-- Cells are aligned as their column is. -/
theorem dvd_cell (h : c.width ∣ c.start) : c.width ∣ c.cell row :=
  Nat.dvd_add h (Nat.dvd_mul_left _ _)

/-- The columns lie one behind the other, from `first` to `last`. -/
structure InTurn (rows first last : Nat) (cols : List Column) : Prop where
  first : ∀ c ∈ cols, first ≤ c.start
  last : ∀ c ∈ cols, c.stop rows ≤ last
  order : cols.Pairwise fun c d => c.stop rows ≤ d.start

namespace InTurn

theorem nil : InTurn rows first last [] where
  first _ h := absurd h List.not_mem_nil
  last _ h := absurd h List.not_mem_nil
  order := .nil

theorem cons {cols : List Column} (hfirst : first ≤ c.start) (hlast : c.stop rows ≤ last)
    (h : InTurn rows (c.stop rows) last cols) : InTurn rows first last (c :: cols) where
  first d hd := by
    rcases List.mem_cons.mp hd with rfl | hd
    · exact hfirst
    · have hstop : c.start ≤ c.stop rows := Nat.le_add_right _ _
      exact Nat.le_trans hfirst (Nat.le_trans hstop (h.first d hd))
  last d hd := by
    rcases List.mem_cons.mp hd with rfl | hd
    · exact hlast
    · exact h.last d hd
  order := .cons h.first h.order

/-- Two different cells have no common byte. -/
theorem apart {cols : List Column} (h : InTurn rows first last cols) {i j : Nat}
    (hi : i < cols.length)
    (hj : j < cols.length) (hrow : row < rows) (hrow' : row' < rows) (hne : i ≠ j ∨ row ≠ row') :
    cols[i].cell row + cols[i].width ≤ cols[j].cell row' ∨ cols[j].cell row' + cols[j].width ≤
      cols[i].cell row := by
  have horder := List.pairwise_iff_getElem.mp h.order
  rcases Nat.lt_trichotomy i j with hlt | rfl | hlt
  · exact .inl
      (Nat.le_trans (cell_le_stop hrow) (Nat.le_trans (horder i j hi hj hlt) start_le_cell))
  · rcases Nat.lt_or_gt_of_ne (hne.resolve_left fun hii => hii rfl) with hlt | hlt
    · exact .inl (cell_apart hlt)
    · exact .inr (cell_apart hlt)
  · exact .inr
      (Nat.le_trans (cell_le_stop hrow') (Nat.le_trans (horder j i hj hi hlt) start_le_cell))

end InTurn

end Column

end Lib
