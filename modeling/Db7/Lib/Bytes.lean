import Mathlib.Algebra.GroupWithZero.Nat
import Mathlib.Data.List.Lex
import Mathlib.Order.BoundedOrder.Basic
import Mathlib.Order.Fin.Basic
import Mathlib.Algebra.Group.Nat.Defs

/-!
# Bytes

Byte-addressed memory with block reads and writes, little- and big-endian
integers, and byte strings in the order in which `memcmp` and then the lengths
compare them. That order is the lexicographic one of lists, so the order facts
of Mathlib apply to keys:

* **blocks** (`Mem.read_write`, `Mem.read_write_of_disjoint`);
* **integers** (`ofLE_toLE`, `ofBE_toBE`, `toBE_lt_iff`), alone and in arrays (`Mem.read_entry`);
* **intervals** (`prefix_of_between`): between two extensions of `p` there are
  only extensions of `p`.
-/

namespace Lib

/-- A byte. -/
abbrev Byte := Fin 256

/-- Byte-addressed memory. -/
abbrev Mem := Nat → Byte

/-- The low byte of `n`. -/
def byte (n : Nat) : Byte := Fin.ofNat 256 n

theorem byte_zero_lt {b : Byte} (h : b ≠ byte 0) : byte 0 < b := Fin.pos_iff_ne_zero.mpr h

namespace Mem

/-- Copy `bs` to address `off`. -/
def write (m : Mem) (off : Nat) (bs : List Byte) : Mem := fun a =>
  if off ≤ a ∧ a < off + bs.length then bs.getD (a - off) 0 else m a

/-- The `n` bytes at address `off`. -/
def read (m : Mem) (off n : Nat) : List Byte := (List.range n).map fun i => m (off + i)

variable {m m' : Mem} {off a n : Nat} {bs : List Byte}

@[simp] theorem length_read : (m.read off n).length = n := by simp [read]

theorem write_of_lt (h : a < off) : m.write off bs a = m a := if_neg (by omega)

theorem write_of_ge (h : off + bs.length ≤ a) : m.write off bs a = m a := if_neg (by omega)

theorem write_outside (h : a < off ∨ off + bs.length ≤ a) : m.write off bs a = m a :=
  if_neg (by omega)

/-- A read depends on the bytes that it covers only. -/
theorem read_congr (h : ∀ i, i < n → m (off + i) = m' (off + i)) : m.read off n = m'.read off n :=
  List.map_congr_left fun i hi => h i (List.mem_range.mp hi)

/-- What was written is read back. -/
@[simp] theorem read_write : (m.write off bs).read off bs.length = bs := by
  refine List.ext_getElem (by simp) fun i hi _ => ?_
  have hlt : i < bs.length := by simpa using hi
  simp [read, write, hlt]

theorem read_write_of_length (h : bs.length = n) : (m.write off bs).read off n = bs := by
  rw [← h]
  exact read_write

/-- A write elsewhere does not change what is read. -/
theorem read_write_of_disjoint (h : off + bs.length ≤ a ∨ a + n ≤ off) :
    (m.write off bs).read a n = m.read a n := by
  refine read_congr fun i hi => ?_
  rcases h with h | h
  · exact write_of_ge (by omega)
  · exact write_of_lt (by omega)

/-- Two adjacent blocks are one. -/
theorem read_add {k : Nat} : m.read off (n + k) = m.read off n ++ m.read (off + n) k := by
  simp only [read, List.range_add, List.map_append, List.map_map]
  congr 1
  exact List.map_congr_left fun i _ => by simp [Nat.add_assoc]

/-- The front of what was written. -/
theorem read_write_append {cs : List Byte} :
    (m.write off (bs ++ cs)).read off bs.length = bs := by
  have h : (m.write off (bs ++ cs)).read off (bs.length + cs.length) = bs ++ cs := by
    simpa using @read_write m off (bs ++ cs)
  rw [read_add] at h
  exact (List.append_inj h (by simp)).1

/-- The rest of what was written. -/
theorem read_write_append_right {cs : List Byte} :
    (m.write off (bs ++ cs)).read (off + bs.length) cs.length = cs := by
  have h : (m.write off (bs ++ cs)).read off (bs.length + cs.length) = bs ++ cs := by
    simpa using @read_write m off (bs ++ cs)
  rw [read_add] at h
  exact (List.append_inj h (by simp)).2

theorem write_nil : m.write off [] = m := by
  funext x
  exact write_outside (by simp only [List.length_nil]; omega)

/-- Two writes, one right behind the other, are one. -/
theorem write_append {cs : List Byte} : m.write off (bs ++ cs) = (m.write off bs).write
      (off + bs.length) cs := by
  funext x
  simp only [write, List.length_append]
  by_cases hfirst : off ≤ x ∧ x < off + bs.length
  · rw [if_pos (by omega), if_neg (by omega), if_pos hfirst, List.getD_eq_getElem?_getD,
      List.getD_eq_getElem?_getD,
      List.getElem?_append_left (by omega)]
  · rw [if_neg hfirst]
    by_cases hsecond : off + bs.length ≤ x ∧ x < off + bs.length + cs.length
    · rw [if_pos (by omega), if_pos hsecond, List.getD_eq_getElem?_getD, List.getD_eq_getElem?_getD,
        List.getElem?_append_right (by omega), Nat.sub_add_eq]
    · rw [if_neg (by omega), if_neg hsecond]

/-- The middle of what was written. -/
theorem read_write_middle {as cs : List Byte} :
    (m.write off (as ++ (bs ++ cs))).read (off + as.length) bs.length = bs := by
  have h := @read_write_append_right m off as (bs ++ cs)
  rw [List.length_append, read_add] at h
  exact (List.append_inj h (by simp)).1

end Mem

/-! ## Integers -/

/-- The low `w` bytes of `n`, least significant first. -/
def toLE : (w n : Nat) → List Byte
  | 0, _ => []
  | w + 1, n => Fin.ofNat 256 n :: toLE w (n / 256)

/-- The number that the bytes make, least significant first. -/
def ofLE : List Byte → Nat
  | [] => 0
  | b :: bs => b + 256 * ofLE bs

theorem ofLE_lt : ∀ bs : List Byte, ofLE bs < 256 ^ bs.length
  | [] => by simp [ofLE]
  | b :: bs => by
      have ih := ofLE_lt bs
      have hb := b.isLt
      rw [ofLE, List.length_cons, Nat.pow_succ]
      omega

@[simp] theorem length_toLE : ∀ w n, (toLE w n).length = w
  | 0, _ => rfl
  | w + 1, n => by simp [toLE, length_toLE w]

theorem ofLE_toLE : ∀ w n, ofLE (toLE w n) = n % 256 ^ w
  | 0, n => by simp [toLE, ofLE, Nat.mod_one]
  | w + 1, n => by
      rw [toLE, ofLE, ofLE_toLE w, Nat.pow_succ, Nat.mul_comm (256 ^ w), Nat.mod_mul]
      rfl

/-! An array of integers of `w` bytes. -/

theorem length_flatMap_toLE (w : Nat) (xs : List Nat) :
    (xs.flatMap (toLE w)).length = w * xs.length := by
  induction xs with
  | nil => rfl
  | cons x xs ih =>
      rw [List.flatMap_cons, List.length_append, length_toLE, ih, List.length_cons,
        Nat.mul_succ, Nat.add_comm]

/-- The entry at an index. -/
theorem Mem.read_entry {m : Mem} {w off i : Nat} {xs : List Nat}
    (h : m.read off (w * xs.length) = xs.flatMap (toLE w))
    (hi : i < xs.length) : m.read (off + w * i) w = toLE w xs[i] := by
  induction xs generalizing off i with
  | nil => exact absurd hi (Nat.not_lt_zero i)
  | cons x xs ih =>
      rw [List.length_cons, Nat.mul_succ, Nat.add_comm (w * xs.length), Mem.read_add,
        List.flatMap_cons] at h
      have hparts := List.append_inj h (by rw [Mem.length_read, length_toLE])
      cases i with
      | zero => exact hparts.1
      | succ i =>
          have hrest := ih hparts.2 (Nat.lt_of_succ_lt_succ hi)
          rw [Nat.add_assoc, Nat.add_comm w, ← Nat.mul_succ] at hrest
          exact hrest

/-- The low `w` bytes of `n`, most significant first. -/
def toBE : (w n : Nat) → List Byte
  | 0, _ => []
  | w + 1, n => Fin.ofNat 256 (n / 256 ^ w) :: toBE w n

/-- The number that the bytes make, most significant first. -/
def ofBE : List Byte → Nat
  | [] => 0
  | b :: bs => b * 256 ^ bs.length + ofBE bs

@[simp] theorem length_toBE : ∀ w n, (toBE w n).length = w
  | 0, _ => rfl
  | w + 1, n => by simp [toBE, length_toBE w]

theorem ofBE_toBE : ∀ w n, ofBE (toBE w n) = n % 256 ^ w
  | 0, n => by simp [toBE, ofBE, Nat.mod_one]
  | w + 1, n => by
      rw [toBE, ofBE, ofBE_toBE w, length_toBE, Nat.pow_succ, Nat.mod_mul, Nat.add_comm,
        Nat.mul_comm]
      rfl

/-- Big-endian bytes are ordered as the numbers are. -/
theorem toBE_lt_iff : ∀ w m n, toBE w m < toBE w n ↔ m % 256 ^ w < n % 256 ^ w
  | 0, m, n => by simp [toBE, Nat.mod_one]
  | w + 1, m, n => by
      have hm : m % 256 ^ w < 256 ^ w := Nat.mod_lt _ (Nat.pow_pos (by decide))
      have hn : n % 256 ^ w < 256 ^ w := Nat.mod_lt _ (Nat.pow_pos (by decide))
      have hhead : ∀ k, (Fin.ofNat 256 (k / 256 ^ w) : Byte).val = k / 256 ^ w % 256 := fun _ => rfl
      rw [toBE, toBE, List.cons_lt_cons_iff, toBE_lt_iff w, Nat.pow_succ, Nat.mod_mul, Nat.mod_mul,
        Fin.lt_def, Fin.ext_iff, hhead, hhead]
      generalize m / 256 ^ w % 256 = a
      generalize n / 256 ^ w % 256 = b
      constructor
      · rintro (hlt | ⟨rfl, hlt⟩)
        · have : 256 ^ w * (a + 1) ≤ 256 ^ w * b := Nat.mul_le_mul_left _ hlt
          rw [Nat.mul_succ] at this
          omega
        · omega
      · intro hlt
        rcases Nat.lt_trichotomy a b with h | h | h
        · exact .inl h
        · subst h
          exact .inr ⟨rfl, by omega⟩
        · have : 256 ^ w * (b + 1) ≤ 256 ^ w * a := Nat.mul_le_mul_left _ h
          rw [Nat.mul_succ] at this
          omega

/-- The bytes only depend on the low part of the number. -/
theorem toBE_congr {w m n : Nat} (h : m % 256 ^ w = n % 256 ^ w) : toBE w m = toBE w n := by
  rcases lt_trichotomy (toBE w m) (toBE w n) with hlt | heq | hgt
  · exact absurd h ((toBE_lt_iff w m n).mp hlt).ne
  · exact heq
  · exact absurd h ((toBE_lt_iff w n m).mp hgt).ne'

theorem ofBE_lt : ∀ bs : List Byte, ofBE bs < 256 ^ bs.length
  | [] => by simp [ofBE]
  | b :: bs => by
      have ih := ofBE_lt bs
      have hb : (b.val + 1) * 256 ^ bs.length ≤ 256 * 256 ^ bs.length :=
        Nat.mul_le_mul_right _ b.isLt
      rw [ofBE, List.length_cons, Nat.pow_succ']
      rw [Nat.succ_mul] at hb
      omega

theorem toBE_ofBE : ∀ bs : List Byte, toBE bs.length (ofBE bs) = bs
  | [] => rfl
  | b :: bs => by
      have hlt := ofBE_lt bs
      have hpos : 0 < 256 ^ bs.length := Nat.pow_pos (by decide)
      have hdiv : (b.val * 256 ^ bs.length + ofBE bs) / 256 ^ bs.length = b.val := by
        rw [Nat.add_comm, Nat.add_mul_div_right _ _ hpos, Nat.div_eq_of_lt hlt, Nat.zero_add]
      have hrest :
          toBE bs.length (b.val * 256 ^ bs.length + ofBE bs) = toBE bs.length (ofBE bs) := by
        refine toBE_congr ?_
        rw [Nat.add_comm, Nat.add_mul_mod_self_right]
      rw [List.length_cons, ofBE, toBE, hdiv, hrest, toBE_ofBE bs]
      simp

/-! ## Byte strings -/

/-- `memcmp` on two blocks, over the shorter of the two. -/
def memcmp : List Byte → List Byte → Int
  | a :: as, b :: bs => if a < b then -1 else if b < a then 1 else memcmp as bs
  | _, _ => 0

/-- The empty string is the least. -/
instance : OrderBot (List Byte) where
  bot := []
  bot_le as := by
    cases as with
    | nil => exact le_rfl
    | cons a as => exact le_of_lt (List.nil_lt_cons a as)

/-- Between two extensions of `p` there are only extensions of `p`. -/
theorem prefix_of_between {p x as bs : List Byte} (hl : p ++ as ≤ x) (hr : x ≤ p ++ bs) :
    p <+: x := by
  induction p generalizing x with
  | nil => exact List.nil_prefix
  | cons c p ih =>
      cases x with
      | nil => exact absurd hl (not_le_of_gt (List.nil_lt_cons _ _))
      | cons d x =>
          rw [List.cons_append, ← not_lt, List.cons_lt_cons_iff, not_or, not_and, not_lt] at hl hr
          obtain rfl : d = c := le_antisymm hr.1 hl.1
          exact List.cons_prefix_cons.mpr ⟨rfl, ih (not_lt.mp (hl.2 rfl)) (not_lt.mp (hr.2 rfl))⟩

end Lib
