import Db7.Lib.Runs
import Db7.Storage.PaxLayout
import Db7.Storage.TableFiles

/-!
# Rows on a page

The free space manager charges a page with the sizes of chunks; the rows that a page can take come
from `PaxLayout`, with the worst case of padding taken off. The two agree for tables whose
`GetMaxRowCount` chunks would not fit a page.

* **tables** (`TableSchema`): the chunk of the whole schema, and the layout of the same columns;
* **inserts** (`step`): a page from the manager, and one more row in the table's page of that id;
* **result** (`rows_below_iff`): which schemas keep every page below its row count, in every run.
-/

namespace Db7

open Lib Function

/-! ## Tables -/

/-- The sizes of a table's columns: in the order of the schema's map, and by position. -/
structure TableSchema where
  sizes : List UInt16
  positions : List UInt16
  perm : sizes.Perm positions
  typed : ∀ size ∈ sizes, PaxLayout.TypeSize size

namespace TableSchema

/-- `AlignUp`, with the result in a `u32`. -/
def alignUp32 (n : UInt32) (alignment : UInt16) : UInt32 :=
  UInt32.ofNat (alignUp n.toNat alignment.toNat)

/-- `header_size_` for so many columns. -/
def headerSize (columnCount : UInt32) : UInt32 :=
  alignUp32 (8 + 4 * columnCount) 2 + 2 * columnCount

/-- `total_size_` of the `DataChunkLayout` of the schema. -/
def chunkSize (schema : TableSchema) : UInt32 :=
  alignUp32 (schema.sizes.foldl (fun total size => alignUp32 total (min size 8) + size.toUInt32)
    (headerSize (UInt32.ofNat schema.sizes.length))) 8

/-- `GetMaxRowCount` of the table's layout. -/
def maxRowCount (schema : TableSchema) : UInt32 :=
  (PaxLayout.calculateOffsets schema.positions).maxRowCount

/-- A chunk fits an empty page, and as many chunks as the row count do not. -/
def Fits (schema : TableSchema) : Prop :=
  schema.chunkSize.toNat ≤ FreeSpaceManagerVarlen.pageSpace ∧
    FreeSpaceManagerVarlen.pageSpace < schema.maxRowCount.toNat * schema.chunkSize.toNat

end TableSchema

/-! ## Inserts -/

/-- The manager, and `header->count` of each page of each table. -/
structure TablePages where
  fsm : FreeSpaceManagerVarlen
  counts : Nat → Nat → Nat

namespace TablePages

/-- No row on any page. -/
def initial : TablePages := ⟨.initial, fun _ _ => 0⟩

variable (schemas : Nat → TableSchema)

/-- What an insert into a table asks for. -/
def charge (tbl : Nat) : Nat := (schemas tbl).chunkSize.toNat

/-- The page that it is given, as a `u32`. -/
def pageOf (s : TablePages) (tbl : Nat) : Nat := s.fsm.page (charge schemas tbl) % 2 ^ 32

/-- `header->count` after `IncrementHeaderCount`. -/
def countAfter (s : TablePages) (tbl : Nat) : Nat :=
  (s.counts tbl (s.pageOf schemas tbl) + 1) % 2 ^ 32

/-- `Table::Insert` of one chunk. -/
def step (s : TablePages) (tbl : Nat) : TablePages where
  fsm := (s.fsm.get (charge schemas tbl)).2
  counts := update s.counts tbl
    (update (s.counts tbl) (s.pageOf schemas tbl) (s.countAfter schemas tbl))

/-- The assertion of `IncrementHeaderCount` holds, and `free_space` does not wrap. -/
def Placed (s : TablePages) (tbl : Nat) : Prop :=
  s.countAfter schemas tbl < (schemas tbl).maxRowCount.toNat ∧
    charge schemas tbl ≤ if s.fsm.freeSpace < charge schemas tbl
      then FreeSpaceManagerVarlen.pageSpace else s.fsm.freeSpace

/-- `next_page_id` does not wrap. -/
def PagesLeft (s : TablePages) (tbl : Nat) : Prop := s.fsm.page (charge schemas tbl) < 2 ^ 32

/-- The rows of a page take no more than has been charged to it, and a page not begun has none. -/
structure Charged (s : TablePages) : Prop where
  free : s.fsm.freeSpace ≤ FreeSpaceManagerVarlen.pageSpace
  last : ∀ tbl, s.counts tbl s.fsm.nextPageId * charge schemas tbl + s.fsm.freeSpace ≤
    FreeSpaceManagerVarlen.pageSpace
  earlier : ∀ tbl pid, pid < s.fsm.nextPageId → s.counts tbl pid * charge schemas tbl ≤
    FreeSpaceManagerVarlen.pageSpace
  later : ∀ tbl pid, s.fsm.nextPageId < pid → s.counts tbl pid = 0

theorem charged_initial : Charged schemas initial where
  free := Nat.le_refl _
  last tbl := by
    show 0 * charge schemas tbl + FreeSpaceManagerVarlen.pageSpace ≤ _
    rw [Nat.zero_mul, Nat.zero_add]
  earlier tbl pid _ := by
    show 0 * charge schemas tbl ≤ _
    rw [Nat.zero_mul]
    exact Nat.zero_le _
  later _ _ _ := rfl

section Steps

variable {schemas} {s : TablePages} {tbl : Nat}

/-- The chunk goes to the last page, or turns it. -/
theorem get_cases (hfits : charge schemas tbl ≤ FreeSpaceManagerVarlen.pageSpace) :
    (charge schemas tbl ≤ s.fsm.freeSpace ∧ s.fsm.page (charge schemas tbl) = s.fsm.nextPageId ∧
        s.fsm.space (charge schemas tbl) = s.fsm.freeSpace - charge schemas tbl) ∨
      s.fsm.freeSpace < charge schemas tbl ∧ s.fsm.page (charge schemas tbl) =
        s.fsm.nextPageId + 1 ∧
        s.fsm.space (charge schemas tbl) = FreeSpaceManagerVarlen.pageSpace - charge
          schemas tbl := by
  unfold FreeSpaceManagerVarlen.space
  by_cases hturn : s.fsm.freeSpace < charge schemas tbl
  · refine .inr ⟨hturn, if_pos hturn, ?_⟩
    rw [if_pos hturn]
    exact if_pos hfits
  · have hstay : charge schemas tbl ≤ s.fsm.freeSpace := Nat.le_of_not_lt hturn
    refine .inl ⟨hstay, if_neg hturn, ?_⟩
    rw [if_neg hturn]
    exact if_pos hstay

/-- The counts after an insert: one row more, on one page of the table. -/
theorem counts_step (tbl' pid : Nat) : (s.step schemas tbl).counts tbl' pid =
    if tbl' = tbl ∧ pid = s.pageOf schemas tbl then s.countAfter schemas tbl
      else s.counts tbl' pid := by
  show update s.counts tbl _ tbl' pid = _
  by_cases htbl : tbl' = tbl
  · subst htbl
    rw [update_self]
    by_cases hpid : pid = s.pageOf schemas tbl'
    · rw [hpid, update_self, if_pos ⟨rfl, rfl⟩]
    · rw [update_of_ne hpid, if_neg fun h => hpid h.2]
  · rw [update_of_ne htbl, if_neg fun h => htbl h.1]

/-- Where as many chunks as the row count do not fit a page, fewer rows are on each. -/
theorem below_of_charged {count : Nat} (hfits : (schemas tbl).Fits)
    (hcount : count * charge schemas tbl ≤ FreeSpaceManagerVarlen.pageSpace) :
    count < (schemas tbl).maxRowCount.toNat :=
  Nat.lt_of_mul_lt_mul_right (Nat.lt_of_le_of_lt hcount hfits.2)

theorem Charged.placed (h : Charged schemas s) (hfits : (schemas tbl).Fits)
    (hleft : s.PagesLeft schemas tbl) :
    s.countAfter schemas tbl * charge schemas tbl + s.fsm.space (charge schemas tbl) ≤
      FreeSpaceManagerVarlen.pageSpace ∧
      s.Placed schemas tbl := by
  have hpage : s.pageOf schemas tbl = s.fsm.page (charge schemas tbl) := Nat.mod_eq_of_lt hleft
  have hspace : FreeSpaceManagerVarlen.pageSpace = 8188 := rfl
  have hpos : 0 < charge schemas tbl := by
    refine Nat.pos_of_ne_zero fun hzero => ?_
    have hlt : _ < _ * charge schemas tbl := hfits.2
    rw [hzero, Nat.mul_zero] at hlt
    exact Nat.not_lt_zero _ hlt
  -- the rows with the new one, and what is left of the page
  have hroom : (s.counts tbl (s.pageOf schemas tbl) + 1) * charge schemas tbl + s.fsm.space
      (charge schemas tbl) ≤
      FreeSpaceManagerVarlen.pageSpace := by
    rw [hpage, Nat.succ_mul]
    rcases get_cases (s := s) hfits.1 with ⟨hstay, hpid, hfree⟩ | ⟨-, hpid, hfree⟩
    · have hlast := h.last tbl
      rw [hpid, hfree]
      omega
    · have hnone := h.later tbl (s.fsm.nextPageId + 1) (Nat.lt_succ_self _)
      have hle : charge schemas tbl ≤ _ := hfits.1
      rw [hpid, hfree, hnone, Nat.zero_mul]
      omega
  have hsmall : s.counts tbl (s.pageOf schemas tbl) + 1 ≤ 8188 := by
    have hle : (s.counts tbl (s.pageOf schemas tbl) + 1) * 1 ≤
        (s.counts tbl (s.pageOf schemas tbl) + 1) * charge schemas tbl :=
      Nat.mul_le_mul_left _ hpos
    omega
  have hcount : s.countAfter schemas tbl = s.counts tbl (s.pageOf schemas tbl) + 1 :=
    Nat.mod_eq_of_lt (by omega)
  rw [hcount]
  refine ⟨hroom, ?_, ?_⟩
  · rw [hcount]
    exact below_of_charged hfits (Nat.le_trans (Nat.le_add_right _ _) hroom)
  · split
    · exact hfits.1
    · rename_i hstay
      exact Nat.le_of_not_lt hstay

theorem Charged.step (h : Charged schemas s) (hfits : (schemas tbl).Fits)
    (hleft : s.PagesLeft schemas tbl) :
    Charged schemas (s.step schemas tbl) := by
  have hpage : s.pageOf schemas tbl = s.fsm.page (charge schemas tbl) := Nat.mod_eq_of_lt hleft
  have hroom := (h.placed hfits hleft).1
  have hfree := h.free
  have hspace : (s.step schemas tbl).fsm.freeSpace = s.fsm.space (charge schemas tbl) := rfl
  have hnext : (s.step schemas tbl).fsm.nextPageId = s.fsm.page (charge schemas tbl) := rfl
  have hle : s.fsm.nextPageId ≤ s.fsm.page (charge schemas tbl) := s.fsm.le_page _
  refine ⟨?_, fun tbl' => ?_, fun tbl' pid hpid => ?_, fun tbl' pid hpid => ?_⟩
  · rw [hspace]
    omega
  · rw [hspace, hnext, counts_step, hpage]
    split
    · rename_i heq
      rw [heq.1]
      exact hroom
    · -- another table: its rows on the page are those that were there
      rcases get_cases (s := s) hfits.1 with ⟨-, hstay, hleft⟩ | ⟨-, hturn, -⟩
      · have hlast := h.last tbl'
        rw [hstay, hleft]
        omega
      · rw [hturn, h.later tbl' _ (Nat.lt_succ_self _)]
        omega
  · rw [hnext] at hpid
    rw [counts_step, hpage, if_neg fun heq => Nat.ne_of_lt hpid heq.2]
    rcases Nat.lt_trichotomy pid s.fsm.nextPageId with hlt | rfl | hgt
    · exact h.earlier tbl' pid hlt
    · exact Nat.le_trans (Nat.le_add_right _ _) (h.last tbl')
    · rw [h.later tbl' pid hgt, Nat.zero_mul]
      exact Nat.zero_le _
  · rw [hnext] at hpid
    rw [counts_step, hpage, if_neg fun heq => Nat.ne_of_gt hpid heq.2]
    exact h.later tbl' pid (Nat.lt_of_le_of_lt hle hpid)

/-- The first page has so many rows of one table, and nothing else. -/
structure Filled (schemas : Nat → TableSchema) (s : TablePages) (tbl rows : Nat) : Prop where
  page : s.fsm.nextPageId = 1
  free : s.fsm.freeSpace + rows * charge schemas tbl = FreeSpaceManagerVarlen.pageSpace
  rows : s.counts tbl 1 = rows

theorem filled_initial (tbl : Nat) : Filled schemas initial tbl 0 where
  page := rfl
  free := by
    rw [Nat.zero_mul]
    rfl
  rows := rfl

section Filled

variable {rows : Nat}

/-- A chunk that the page has room for goes to it. -/
theorem Filled.stays (h : Filled schemas s tbl rows)
    (hroom : (rows + 1) * charge schemas tbl ≤ FreeSpaceManagerVarlen.pageSpace) :
    charge schemas tbl ≤ s.fsm.freeSpace ∧ s.fsm.page (charge schemas tbl) = 1 ∧
      s.pageOf schemas tbl = 1 := by
  have hfree := h.free
  rw [Nat.succ_mul] at hroom
  have hstay : ¬s.fsm.freeSpace < charge schemas tbl := by omega
  have hpage : s.fsm.page (charge schemas tbl) = 1 := by
    rw [← h.page]
    exact if_neg hstay
  refine ⟨Nat.le_of_not_lt hstay, hpage, ?_⟩
  unfold pageOf
  rw [hpage]
  rfl

theorem Filled.countAfter (h : Filled schemas s tbl rows)
    (hroom : (rows + 1) * charge schemas tbl ≤ FreeSpaceManagerVarlen.pageSpace)
    (hrows : rows + 1 < 2 ^ 32) :
    s.countAfter schemas tbl = rows + 1 := by
  unfold TablePages.countAfter
  rw [(h.stays hroom).2.2, h.rows]
  exact Nat.mod_eq_of_lt hrows

theorem Filled.step (h : Filled schemas s tbl rows)
    (hroom : (rows + 1) * charge schemas tbl ≤ FreeSpaceManagerVarlen.pageSpace)
    (hrows : rows + 1 < 2 ^ 32) : Filled schemas (s.step schemas tbl) tbl (rows + 1) where
  page := (h.stays hroom).2.1
  free := by
    obtain ⟨hstay, -, -⟩ := h.stays hroom
    have hspace : s.fsm.space (charge schemas tbl) = s.fsm.freeSpace - charge schemas tbl := by
      unfold FreeSpaceManagerVarlen.space
      rw [if_neg (Nat.not_lt.mpr hstay)]
      exact if_pos hstay
    have hfree := h.free
    show s.fsm.space (charge schemas tbl) + (rows + 1) * charge schemas tbl = _
    rw [hspace, Nat.succ_mul]
    omega
  rows := by
    rw [counts_step, (h.stays hroom).2.2, if_pos ⟨rfl, rfl⟩]
    exact h.countAfter hroom hrows

/-- Inserts into one table alone stay on its first page while that has room. -/
theorem Filled.pagesLeft (h : Filled schemas s tbl rows) (n : Nat)
    (hroom : (rows + n) * charge schemas tbl ≤ FreeSpaceManagerVarlen.pageSpace)
    (hrows : rows + n < 2 ^ 32) :
    ∀ x ∈ runSteps (TablePages.step schemas) s (List.replicate n tbl),
      x.1.PagesLeft schemas x.2 := by
  induction n generalizing s rows with
  | zero =>
      intro x hx
      cases hx
  | succ n ih =>
      have hone : (rows + 1) * charge schemas tbl ≤ FreeSpaceManagerVarlen.pageSpace :=
        Nat.le_trans (Nat.mul_le_mul_right _ (by omega)) hroom
      rw [List.replicate_succ, forall_runSteps_cons (P := PagesLeft schemas)]
      refine ⟨?_, ih (h.step hone (by omega)) (by rw [Nat.add_right_comm]; exact hroom) (by omega)⟩
      unfold PagesLeft
      rw [(h.stays hone).2.1]
      decide

/-- As many of them as the row count trip the assertion. -/
theorem Filled.not_placed (h : Filled schemas s tbl rows) (n : Nat) (hpos : 0 < n)
    (hroom : (rows + n) * charge schemas tbl ≤ FreeSpaceManagerVarlen.pageSpace)
    (hrows : rows + n < 2 ^ 32) (hmany : (schemas tbl).maxRowCount.toNat ≤ rows + n) :
    ¬∀ x ∈ runSteps (TablePages.step schemas) s (List.replicate n tbl), x.1.Placed schemas x.2 := by
  induction n generalizing s rows with
  | zero => exact absurd hpos (Nat.lt_irrefl 0)
  | succ n ih =>
      have hone : (rows + 1) * charge schemas tbl ≤ FreeSpaceManagerVarlen.pageSpace :=
        Nat.le_trans (Nat.mul_le_mul_right _ (by omega)) hroom
      rw [List.replicate_succ, forall_runSteps_cons (P := Placed schemas)]
      rintro ⟨hplaced, hrest⟩
      rcases Nat.eq_zero_or_pos n with rfl | hn
      · have hlt := hplaced.1
        rw [h.countAfter hone (by omega)] at hlt
        omega
      · exact ih (h.step hone (by omega)) hn (by rw [Nat.add_right_comm]; exact hroom) (by omega)
          (by omega) hrest

end Filled

end Steps

/-- A table whose chunks do not fit overfills a page, or takes more than a page has. -/
theorem fits_of_placed (tbl : Nat)
    (h : ∀ inserts, (∀ x ∈ runSteps (step schemas) initial inserts, x.1.PagesLeft schemas x.2) →
      ∀ x ∈ runSteps (step schemas) initial inserts, x.1.Placed schemas x.2) :
        (schemas tbl).Fits := by
  have hsmall : charge schemas tbl ≤ FreeSpaceManagerVarlen.pageSpace := by
    by_contra hlarge
    have hturn : initial.fsm.freeSpace < charge schemas tbl := Nat.lt_of_not_le hlarge
    have hleft : initial.PagesLeft schemas tbl := by
      unfold PagesLeft FreeSpaceManagerVarlen.page
      rw [if_pos hturn]
      decide
    have hplaced := (forall_runSteps_cons (P := Placed schemas)).mp (h [tbl]
      ((forall_runSteps_cons (P := PagesLeft schemas)).mpr
        ⟨hleft, fun x hx => absurd hx List.not_mem_nil⟩))
    have hle := hplaced.1.2
    rw [if_pos hturn] at hle
    exact hlarge hle
  refine ⟨hsmall, ?_⟩
  by_contra hmany
  have hrows := (schemas tbl).maxRowCount.toNat_lt
  have hroom : (0 + max (schemas tbl).maxRowCount.toNat 1) * charge schemas tbl ≤
      FreeSpaceManagerVarlen.pageSpace := by
    rw [Nat.zero_add]
    rcases Nat.le_total (schemas tbl).maxRowCount.toNat 1 with hle | hle
    · rw [Nat.max_eq_right hle, Nat.one_mul]
      exact hsmall
    · rw [Nat.max_eq_left hle]
      exact Nat.le_of_not_lt hmany
  have hfilled : Filled schemas initial tbl 0 := filled_initial tbl
  exact hfilled.not_placed _ (by omega) hroom (by omega) (by omega)
    (h _ (hfilled.pagesLeft _ hroom (by omega)))

/-- **In every run in which page ids do not wrap each page stays below its row count and the free
space does not wrap, exactly when every table's chunk fits a page, and `GetMaxRowCount` of them do
not.** -/
theorem rows_below_iff :
    (∀ inserts, (∀ x ∈ runSteps (step schemas) initial inserts, x.1.PagesLeft schemas x.2) →
        ∀ x ∈ runSteps (step schemas) initial inserts, x.1.Placed schemas x.2) ↔ ∀ tbl,
          (schemas tbl).Fits := by
  constructor
  · exact fun h tbl => fits_of_placed schemas tbl h
  · intro hfits inserts hleft
    have hinv := inv_of_runSteps (C := PagesLeft schemas)
      (fun s tbl h hleft => Charged.step h (hfits tbl) hleft) (charged_initial schemas) hleft
    exact fun x hx => ((hinv x hx).placed (hfits x.2) (hleft x hx)).2

/-- 200 columns of 16 bytes. -/
def wideSchema : TableSchema where
  sizes := List.replicate 200 16
  positions := List.replicate 200 16
  perm := .refl _
  typed size hsize := by
    rw [List.eq_of_mem_replicate hsize]
    unfold PaxLayout.TypeSize
    decide

/-- The row count is 1: the first row trips the assertion. -/
theorem first_row_asserts : ¬∀ (schemas : Nat → TableSchema) (inserts : List Nat),
    ∀ x ∈ runSteps (step schemas) initial inserts, x.1.Placed schemas x.2 := by
  intro hall
  have hplaced := hall (fun _ => wideSchema) [0] (initial, 0) List.mem_cons_self
  have hcount : ¬1 < wideSchema.maxRowCount.toNat := by decide +kernel
  exact hcount hplaced.1

end TablePages

end Db7
