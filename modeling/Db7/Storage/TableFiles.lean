import Db7.Index.KeyOrder
import Mathlib.Logic.Function.Basic

/-!
# Free space and the files of tables

`Table::Insert` asks one free space manager, whatever the table, for the page that takes
its chunk; the descriptor cache has a page count for each file, which nothing extends.
The manager fills pages in turn, and so the page it hands out is one of the file exactly
while all chunks so far, of all tables, need no more pages than this file has
(`insert_pages_allocated_iff`).

* **packing** (`pack`): the chunks of each page, the last page first;
* **the manager** (`packed_get`): it counts the pages of the packing;
* **files** (`TableFile`): the page count, and what a read of a page returns.
-/

namespace Db7

open Function

/-- `FreeSpaceManagerVarlen`. Page ids are not exhausted. -/
structure FreeSpaceManagerVarlen where
  nextPageId : Nat
  freeSpace : Nat
  deriving DecidableEq, Repr

namespace FreeSpaceManagerVarlen

/-- `DB7_PAGE_SIZE - sizeof(PageHeader)`. -/
def pageSpace : Nat := db7PageSize - 4

/-- `next_page_id` after `Get`. -/
def page (fsm : FreeSpaceManagerVarlen) (space : Nat) : Nat :=
  if fsm.freeSpace < space then fsm.nextPageId + 1 else fsm.nextPageId

/-- `free_space` after `Get`; the subtraction of a `u32` wraps. -/
def space (fsm : FreeSpaceManagerVarlen) (space : Nat) : Nat :=
  let free := if fsm.freeSpace < space then pageSpace else fsm.freeSpace
  if space ≤ free then free - space else free + 2 ^ 32 - space

/-- `Get`: a page with room for `space` bytes. -/
def get (fsm : FreeSpaceManagerVarlen) (space : Nat) : Nat × FreeSpaceManagerVarlen :=
  (fsm.page space, ⟨fsm.page space, fsm.space space⟩)

theorem le_page (fsm : FreeSpaceManagerVarlen) (space : Nat) : fsm.nextPageId ≤ fsm.page space := by
  unfold page
  split
  · exact Nat.le_succ _
  · exact Nat.le_refl _

end FreeSpaceManagerVarlen

/-! ## Packing -/

namespace FreeSpaceManagerVarlen

/-- What a page takes. With a chunk that is larger than a page the count of free bytes
has wrapped. -/
def room (chunks : List Nat) : Nat :=
  if chunks.any (pageSpace < ·) then pageSpace + 2 ^ 32 else pageSpace

/-- A chunk goes to the last page that was begun, or to a new one. -/
def place (size : Nat) : List (List Nat) → List (List Nat)
  | [] => [[size]]
  | chunks :: pages =>
      if chunks.sum + size ≤ room chunks then (size :: chunks) :: pages
        else [size] :: chunks :: pages

/-- The pages that the chunks fill, from one that is empty. -/
def pack (sizes : List Nat) : List (List Nat) :=
  sizes.foldl (fun pages size => place size pages) [[]]

theorem pack_append (sizes : List Nat) (size : Nat) :
    pack (sizes ++ [size]) = place size (pack sizes) := by
  unfold pack
  rw [List.foldl_append]
  rfl

/-- The manager counts the pages, and what is left of the last. -/
structure Packed (fsm : FreeSpaceManagerVarlen) (pages : List (List Nat)) : Prop where
  count : fsm.nextPageId = pages.length
  free : ∃ chunks rest, pages = chunks :: rest ∧ fsm.freeSpace + chunks.sum = room chunks

/-- The manager of a process that has just started. -/
def initial : FreeSpaceManagerVarlen := ⟨1, pageSpace⟩

theorem packed_initial : Packed initial (pack []) := ⟨rfl, [], [], rfl, rfl⟩

/-- A chunk that a page has room for leaves its room. -/
theorem room_cons {chunks : List Nat} {size : Nat} (h : chunks.sum + size ≤ room chunks) :
    room (size :: chunks) = room chunks := by
  unfold room at h ⊢
  rw [List.any_cons]
  split at h
  · rename_i hlarge
    rw [hlarge, Bool.or_true]
  · rename_i hsmall
    have hsize : ¬ pageSpace < size := by omega
    rw [decide_eq_false hsize, Bool.false_or]

/-- `Get` places the chunk. -/
theorem packed_get {fsm : FreeSpaceManagerVarlen} {pages : List (List Nat)}
    (h : fsm.Packed pages) {size : Nat}
    (hsize : size < 2 ^ 32) : (fsm.get size).2.Packed (place size pages) := by
  obtain ⟨hcount, chunks, rest, rfl, hfree⟩ := h
  show Packed ⟨fsm.page size, fsm.space size⟩ (place size (chunks :: rest))
  by_cases hfits : chunks.sum + size ≤ room chunks
  · have hstay : ¬ fsm.freeSpace < size := by omega
    have hpage : fsm.page size = fsm.nextPageId := if_neg hstay
    have hspace : fsm.space size = fsm.freeSpace - size := by
      unfold space
      rw [if_neg hstay]
      exact if_pos (by omega)
    have hplace : place size (chunks :: rest) = (size :: chunks) :: rest := if_pos hfits
    rw [hpage, hspace, hplace]
    refine ⟨hcount, size :: chunks, rest, rfl, ?_⟩
    rw [room_cons hfits, List.sum_cons]
    show fsm.freeSpace - size + (size + chunks.sum) = room chunks
    omega
  · have hturn : fsm.freeSpace < size := by omega
    have hpage : fsm.page size = fsm.nextPageId + 1 := if_pos hturn
    have hspace : fsm.space size = if size ≤ pageSpace then pageSpace - size
        else pageSpace + 2 ^ 32 - size := by
      unfold space
      rw [if_pos hturn]
    have hplace : place size (chunks :: rest) = [size] :: chunks :: rest := if_neg hfits
    rw [hpage, hspace, hplace]
    refine ⟨congrArg (· + 1) hcount, [size], chunks :: rest, rfl, ?_⟩
    -- the first chunk of a page decides about its room
    show (if size ≤ pageSpace then pageSpace - size else pageSpace + 2 ^ 32 - size) + [size].sum =
      room [size]
    unfold room
    by_cases hlarge : size ≤ pageSpace
    · have hsmall : ¬ pageSpace < size := by omega
      simp only [if_pos hlarge, List.sum_singleton, List.any_cons, List.any_nil,
        decide_eq_false hsmall]
      simp only [Bool.or_false, Bool.false_eq_true, if_false]
      omega
    · have hlt : pageSpace < size := by omega
      simp only [if_neg hlarge, List.sum_singleton, List.any_cons, decide_eq_true hlt,
        Bool.true_or, if_true]
      omega

end FreeSpaceManagerVarlen

/-! ## Files -/

/-- A table file with the page count of its `FdCacheEntry`. -/
structure TableFile where
  pageCount : Nat
  length : Nat
  deriving DecidableEq, Repr

namespace TableFile

/-- `CreateTable`: the file is allocated. -/
def createTable (initialPages : Nat) : TableFile := ⟨initialPages, initialPages * db7PageSize⟩

/-- `OpenFile`: the page count comes from the length of the file. -/
def openFile (file : TableFile) : TableFile := ⟨file.length / db7PageSize, file.length⟩

/-- The offset of a page, computed in 32 bits. -/
def offset (pid : Nat) : Nat := (pid - 1) * db7PageSize % 2 ^ 32

/-- What a read of a page returns. -/
def read (file : TableFile) (pid : Nat) : Nat := min db7PageSize (file.length - offset pid)

/-- As many pages as the entry says. -/
def Allocated (file : TableFile) : Prop := file.length = file.pageCount * db7PageSize

theorem allocated_createTable (initialPages : Nat) : (createTable initialPages).Allocated := rfl

theorem allocated_openFile {file : TableFile} (h : file.Allocated) : file.openFile = file := by
  obtain ⟨pageCount, length⟩ := file
  obtain rfl : length = pageCount * db7PageSize := h
  unfold openFile
  rw [Nat.mul_div_cancel _ (by decide)]

/-- A page of the file is read in full. -/
theorem read_eq {file : TableFile} (h : file.Allocated) {pid : Nat} (hpos : 1 ≤ pid)
    (hle : pid ≤ file.pageCount) :
    file.read pid = db7PageSize := by
  have hlen : file.length = file.pageCount * db7PageSize := h
  have hoffset : offset pid ≤ (pid - 1) * db7PageSize := Nat.mod_le ..
  have hpages : pid * db7PageSize ≤ file.pageCount * db7PageSize := Nat.mul_le_mul_right _ hle
  have hpid : (pid - 1) * db7PageSize + db7PageSize = pid * db7PageSize := by
    rw [← Nat.succ_mul, Nat.succ_eq_add_one, Nat.sub_add_cancel hpos]
  unfold read
  omega

end TableFile

/-! ## Inserts -/

/-- The free space manager of the process, and the files by table. -/
structure TableFiles where
  fsm : FreeSpaceManagerVarlen
  files : Nat → Option TableFile

/-- The calls that matter: a table is created, or a chunk of a table is inserted. -/
inductive FileCall
  | createOpenFile (tblId initialPages : Nat)
  | insert (tblId : Nat) (size : UInt32)

/-- An insert: the file of its table, the page that it was given, and the sizes of the
chunks up to its own, of all tables. -/
structure Insertion where
  file : TableFile
  page : Nat
  sizes : List Nat

namespace TableFiles

/-- No table, and a manager that has handed out nothing. -/
def initial : TableFiles := ⟨.initial, fun _ => none⟩

/-- `CreateOpenFile`. -/
def createOpenFile (s : TableFiles) (tblId initialPages : Nat) : TableFiles :=
  { s with files := update s.files tblId (some (match s.files tblId with
      | some file => file.openFile
      | none => .createTable initialPages)) }

/-- The inserts among the calls. A table is there before something is inserted into it. -/
def insertions (s : TableFiles) (sizes : List Nat) : List FileCall → List Insertion
  | [] => []
  | .createOpenFile tblId initialPages :: calls =>
      (s.createOpenFile tblId initialPages).insertions sizes calls
  | .insert tblId size :: calls =>
      match s.files tblId with
      | none => s.insertions sizes calls
      | some file =>
          ⟨file, (s.fsm.get size.toNat).1, sizes ++ [size.toNat]⟩ ::
            { s with fsm := (s.fsm.get size.toNat).2 }.insertions (sizes ++ [size.toNat]) calls

end TableFiles

namespace Insertion

/-- The page is one of the file, and read in full. -/
def WithinFile (i : Insertion) : Prop :=
  i.page ≤ i.file.pageCount ∧ i.file.read i.page = db7PageSize

/-- The chunks so far need no more pages than the file has. -/
def Packs (i : Insertion) : Prop := (FreeSpaceManagerVarlen.pack i.sizes).length ≤ i.file.pageCount

end Insertion

namespace TableFiles

/-- The files are allocated, and the manager counts the pages of the chunks so far. -/
structure Kept (s : TableFiles) (sizes : List Nat) : Prop where
  packed : s.fsm.Packed (FreeSpaceManagerVarlen.pack sizes)
  files : ∀ tblId file, s.files tblId = some file → file.Allocated

theorem kept_initial : initial.Kept [] :=
  ⟨FreeSpaceManagerVarlen.packed_initial, fun _ _ h => absurd h (by simp [initial])⟩

theorem Kept.createOpenFile {s : TableFiles} {sizes : List Nat} (h : s.Kept sizes)
    (tblId initialPages : Nat) :
    (s.createOpenFile tblId initialPages).Kept sizes where
  packed := h.packed
  files u file hfile := by
    change update s.files tblId _ u = some file at hfile
    by_cases hu : u = tblId
    · subst hu
      rw [update_self] at hfile
      cases hold : s.files u with
      | none =>
          rw [hold] at hfile
          obtain rfl := Option.some.inj hfile
          exact TableFile.allocated_createTable _
      | some old =>
          rw [hold] at hfile
          obtain rfl := Option.some.inj hfile
          show old.openFile.Allocated
          rw [TableFile.allocated_openFile (h.files u old hold)]
          exact h.files u old hold
    · rw [update_of_ne hu] at hfile
      exact h.files u file hfile

theorem Kept.insert {s : TableFiles} {sizes : List Nat} (h : s.Kept sizes) (size : UInt32) :
    { s with fsm := (s.fsm.get size.toNat).2 }.Kept (sizes ++ [size.toNat]) where
  packed := by
    rw [FreeSpaceManagerVarlen.pack_append]
    exact FreeSpaceManagerVarlen.packed_get h.packed size.toNat_lt
  files := h.files

/-- The page of an insert is the last one of the packing. -/
theorem withinFile_iff {s : TableFiles} {sizes : List Nat} (h : s.Kept sizes) {tblId : Nat}
    {file : TableFile} (hfile : s.files tblId = some file) (size : UInt32) :
    Insertion.WithinFile ⟨file, (s.fsm.get size.toNat).1, sizes ++ [size.toNat]⟩ ↔
      Insertion.Packs ⟨file, (s.fsm.get size.toNat).1, sizes ++ [size.toNat]⟩ := by
  have hcount :
      (s.fsm.get size.toNat).1 = (FreeSpaceManagerVarlen.pack (sizes ++ [size.toNat])).length :=
    (h.insert size).packed.count
  have hpos : 1 ≤ (s.fsm.get size.toNat).1 := by
    obtain ⟨-, chunks, rest, hpages, -⟩ := (h.insert size).packed
    rw [hcount, hpages]
    exact Nat.succ_le_succ (Nat.zero_le _)
  unfold Insertion.WithinFile Insertion.Packs
  rw [← hcount]
  exact ⟨fun hin => hin.1, fun hle => ⟨hle, TableFile.read_eq (h.files tblId file hfile) hpos hle⟩⟩

/-- **Every insert gets a page of its file exactly when at each one the chunks so far need no
more pages than the file has.** -/
theorem insert_pages_allocated_iff (calls : List FileCall) :
    (∀ i ∈ initial.insertions [] calls, i.WithinFile) ↔
      ∀ i ∈ initial.insertions [] calls, i.Packs := by
  have hiff : ∀ (s : TableFiles) (sizes : List Nat), s.Kept sizes → ∀ i ∈ s.insertions sizes calls,
      i.WithinFile ↔ i.Packs := by
    induction calls with
    | nil => exact fun s sizes _ i hi => absurd hi List.not_mem_nil
    | cons call calls ih =>
        intro s sizes h i hi
        cases call with
        | createOpenFile tblId initialPages =>
            exact ih _ sizes (h.createOpenFile tblId initialPages) i hi
        | insert tblId size =>
            unfold insertions at hi
            cases hfile : s.files tblId with
            | none =>
                rw [hfile] at hi
                exact ih s sizes h i hi
            | some file =>
                rw [hfile] at hi
                rcases List.mem_cons.mp hi with rfl | hrest
                · exact withinFile_iff h hfile size
                · exact ih _ _ (h.insert size) i hrest
  exact forall₂_congr fun i hi => hiff initial [] kept_initial i hi

/-- The second of two chunks of 4096 bytes goes to a page that the file does not have. -/
theorem insert_page_not_allocated :
    ¬ ∀ calls : List FileCall, ∀ i ∈ initial.insertions [] calls, i.WithinFile := by
  intro hall
  have hin :=
    hall [.createOpenFile 9 1, .insert 9 4096, .insert 9 4096] ⟨.createTable 1, 2, [4096, 4096]⟩
    (List.mem_cons_of_mem _ List.mem_cons_self)
  exact absurd hin.1 (by decide)

end TableFiles

end Db7
