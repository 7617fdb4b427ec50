import Db7.Lib.Runs
import Db7.Storage.TableFiles

/-!
# Offsets in files of more than 4 GiB

`SubmitPending` and `ExtendFile` multiply 32-bit operands before the product becomes an `off_t`.

* **pages** (`starts_iff`): up to page 2^19 the offset is exact, behind it the product wraps;
* **extensions** (`extendOffset_eq`): a file grows at its end while that is below 2^32;
* **result** (`offsets_exact_iff`): both, for two pages and for every run over one file.
-/

namespace Db7

open Lib

namespace DiskScheduler

/-- What `SubmitPending` passes to `SubmitRead` and to `SubmitWrite`. -/
def offset (pid : UInt32) : UInt32 := (pid - 1) * UInt32.ofNat db7PageSize

/-- The range of a page starts where it should. -/
def Starts (pid : UInt32) : Prop := (offset pid).toNat = (pid.toNat - 1) * db7PageSize

/-- The ranges of two pages are disjoint. -/
def Apart (p q : UInt32) : Prop :=
  (offset p).toNat + db7PageSize ≤ (offset q).toNat ∨ (offset q).toNat + db7PageSize ≤
    (offset p).toNat

section Pages

variable {p q : UInt32}

theorem toNat_offset (hp : 1 ≤ p) : (offset p).toNat = (p.toNat - 1) * db7PageSize % 2 ^ 32 := by
  have hsub : (p - 1).toNat = p.toNat - 1 := UInt32.toNat_sub_of_le _ _ hp
  unfold offset
  rw [UInt32.toNat_mul, hsub]
  rfl

/-- It is the offset of the reads of table files. -/
theorem offset_eq (hp : 1 ≤ p) : (offset p).toNat = TableFile.offset p.toNat := toNat_offset hp

theorem starts_iff (hp : 1 ≤ p) : Starts p ↔ p.toNat ≤ 2 ^ 19 := by
  have hone : 1 ≤ p.toNat := UInt32.le_iff_toNat_le.mp hp
  unfold Starts
  rw [toNat_offset hp]
  show (p.toNat - 1) * 8192 % 2 ^ 32 = (p.toNat - 1) * 8192 ↔ p.toNat ≤ 2 ^ 19
  omega

theorem apart_of_starts (hp : 1 ≤ p) (hq : 1 ≤ q) (hne : p ≠ q) (hstarts : Starts p)
    (hstarts' : Starts q) :
    Apart p q := by
  have hone : 1 ≤ p.toNat := UInt32.le_iff_toNat_le.mp hp
  have hone' : 1 ≤ q.toNat := UInt32.le_iff_toNat_le.mp hq
  have hne' : p.toNat ≠ q.toNat := fun heq => hne (UInt32.toNat_inj.mp heq)
  unfold Starts at hstarts hstarts'
  unfold Apart
  rw [hstarts, hstarts']
  show (p.toNat - 1) * 8192 + 8192 ≤ (q.toNat - 1) * 8192 ∨ (q.toNat - 1) * 8192 + 8192 ≤
    (p.toNat - 1) * 8192
  omega

/-- Pages that are a multiple of 2^19 apart have one range: each overwrites the other. -/
theorem offset_eq_iff (hp : 1 ≤ p) (hq : 1 ≤ q) :
    offset p = offset q ↔ p.toNat % 2 ^ 19 = q.toNat % 2 ^ 19 := by
  have hone : 1 ≤ p.toNat := UInt32.le_iff_toNat_le.mp hp
  have hone' : 1 ≤ q.toNat := UInt32.le_iff_toNat_le.mp hq
  rw [← UInt32.toNat_inj, toNat_offset hp, toNat_offset hq]
  show (p.toNat - 1) * 8192 % 2 ^ 32 = (q.toNat - 1) * 8192 % 2 ^ 32 ↔ _
  omega

end Pages

end DiskScheduler

namespace TableFile

/-- `fallocate`: a length of 0 is refused, and a file that would be too long. -/
def fallocate (file : TableFile) (offset len : Nat) : Option TableFile :=
  if 0 < len ∧ offset + len < 2 ^ 63
    then some { file with length := max file.length (offset + len) } else none

/-- Where `ExtendFile` extends the file. -/
def extendOffset (file : TableFile) : Nat := file.pageCount * db7PageSize % 2 ^ 32

/-- `ExtendFile`; nothing where its assertion fails. The page count is a `u32`. -/
def extendFile (file : TableFile) (pagesNum : UInt64) : Option TableFile :=
  (file.fallocate file.extendOffset (pagesNum.toNat * db7PageSize)).map fun extended =>
    { extended with pageCount := (file.pageCount + pagesNum.toNat) % 2 ^ 32 }

/-- `OpenFile`, with a page count of 32 bits. -/
def reopen (file : TableFile) : TableFile :=
  { file.openFile with pageCount := file.openFile.pageCount % 2 ^ 32 }

end TableFile

/-- What changes a file or its page count. -/
inductive FileGrowth
  | openFile
  | extendFile (pagesNum : UInt64)

namespace TableFile

/-- A call whose assertion fails leaves the file. -/
def step (file : TableFile) : FileGrowth → TableFile
  | .openFile => file.reopen
  | .extendFile pagesNum => (file.extendFile pagesNum).getD file

/-- An extension begins at the end of the file. -/
def ExtendsAtEnd (file : TableFile) (c : FileGrowth) : Prop :=
  ∀ pagesNum, c = .extendFile pagesNum → file.extendOffset = file.length

/-- The file to be extended is shorter than 4 GiB. -/
def Short (file : TableFile) (c : FileGrowth) : Prop :=
  ∀ pagesNum, c = .extendFile pagesNum → file.length < 2 ^ 32

/-- The page count is what 32 bits keep of the number of pages. -/
def Counted (file : TableFile) : Prop :=
  ∃ pages, file.length = pages * db7PageSize ∧ file.pageCount = pages % 2 ^ 32

section Growth

variable {file : TableFile}

theorem counted_createTable (initialPages : UInt32) : (createTable initialPages.toNat).Counted :=
  ⟨initialPages.toNat, rfl, (Nat.mod_eq_of_lt initialPages.toNat_lt).symm⟩

theorem Counted.reopen (h : file.Counted) : file.reopen.Counted := by
  obtain ⟨pages, hlength, -⟩ := h
  refine ⟨pages, hlength, ?_⟩
  show file.length / db7PageSize % 2 ^ 32 = pages % 2 ^ 32
  rw [hlength, Nat.mul_div_cancel _ (by decide)]

theorem extendOffset_eq (h : file.Counted) (hshort : file.length < 2 ^ 32) :
    file.extendOffset = file.length := by
  obtain ⟨pages, hlength, hcount⟩ := h
  unfold extendOffset
  rw [hcount, hlength]
  change file.length = pages * 8192 at hlength
  show pages % 2 ^ 32 * 8192 % 2 ^ 32 = pages * 8192
  omega

theorem Counted.extend (h : file.Counted) (hend : file.extendOffset = file.length)
    (pagesNum : UInt64) :
    ((file.extendFile pagesNum).getD file).Counted := by
  unfold extendFile fallocate
  rw [hend]
  split
  · obtain ⟨pages, hlength, hcount⟩ := h
    refine ⟨pages + pagesNum.toNat, ?_, ?_⟩
    · show max file.length (file.length + pagesNum.toNat * db7PageSize) =
        (pages + pagesNum.toNat) * db7PageSize
      rw [Nat.max_eq_right (Nat.le_add_right _ _), hlength, Nat.add_mul]
    · show (file.pageCount + pagesNum.toNat) % 2 ^ 32 = (pages + pagesNum.toNat) % 2 ^ 32
      rw [hcount, Nat.mod_add_mod]
  · exact h

theorem Counted.step (h : file.Counted) {c : FileGrowth} (hshort : file.Short c) :
    file.ExtendsAtEnd c ∧ (file.step c).Counted := by
  have hend : file.ExtendsAtEnd c := fun pagesNum hc => extendOffset_eq h (hshort pagesNum hc)
  refine ⟨hend, ?_⟩
  cases c with
  | openFile => exact h.reopen
  | extendFile pagesNum => exact h.extend (hend pagesNum rfl) pagesNum

/-- An offset of 32 bits is the end of no longer file. -/
theorem ExtendsAtEnd.short {c : FileGrowth} (hend : file.ExtendsAtEnd c) : file.Short c := by
  intro pagesNum hc
  rw [← hend pagesNum hc]
  exact Nat.mod_lt _ (by decide)

end Growth

/-- **Two pages have disjoint ranges with exact starts, and extensions begin at the end of the file,
exactly when both pages are among the first 2^19 and every file that is extended is shorter than
4 GiB.** -/
theorem offsets_exact_iff (p q : UInt32) (hp : 1 ≤ p) (hq : 1 ≤ q) (hne : p ≠ q)
    (initialPages : UInt32) (calls : List FileGrowth) :
    ((DiskScheduler.Apart p q ∧ DiskScheduler.Starts p ∧ DiskScheduler.Starts q) ∧
        ∀ x ∈ runSteps step (createTable initialPages.toNat) calls, x.1.ExtendsAtEnd x.2) ↔
      (p.toNat ≤ 2 ^ 19 ∧ q.toNat ≤ 2 ^ 19) ∧
        ∀ x ∈ runSteps step (createTable initialPages.toNat) calls, x.1.Short x.2 := by
  have hpages : (DiskScheduler.Apart p q ∧ DiskScheduler.Starts p ∧ DiskScheduler.Starts q) ↔
      p.toNat ≤ 2 ^ 19 ∧ q.toNat ≤ 2 ^ 19 := by
    rw [← DiskScheduler.starts_iff hp, ← DiskScheduler.starts_iff hq]
    exact ⟨And.right, fun h => ⟨DiskScheduler.apart_of_starts hp hq hne h.1 h.2, h⟩⟩
  have hruns :=
    forall_runSteps_iff (P := ExtendsAtEnd) (fun _ _ h hc => h.step hc)
      (fun _ _ _ hend => hend.short)
    (counted_createTable initialPages) calls
  exact and_congr hpages hruns

theorem offsets_exact_small :
    ((DiskScheduler.Apart 1 2 ∧ DiskScheduler.Starts 1 ∧ DiskScheduler.Starts 2) ∧
        ∀ x ∈ runSteps step (createTable (1 : UInt32).toNat) [.extendFile 1],
          x.1.ExtendsAtEnd x.2) ↔
      ((1 : UInt32).toNat ≤ 2 ^ 19 ∧ (2 : UInt32).toNat ≤ 2 ^ 19) ∧
        ∀ x ∈ runSteps step (createTable (1 : UInt32).toNat) [.extendFile 1], x.1.Short x.2 :=
  offsets_exact_iff 1 2 (by decide) (by decide) (by decide) 1 [.extendFile 1]

/-- Page 524289 is read from, and written to, the place of page 1. -/
theorem pages_overlap : ¬∀ p q : UInt32, 1 ≤ p → 1 ≤ q → p ≠ q → ∀ (initialPages : UInt32)
      (calls : List FileGrowth),
    (DiskScheduler.Apart p q ∧ DiskScheduler.Starts p ∧ DiskScheduler.Starts q) ∧
      ∀ x ∈ runSteps step (createTable initialPages.toNat) calls, x.1.ExtendsAtEnd x.2 := by
  intro hall
  have hapart := (hall 1 524289 (by decide) (by decide) (by decide) 1 []).1.1
  rcases hapart with hle | hle
  · exact absurd hle (by decide)
  · exact absurd hle (by decide)

end TableFile

end Db7
