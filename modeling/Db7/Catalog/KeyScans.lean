import Db7.Catalog.Invariants
import Db7.Lib.OrderedCode
import Db7.Lib.Search
import Mathlib.Algebra.Order.BigOperators.Group.List

/-!
# Unique checks on the keys of an index

A tree has no columns and ids but keys, one string each. `CheckUnique` goes over them
from the first that is not below the columns, as long as the columns are those it looks
for. So it asks about the tuples under the columns if no columns are a prefix of others,
and a zero byte in the normal form of a name is enough to break this. Text that is not
UTF-8 does not get that far: the encoder throws.

* **keys** (`checkUnique_eq`): among prefix-free columns the loop of `CheckUnique` asks
  about all tuples under the columns;
* **names** (`Encodable`): the columns of rows whose names can be encoded are
  prefix-free (`prefixFree_codes`);
* **runs** (`encoded_reachable`): where the names of all calls can be encoded, every key
  of every index belongs to such a row, and `CheckUnique` finds what `taken` says
  (`conflictFound_eq`).
-/

namespace Db7

open Lib Function KeyNormEncoder CatalogColumnOid DataChunkBuilder

/-! ## Keys -/

section Keys

/-- The entries of an index in the order of their keys. -/
def keyOrder (m : Multimap Key TupleId) : List (Key ×ₗ TupleId) :=
  (m.entries.map fun e => toLex (buildKey (ofLex e).1 (ofLex e).2.value, (ofLex e).2)).insertionSort
    (· ≤ ·)

/-- `CheckUnique` on a leaf with these entries, from `FindStartPosition` on. -/
def checkUnique (entries : List (Key ×ₗ TupleId)) (key : Key) (conflict : TupleId → Bool) : Bool :=
  let start :=
    partitionPoint (fun i => (entries[i]?).any fun e => cmpPrefix (ofLex e).1 key < 0)
      entries.length 0
    entries.length
  let hits := (entries.drop start).takeWhile fun e => cmpPrefix (ofLex e).1 key = 0
  hits.any fun e => conflict (ofLex e).2

variable {m : Multimap Key TupleId} {S : Key → Prop} {p q : Key} {j k n : Nat}

theorem mem_keyOrder {e : Key ×ₗ TupleId} : e ∈ keyOrder m ↔
    ∃ columns tid, tid ∈ m.get columns ∧ e = toLex (buildKey columns tid.value, tid) := by
  unfold keyOrder
  rw [List.mem_insertionSort, List.mem_map]
  constructor
  · rintro ⟨e, he, rfl⟩
    exact ⟨_, _, Multimap.mem_get.mpr he, rfl⟩
  · rintro ⟨columns, tid, hmem, rfl⟩
    exact ⟨_, Multimap.mem_get.mp hmem, rfl⟩

theorem keyOrder_sorted : (keyOrder m).Pairwise fun a b => (ofLex a).1 ≤ (ofLex b).1 := by
  refine (List.pairwise_insertionSort (· ≤ ·) _).imp fun {a b} h => ?_
  rcases Prod.Lex.le_iff.mp h with hlt | ⟨heq, -⟩
  · exact le_of_lt hlt
  · exact le_of_eq heq

/-- The columns of a set without prefixes, shorter than `CmpPrefix` allows. -/
structure Comparable (S : Key → Prop) : Prop where
  prefixFree : PrefixFree S
  short : ∀ p, S p → p.length + 8 < db7MaxRowSize

namespace Comparable

variable (h : Comparable S) (hp : S p) (hq : S q)

include h hp

theorem cmpPrefix_eq_zero : cmpPrefix (buildKey p j) (buildKey q k) = 0 ↔ p = q := by
  have hshort := h.short p hp
  rw [Db7.cmpPrefix_eq_zero (by simp) (by simp) (by simp only [length_buildKey]; omega),
    take_buildKey, take_buildKey]

include hq

theorem not_prefix (hne : p ≠ q) : ¬ p <+: q ∧ ¬ q <+: p :=
  ⟨fun hpre => hne (h.prefixFree p q hp hq hpre),
    fun hpre => hne (h.prefixFree q p hq hp hpre).symm⟩

/-- A key is below the columns when it is below all keys with them. -/
theorem cmpPrefix_neg : cmpPrefix (buildKey p j) (buildKey q k) < 0 ↔ p ≠ q ∧
      buildKey p j < buildKey q n := by
  by_cases hpq : p = q
  · have hzero := (h.cmpPrefix_eq_zero hp (j := j) (k := k)).mpr hpq
    rw [hzero]
    exact iff_of_false (by decide) fun h => h.1 hpq
  · obtain ⟨hpre, hpre'⟩ := h.not_prefix hp hq hpq
    rw [Db7.cmpPrefix_neg hpre hpre' (h.short p hp) j k n]
    exact ⟨fun hlt => ⟨hpq, hlt⟩, fun hlt => hlt.2⟩

end Comparable

namespace Comparable

variable {columns : Key} (h : Comparable S) (hp : S p) (hq : S q) (hcolumns : S columns)
  (hle : buildKey p j ≤ buildKey q n)

include h hp hq hcolumns hle

/-- What comes before a key below the columns is below them. -/
theorem below_of_le (hneg : cmpPrefix (buildKey q n) (buildKey columns k) < 0) :
    cmpPrefix (buildKey p j) (buildKey columns k) < 0 := by
  have hlt : buildKey p j < buildKey columns j :=
    lt_of_le_of_lt hle ((h.cmpPrefix_neg hq hcolumns (n := j)).mp hneg).2
  refine (h.cmpPrefix_neg hp hcolumns).mpr ⟨?_, hlt⟩
  rintro rfl
  exact lt_irrefl _ hlt

/-- The keys with the columns lie together. -/
theorem equal_of_le (hge : ¬ cmpPrefix (buildKey p j) (buildKey columns k) < 0)
    (hzero : cmpPrefix (buildKey q n) (buildKey columns k) = 0) :
    cmpPrefix (buildKey p j) (buildKey columns k) = 0 := by
  obtain rfl := (h.cmpPrefix_eq_zero hq).mp hzero
  refine (h.cmpPrefix_eq_zero hp).mpr ?_
  by_contra hne
  have hnlt : ¬ buildKey p j < buildKey q n :=
    fun hlt => hge ((h.cmpPrefix_neg hp hq).mpr ⟨hne, hlt⟩)
  have heq : buildKey p j = buildKey q n := le_antisymm hle (not_lt.mp hnlt)
  exact hne (by rw [← take_buildKey p j, heq, take_buildKey])

end Comparable

/-- **Among prefix-free columns `CheckUnique` asks about the tuples under its columns.** -/
theorem checkUnique_eq (h : Comparable S) (hm : ∀ columns tid, tid ∈ m.get columns → S columns)
    {columns : Key} (hcolumns : S columns) (conflict : TupleId → Bool) :
    checkUnique (keyOrder m) (buildKey columns k) conflict = (m.get columns).any conflict := by
  have hentry : ∀ e ∈ keyOrder m, ∃ p tid, S p ∧ tid ∈ m.get p ∧
      e = toLex (buildKey p tid.value, tid) := by
    intro e he
    obtain ⟨p, tid, hmem, rfl⟩ := mem_keyOrder.mp he
    exact ⟨p, tid, hm p tid hmem, hmem, rfl⟩
  have hbelow : (keyOrder m).Pairwise fun a b =>
      decide (cmpPrefix (ofLex b).1 (buildKey columns k) < 0) = true →
      decide (cmpPrefix (ofLex a).1 (buildKey columns k) < 0) = true := by
    refine keyOrder_sorted.imp_of_mem fun {a b} ha hb hle hneg => decide_eq_true ?_
    obtain ⟨p, x, hp, -, rfl⟩ := hentry a ha
    obtain ⟨q, y, hq, -, rfl⟩ := hentry b hb
    exact h.below_of_le hp hq hcolumns hle (of_decide_eq_true hneg)
  have htogether : (keyOrder m).Pairwise fun a b =>
      decide (cmpPrefix (ofLex a).1 (buildKey columns k) < 0) = false →
      decide (cmpPrefix (ofLex b).1 (buildKey columns k) = 0) = true →
      decide (cmpPrefix (ofLex a).1 (buildKey columns k) = 0) = true := by
    refine keyOrder_sorted.imp_of_mem fun {a b} ha hb hle hge hzero => decide_eq_true ?_
    obtain ⟨p, x, hp, -, rfl⟩ := hentry a ha
    obtain ⟨q, y, hq, -, rfl⟩ := hentry b hb
    exact h.equal_of_le hp hq hcolumns hle (of_decide_eq_false hge) (of_decide_eq_true hzero)
  have hapart : ∀ e ∈ keyOrder m, decide (cmpPrefix (ofLex e).1 (buildKey columns k) < 0) = true →
      decide (cmpPrefix (ofLex e).1 (buildKey columns k) = 0) = false := by
    intro e _ hneg
    have hlt := of_decide_eq_true hneg
    exact decide_eq_false (by omega)
  unfold checkUnique
  dsimp only
  rw [drop_partitionPoint hbelow, takeWhile_dropWhile_eq_filter hapart hbelow htogether,
    Bool.eq_iff_iff,
    List.any_eq_true, List.any_eq_true]
  constructor
  · rintro ⟨e, he, hconflict⟩
    obtain ⟨he, hzero⟩ := List.mem_filter.mp he
    obtain ⟨p, tid, hp, hmem, rfl⟩ := hentry e he
    obtain rfl := (h.cmpPrefix_eq_zero hp).mp (of_decide_eq_true hzero)
    exact ⟨tid, hmem, hconflict⟩
  · rintro ⟨tid, hmem, hconflict⟩
    refine ⟨_, List.mem_filter.mpr ⟨mem_keyOrder.mpr ⟨columns, tid, hmem, rfl⟩, ?_⟩, hconflict⟩
    exact decide_eq_true ((h.cmpPrefix_eq_zero hcolumns).mpr rfl)

end Keys

/-! ## Names -/

namespace CatalogEnv

variable (env : CatalogEnv)

/-- The text that the encoder reads where a name has been stored: the name itself, if it
is inline. -/
def storedText (chunk : DataChunk) (c : ColOid) (name : List Byte) : List Byte :=
  let ptr := (env.behind chunk c).write 0 (Value.entry name).bytes
  ptr.read 4 (loadLE ptr 4)

/-- `EncodeStringNormalized` returns, with a code that has its first zero at its end and
room in the key buffer. -/
structure Encodes (text : List Byte) : Prop where
  accepted : env.accepts text = true
  nulFree : byte 0 ∉ env.normalize false text
  fits : (env.normalize false text).length < maxEncodedSize .varchar

/-- A name that can be encoded wherever it is stored. -/
def Encodable (name : List Byte) : Prop := ∀ chunk c, env.Encodes (env.storedText chunk c name)

/-- The columns of rows whose names can be encoded. -/
def Codes (index : IndexOid) (columns : Key) : Prop :=
  ∃ (tbl : CatalogTable) (chunk : DataChunk), index.heapTblId = tbl.oid ∧
    DatabaseCatalog.NamedBy env.Encodable tbl chunk ∧ columns = env.columns index chunk

variable {env} {index : IndexOid} {chunk chunk' : DataChunk} {c : ColOid} {name : List Byte}
  {tbl tbl' : CatalogTable}

theorem codes_of_named (htbl : index.heapTblId = tbl.oid)
    (h : DatabaseCatalog.NamedBy env.Encodable tbl chunk) :
    env.Codes index (env.columns index chunk) := ⟨tbl, chunk, htbl, h, rfl⟩

theorem encodable_of_inline (hlen : name.length ≤ inlineSizeCap) (h : env.Encodes name) :
    env.Encodable name := by
  intro chunk c
  have hread : env.storedText chunk c name = name := read_entry _ hlen
  rwa [hread]

/-- The code of a name. -/
theorem columnCode_stored (hget : chunk.get c = some (Value.entry name)) :
    env.columnCode chunk ⟨.varchar, c⟩ =
      env.normalize false (env.storedText chunk c name) ++ [byte 0] := by
  unfold columnCode field
  simp only [hget, Option.map_some, Option.getD_some]
  rfl

/-- The columns of the catalog's indexes. -/
theorem attrs_cases : ∀ t ∈ index.attrs, t.type = .integer ∨ t.type = .smallint ∨
      t.type = .varchar := by
  cases index <;> decide

/-- A text column in an index of the table is its name. -/
theorem nameColumn_of_attrs (htbl : index.heapTblId = tbl.oid) :
    ∀ t ∈ index.attrs, t.type = .varchar → DatabaseCatalog.nameColumn tbl = some t.colId := by
  cases tbl <;> cases index <;> first | exact absurd htbl (by decide) | decide

/-- One column of two rows. -/
theorem orders_columnCode {t : TypeSize} (ht : t ∈ index.attrs) (htbl : index.heapTblId = tbl.oid)
    (hchunk : DatabaseCatalog.NamedBy env.Encodable tbl chunk)
    (hchunk' : DatabaseCatalog.NamedBy env.Encodable tbl chunk') :
    ∃ r r' : List Byte, Orders (env.columnCode chunk t) (env.columnCode chunk' t) r r' ∧
      Orders (env.columnCode chunk' t) (env.columnCode chunk t) r' r := by
  obtain ⟨type, c⟩ := t
  have hnumber :
      (env.columnCode chunk ⟨type, c⟩).length = (env.columnCode chunk' ⟨type, c⟩).length →
      ∃ r r' :
        List Byte, Orders (env.columnCode chunk ⟨type, c⟩) (env.columnCode chunk' ⟨type, c⟩) r r' ∧
        Orders (env.columnCode chunk' ⟨type, c⟩) (env.columnCode chunk ⟨type, c⟩) r' r :=
          fun hlen =>
    ⟨_, _, .of_length hlen Iff.rfl Iff.rfl, .of_length hlen.symm Iff.rfl Iff.rfl⟩
  rcases attrs_cases _ ht with h | h | h
  · obtain rfl : type = .integer := h
    exact hnumber ((length_toBE ..).trans (length_toBE ..).symm)
  · obtain rfl : type = .smallint := h
    exact hnumber ((length_toBE ..).trans (length_toBE ..).symm)
  · obtain rfl : type = .varchar := h
    have hname := nameColumn_of_attrs htbl _ ht rfl
    obtain ⟨name, hencodable, hget⟩ := hchunk c hname
    obtain ⟨name', hencodable', hget'⟩ := hchunk' c hname
    rw [columnCode_stored hget, columnCode_stored hget']
    have hnul := (hencodable chunk c).nulFree
    have hnul' := (hencodable' chunk' c).nulFree
    exact ⟨_, _, .terminated hnul hnul', .terminated hnul' hnul⟩

/-- **No columns of rows whose names can be encoded are a prefix of others.** -/
theorem prefixFree_codes (index : IndexOid) : PrefixFree (env.Codes index) := by
  rintro p q ⟨tbl, chunk, htbl, hchunk, rfl⟩ ⟨tbl', chunk', htbl', hchunk', rfl⟩ hpre
  obtain rfl := CatalogTable.oid_inj (htbl.symm.trans htbl')
  have horders : ∀ types : List TypeSize, (∀ t ∈ types, t ∈ index.attrs) → ∃ r r' :
      List (List Byte),
      Orders (types.map (env.columnCode chunk)).flatten (types.map (env.columnCode chunk')).flatten
        r r' ∧
        Orders (types.map (env.columnCode chunk')).flatten
          (types.map (env.columnCode chunk)).flatten r' r := by
    intro types
    induction types with
    | nil => exact fun _ => ⟨[], [], .nil, .nil⟩
    | cons t types ih =>
        intro hattrs
        obtain ⟨ht, hattrs⟩ := List.forall_mem_cons.mp hattrs
        obtain ⟨r, r', h, h'⟩ := orders_columnCode ht htbl hchunk hchunk'
        obtain ⟨s, s', hs, hs'⟩ := ih hattrs
        exact ⟨r :: s, r' :: s', h.cons hs, h'.cons hs'⟩
  obtain ⟨r, r', h, h'⟩ := horders index.attrs fun _ ht => ht
  rw [columns_eq, columns_eq] at hpre ⊢
  exact h.eq_of_isPrefix h' hpre

/-- They fit in the key buffer. -/
theorem length_codes {columns : Key} (h : env.Codes index columns) :
    columns.length + 8 ≤ maxKeyLen (attrsFor index) := by
  obtain ⟨tbl, chunk, htbl, hchunk, rfl⟩ := h
  have hcode : ∀ t ∈ index.attrs, (env.columnCode chunk t).length ≤ maxEncodedSize t.type := by
    intro t ht
    obtain ⟨type, c⟩ := t
    rcases attrs_cases _ ht with h | h | h
    · obtain rfl : type = .integer := h
      exact le_of_eq (length_toBE ..)
    · obtain rfl : type = .smallint := h
      exact le_of_eq (length_toBE ..)
    · obtain rfl : type = .varchar := h
      obtain ⟨name, hencodable, hget⟩ := hchunk c (nameColumn_of_attrs htbl _ ht rfl)
      have hfits := (hencodable chunk c).fits
      rw [columnCode_stored hget, List.length_append]
      exact hfits
  unfold maxKeyLen
  rw [columns_eq, List.length_flatten, List.map_map, ← IndexOid.attrs_types, List.map_map]
  exact Nat.add_le_add_right (List.sum_le_sum fun t ht => hcode t ht) 8

theorem comparable_codes (index : IndexOid) : Comparable (env.Codes index) where
  prefixFree := prefixFree_codes index
  short p hp := lt_of_le_of_lt ((length_codes hp).trans (maxKeyLen_attrsFor index)) (by decide)

end CatalogEnv

/-! ## Runs -/

namespace DatabaseCatalog

variable {env : CatalogEnv} {t : TxnId} {s : DatabaseCatalog} {chunk : DataChunk} {index : IndexOid}

/-- Every key of every index belongs to a row whose name can be encoded. -/
def Encoded (env : CatalogEnv) (s : DatabaseCatalog) : Prop :=
  ∀ index columns tid, tid ∈ (s.indexes index).get columns → env.Codes index columns

theorem kept_encoded : Kept env t env.Encodable (fun s => SoundFor t s ∧ s.Encoded env) where
  lock _ _ _ hs := ⟨hs.1.of_same rfl rfl rfl, hs.2⟩
  namespaceOid _ hs := ⟨hs.1.of_same rfl rfl rfl, hs.2⟩
  classOid _ hs := ⟨hs.1.of_same rfl rfl rfl, hs.2⟩
  attributeOid _ hs := ⟨hs.1.of_same rfl rfl rfl, hs.2⟩
  constraintOid _ hs := ⟨hs.1.of_same rfl rfl rfl, hs.2⟩
  entry tbl chunk _ hsep hsteps hnamed := ends_insertEntry (fun _ hs => hs.1.1.wellFormed)
    (fun s steps hs hsteps hpass => by
      refine ⟨sound_entered hs.1 hsteps hpass, fun index columns tid hmem => ?_⟩
      rcases mem_entered.mp hmem with ⟨hindex, rfl, -⟩ | hold
      · obtain ⟨step, hstep, hwrites⟩ := mem_written.mp hindex
        exact CatalogEnv.codes_of_named (hsteps step hstep index hwrites).1 hnamed
      · exact hs.2 index columns tid hold) hsep hsteps

/-- The states of a catalog that is given names that can be encoded. -/
inductive ReachableEncoded (env : CatalogEnv) : DatabaseCatalog → Prop
  | init {s : DatabaseCatalog} : s.Init → ReachableEncoded env s
  | step {s : DatabaseCatalog} (a : Action) :
    ReachableEncoded env s → s.Enabled a → (∀ name ∈ a.names, env.Encodable name) →
      ReachableEncoded env (s.call env a)

theorem ReachableEncoded.reachable (h : ReachableEncoded env s) : Reachable env s := by
  induction h with
  | init hi => exact .init hi
  | step a _ henabled _ ih => exact .step a ih henabled

/-- **Every key in a reachable catalog belongs to a row whose name can be encoded.** -/
theorem encoded_reachable (h : ReachableEncoded env s) : s.Encoded env := by
  induction h with
  | init hi =>
      intro index columns tid hmem
      obtain ⟨-, -, -, hindexes, -⟩ := hi
      rw [hindexes] at hmem
      exact absurd hmem List.not_mem_nil
  | @step s a hr henabled hnames ih =>
      by_cases ha : a.ofCatalog = true
      · have hdelete := @ends_deleteEntry env a.txn (fun s => SoundFor a.txn s ∧ s.Encoded env)
          (fun s => SoundFor a.txn s ∧ s.Encoded env) fun s tid tblId hs =>
            ⟨sound_deleteUndoRaw hs.1 tid tblId, hs.2⟩
        exact (kept_encoded.call hdelete ha rfl hnames
          ⟨⟨sound_reachable hr.reachable, active_of_enabled ha henabled⟩, ih⟩).2
      · cases a with
        | begin t | commit t stops | insert t tblId size chunk | write t op slot => exact ih
        | createNamespace | deleteNamespace | updateNamespaceName | createTable | createIndexClass
        | updateTableName | createIndex | createConstraint => exact absurd rfl ha

/-- `CheckUnique` finds a conflict among the keys of the index. -/
def conflictFound (env : CatalogEnv) (t : TxnId) (s : DatabaseCatalog) (index : IndexOid)
    (chunk : DataChunk) (tid : TupleId) : Bool :=
  checkUnique (keyOrder (s.indexes index)) (buildKey (env.columns index chunk) tid.value) fun tid =>
    s.db.hasUniqueConflict t tid index.heapTblId

/-- Where all names can be encoded, it finds what is under the columns. -/
theorem conflictFound_eq (h : s.Encoded env) (hcode : env.Codes index (env.columns index chunk))
    (tid : TupleId) :
    s.conflictFound env t index chunk tid = s.taken env t index chunk :=
  checkUnique_eq (CatalogEnv.comparable_codes index) (h index) hcode _

/-- `InsertUnique`, by the keys. -/
theorem EntryStep.run_insertUnique (h : s.Encoded env)
    (hcode : env.Codes index (env.columns index chunk)) (tid : TupleId) (message : String) :
    (EntryStep.insertUnique index message).run env t chunk tid s =
      if s.conflictFound env t index chunk tid then .error message s else .ok ()
      (s.addEntry env index chunk tid) := by
  rw [EntryStep.run_eq, conflictFound_eq h hcode tid]
  show (if (!s.taken env t index chunk) = true then _ else _) = _
  cases s.taken env t index chunk <;> rfl

end DatabaseCatalog

end Db7
