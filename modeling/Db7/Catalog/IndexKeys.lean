import Db7.Catalog.Rows

/-!
# What the keys of the catalog indexes tell apart

The type of an indexed column is declared twice: in the schema of its table
(`Builder.schemaOf`) and in the attributes of the index (`IndexOid.attrs`). The two
agree except on `attnum` (`declared_of_ne`), so the keys tell the rows of an index
apart except for column rows whose numbers have the same low 16 bits
(`index_keys_faithful`).
-/

namespace Db7

open Lib CatalogColumnOid Value

/-! ## The declared types -/

namespace Builder

/-- `CreateDatabaseSchema`. -/
def createDatabaseSchema : List (ColOid × TypeId) := [(datoid, .integer), (datname, .varchar)]

/-- `CreateNamespaceSchema`. -/
def createNamespaceSchema : List (ColOid × TypeId) := [(nspoid, .integer), (nspname, .varchar)]

/-- `CreateClassSchema`. -/
def createClassSchema : List (ColOid × TypeId) :=
  [(reloid, .integer), (relname, .varchar), (relnamespace, .integer), (relkind, .tinyint),
    (reloptions, .varchar)]

/-- `CreateAttributeSchema`. -/
def createAttributeSchema : List (ColOid × TypeId) :=
  [(attnum, .integer), (attrelid, .integer), (attname, .varchar), (atttypid, .integer),
    (attlen, .smallint), (attnotnull, .boolean)]

/-- `CreateIndexSchema`. -/
def createIndexSchema : List (ColOid × TypeId) :=
  [(indoid, .integer), (indrelid, .integer), (indisunique, .boolean), (indisprimary, .boolean),
    (indisexclusion, .boolean), (indimmediate, .boolean), (indisvalid, .boolean),
    (indisready, .boolean), (indislive, .boolean), (indType, .tinyint)]

/-- `CreateTypeSchema`. -/
def createTypeSchema : List (ColOid × TypeId) :=
  [(typoid, .integer), (typname, .varchar), (typnamespace, .integer), (typlen, .smallint),
    (typbyval, .boolean), (typtype, .tinyint)]

/-- `CreateConstraintSchema`. -/
def createConstraintSchema : List (ColOid × TypeId) :=
  [(conoid, .integer), (conname, .varchar), (connamespace, .integer), (contype, .tinyint),
    (condeferrable, .boolean), (condeffered, .boolean), (convalidated, .boolean),
    (conrelid, .integer), (conindid, .integer), (confrelid, .integer)]

/-- `CreateLanguageSchema`. -/
def createLanguageSchema : List (ColOid × TypeId) :=
  [(lanoid, .integer), (lanname, .varchar), (lanispl, .boolean), (lanpltrusted, .boolean),
    (lanplcallfoid, .integer), (laninline, .integer), (lanvalidator, .integer)]

/-- `CreateProcSchema`. -/
def createProcSchema : List (ColOid × TypeId) :=
  [(prooid, .integer), (proname, .varchar), (pronamespace, .integer), (prolang, .integer),
    (procost, .double), (prorows, .double), (provariadic, .integer), (proisagg, .boolean),
    (proiswindow, .boolean), (proisstrict, .boolean), (proretset, .boolean),
    (provolatile, .tinyint), (pronargs, .smallint), (pronargdefaults, .smallint),
    (prorettype, .integer), (proargtypes, .varbinary), (proallargtypes, .varbinary),
    (proargmodes, .varbinary), (proargdefaults, .varbinary), (proargnames, .varbinary),
    (prosrc, .varchar), (proconfig, .varbinary)]

/-- The schema that `CreateDatabaseCatalog` gives to a table. -/
def schemaOf : Nat → List (ColOid × TypeId)
  | 1 => createDatabaseSchema
  | 2 => createNamespaceSchema
  | 3 => createClassSchema
  | 4 => createIndexSchema
  | 5 => createAttributeSchema
  | 6 => createTypeSchema
  | 7 => createConstraintSchema
  | 8 => createLanguageSchema
  | 9 => createProcSchema
  | _ => []

/-- The columns of the tables that the catalog writes. -/
theorem schemaOf_columns (tbl : CatalogTable) :
    (schemaOf tbl.oid).map Prod.fst = tbl.schema.columns := by
  cases tbl <;> rfl

end Builder

namespace IndexOid

/-- The type that the schema of the indexed table declares for a column. -/
def declared (index : IndexOid) (c : ColOid) : Option TypeId :=
  (Builder.schemaOf index.heapTblId).lookup c

/-- Only `attnum` is indexed with another type than it is declared with. -/
theorem declared_of_ne {index : IndexOid} (h : index ≠ .attributeAttnum) :
    ∀ t ∈ index.attrs, index.declared t.colId = some t.type := by
  cases index <;> first | exact absurd rfl h | decide

theorem declared_attnum : IndexOid.attributeAttnum.declared attnum = some .integer := by decide

/-- The attributes of an index: a number, a text, or a number and a text. -/
inductive Shape (index : IndexOid) : Prop
  | number (c : ColOid) : index.attrs = [⟨.integer, c⟩] → Shape index
  | text (c : ColOid) : index.attrs = [⟨.varchar, c⟩] → Shape index
  | pair (c d : ColOid) : index.attrs = [⟨.integer, c⟩, ⟨.varchar, d⟩] → Shape index

theorem shape_of_ne {index : IndexOid} (h : index ≠ .attributeAttnum) : index.Shape := by
  cases index <;>
    first
    | exact absurd rfl h
    | exact .number _ rfl
    | exact .text _ rfl
    | exact .pair _ _ rfl

end IndexOid

/-! ## Rows -/

/-- The values of a declared type: a number of 32 bits, an inline text, or any bytes
of the size of the type. -/
def TypeId.Holds : TypeId → Value → Prop
  | .integer, v => ∃ n : UInt32, v = number 4 n.toNat
  | .varchar, v => ∃ name, name.length ≤ inlineSizeCap ∧ v = entry name
  | type, v => v.length = type.sizeOf

/-- A row of the indexed table: its indexed columns hold values of their declared types. -/
structure IndexedRow (index : IndexOid) where
  chunk : DataChunk
  typed : ∀ t ∈ index.attrs, ∀ type, index.declared t.colId = some type →
    ∃ v, chunk.get t.colId = some v ∧ type.Holds v

namespace IndexedRow

variable {index : IndexOid} (env : CatalogEnv) (r r' : IndexedRow index)

/-- The bytes of a column. -/
def value (c : ColOid) : Value := (r.chunk.get c).getD []

/-- A column as a number. -/
def numberOf (c : ColOid) : Nat := ofLE (r.value c).bytes

/-- One value for a column, texts compared after normalisation. -/
def AgreeOn (c : ColOid) : TypeId → Prop
  | .varchar => env.normalize false (r.value c).entryText =
    env.normalize false (r'.value c).entryText
  | _ => r.value c = r'.value c

/-- The rows agree on every indexed column. -/
def Agree : Prop :=
  ∀ t ∈ index.attrs, ∀ type, index.declared t.colId = some type → AgreeOn env r r' t.colId type

variable {env r r'} {c d : ColOid}

theorem value_eq {v : Value} (h : r.chunk.get c = some v) : r.value c = v := by
  rw [value, h]
  rfl

theorem ofLE_number (n : UInt32) : ofLE (number 4 n.toNat).bytes = n.toNat := by
  have hlt : n.toNat < 256 ^ 4 := n.toNat_lt
  rw [number, bytes_ofBytes, ofLE_toLE, Nat.mod_eq_of_lt hlt]

theorem numberOf_eq {n : UInt32} (h : r.chunk.get c = some (number 4 n.toNat)) :
    r.numberOf c = n.toNat := by
  rw [numberOf, value_eq h, ofLE_number]

/-- The codes of a number column tell the numbers apart. -/
theorem agreeOn_integer (hr : ∃ v, r.chunk.get c = some v ∧ TypeId.integer.Holds v)
    (hr' : ∃ v, r'.chunk.get c = some v ∧ TypeId.integer.Holds v)
    (h : env.columnCode r.chunk ⟨.integer, c⟩ = env.columnCode r'.chunk ⟨.integer, c⟩) :
    AgreeOn env r r' c .integer := by
  obtain ⟨v, hget, n, rfl⟩ := hr
  obtain ⟨v', hget', n', rfl⟩ := hr'
  rw [CatalogEnv.columnCode_integer hget, CatalogEnv.columnCode_integer hget'] at h
  show r.value c = r'.value c
  rw [value_eq hget, value_eq hget', CatalogEnv.encodeSigned_oid_inj h]

/-- The codes of a text column tell the normalised texts apart. -/
theorem agreeOn_varchar (hr : ∃ v, r.chunk.get c = some v ∧ TypeId.varchar.Holds v)
    (hr' : ∃ v, r'.chunk.get c = some v ∧ TypeId.varchar.Holds v)
    (h : env.columnCode r.chunk ⟨.varchar, c⟩ = env.columnCode r'.chunk ⟨.varchar, c⟩) :
    AgreeOn env r r' c .varchar := by
  obtain ⟨v, hget, name, hlen, rfl⟩ := hr
  obtain ⟨v', hget', name', hlen', rfl⟩ := hr'
  rw [CatalogEnv.columnCode_name hget hlen, CatalogEnv.columnCode_name hget' hlen',
    List.append_left_inj] at h
  show env.normalize false (r.value c).entryText = env.normalize false (r'.value c).entryText
  rw [value_eq hget, value_eq hget', entryText_entry hlen, entryText_entry hlen', h]

variable (env) in
theorem length_columnCode_integer (hr : ∃ v, r.chunk.get c = some v ∧ TypeId.integer.Holds v) :
    (env.columnCode r.chunk ⟨.integer, c⟩).length = 4 := by
  obtain ⟨v, hget, n, rfl⟩ := hr
  rw [CatalogEnv.columnCode_integer hget]
  exact length_toBE ..

/-- Where the two declarations of the types agree, equal keys are keys of rows that agree. -/
theorem agree_of_columns (hne : index ≠ .attributeAttnum)
    (h : env.columns index r.chunk = env.columns index r'.chunk) : Agree env r r' := by
  have hdeclared := IndexOid.declared_of_ne hne
  have hr := fun t ht => r.typed t ht _ (hdeclared t ht)
  have hr' := fun t ht => r'.typed t ht _ (hdeclared t ht)
  have hcodes : ∀ t ∈ index.attrs, AgreeOn env r r' t.colId t.type := by
    rw [CatalogEnv.columns_eq, CatalogEnv.columns_eq] at h
    cases IndexOid.shape_of_ne hne with
    | number c hattrs =>
        rw [hattrs] at h hr hr' ⊢
        simp only [List.mem_singleton, forall_eq] at hr hr' ⊢
        simp only [List.map_cons, List.map_nil, List.flatten_cons, List.flatten_nil,
          List.append_nil] at h
        exact agreeOn_integer hr hr' h
    | text c hattrs =>
        rw [hattrs] at h hr hr' ⊢
        simp only [List.mem_singleton, forall_eq] at hr hr' ⊢
        simp only [List.map_cons, List.map_nil, List.flatten_cons, List.flatten_nil,
          List.append_nil] at h
        exact agreeOn_varchar hr hr' h
    | pair c d hattrs =>
        rw [hattrs] at h hr hr' ⊢
        simp only [List.mem_cons, List.not_mem_nil, or_false, forall_eq_or_imp, forall_eq]
          at hr hr' ⊢
        simp only [List.map_cons, List.map_nil, List.flatten_cons, List.flatten_nil,
          List.append_nil] at h
        -- the number takes four bytes in both keys
        have hlen := (length_columnCode_integer env hr.1).trans
          (length_columnCode_integer env hr'.1).symm
        obtain ⟨hfirst, hrest⟩ := List.append_inj h hlen
        exact ⟨agreeOn_integer hr.1 hr'.1 hfirst, agreeOn_varchar hr.2 hr'.2 hrest⟩
  intro t ht type htype
  rw [hdeclared t ht, Option.some.injEq] at htype
  exact htype ▸ hcodes t ht

/-- Equal keys in the index of `attnum`. -/
theorem columns_attnum_iff {r r' : IndexedRow .attributeAttnum} :
    env.columns .attributeAttnum r.chunk = env.columns .attributeAttnum r'.chunk ↔
      r.numberOf attnum % 2 ^ 16 = r'.numberOf attnum % 2 ^ 16 := by
  obtain ⟨v, hget, n, rfl⟩ :=
    r.typed ⟨.smallint, attnum⟩ List.mem_cons_self _ IndexOid.declared_attnum
  obtain ⟨v', hget', n', rfl⟩ :=
    r'.typed ⟨.smallint, attnum⟩ List.mem_cons_self _ IndexOid.declared_attnum
  rw [CatalogEnv.columns_attnum_eq_iff hget hget', numberOf_eq hget, numberOf_eq hget']

/-- Rows that agree in the index of `attnum`. -/
theorem agree_attnum_iff {r r' : IndexedRow .attributeAttnum} :
    Agree env r r' ↔ r.numberOf attnum = r'.numberOf attnum := by
  obtain ⟨v, hget, n, rfl⟩ :=
    r.typed ⟨.smallint, attnum⟩ List.mem_cons_self _ IndexOid.declared_attnum
  obtain ⟨v', hget', n', rfl⟩ :=
    r'.typed ⟨.smallint, attnum⟩ List.mem_cons_self _ IndexOid.declared_attnum
  have hagree : Agree env r r' ↔ r.value attnum = r'.value attnum := by
    constructor
    · intro h
      exact h ⟨.smallint, attnum⟩ List.mem_cons_self _ IndexOid.declared_attnum
    · intro h t ht type htype
      obtain rfl := List.mem_singleton.mp ht
      obtain rfl := Option.some.inj (IndexOid.declared_attnum.symm.trans htype)
      exact h
  rw [hagree, numberOf_eq hget, numberOf_eq hget', value_eq hget, value_eq hget']
  refine ⟨fun h => ?_, fun h => by rw [h]⟩
  rw [← ofLE_number n, ← ofLE_number n', h]

/-- **Equal keys in a catalog index are keys of rows that agree on the indexed columns,
unless two different column numbers have the same low 16 bits.** -/
theorem index_keys_faithful (env : CatalogEnv) (index : IndexOid) (r r' : IndexedRow index) :
    (env.columns index r.chunk = env.columns index r'.chunk → Agree env r r') ↔
      (index = .attributeAttnum → r.numberOf attnum % 2 ^ 16 = r'.numberOf attnum % 2 ^ 16 →
        r.numberOf attnum = r'.numberOf attnum) := by
  by_cases hindex : index = .attributeAttnum
  · subst hindex
    rw [columns_attnum_iff, agree_attnum_iff]
    exact ⟨fun h _ => h, fun h => h rfl⟩
  · exact ⟨fun _ heq => absurd heq hindex, fun _ h => agree_of_columns hindex h⟩

/-- The row of a column with this oid, as `CreateColumnEntry` builds it. -/
def columnRow (oid : Oid) : IndexedRow .attributeAttnum where
  chunk := DataChunkBuilder.buildAttributeChunk oid 1 [] .integer 4 false
  typed := by
    intro t ht type htype
    obtain rfl := List.mem_singleton.mp ht
    obtain rfl := Option.some.inj (IndexOid.declared_attnum.symm.trans htype)
    exact ⟨_, rfl, oid, rfl⟩

/-- The columns with the oids 1 and 65537 have one key. -/
theorem attnum_keys_collide :
    ¬ ∀ (env : CatalogEnv) (index : IndexOid) (r r' : IndexedRow index),
      env.columns index r.chunk = env.columns index r'.chunk → Agree env r r' := by
  intro hall
  have hequal := hall .plain .attributeAttnum (columnRow 1) (columnRow 65537)
    (columns_attnum_iff.mpr (by decide))
  exact absurd (agree_attnum_iff.mp hequal) (by decide)

end IndexedRow

end Db7
