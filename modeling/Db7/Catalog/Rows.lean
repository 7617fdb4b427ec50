import Db7.Index.KeyEncoder

/-!
# Rows of the catalog tables

The catalog keeps its objects as rows of ordinary tables. `DataChunkBuilder` fills
a chunk with the columns of one row, and an index reads its columns from the same
chunk (`columns`), as `BuildKey` does (`buildKeyOf_chunk`).

* **oids** (`columns_oid_inj`): two rows have one key in an index of oids exactly
  when they have one oid, except that `attnum` is indexed by its low 16 bits;
* **names** (`columns_name_eq_iff`): two rows with inline names have one key in an
  index of names exactly when the names normalise to one text.
-/

namespace Db7

open Lib

/-- `namespace_oid_t`, `class_oid_t`, `attribute_oid_t` and `constraint_oid_t`. -/
abbrev Oid := UInt32

/-- `INVALID_OID`. -/
def invalidOid : Oid := 0

/-- The tables with a chunk layout in `DatabaseCatalog`. -/
inductive CatalogTable
  | namespaces | classes | attributes | indexes | constraints
  deriving DecidableEq, Repr

/-!
## `CatalogColumnOid`

The columns of all catalog tables: the schemas that `Builder` makes name every one of them.
-/

namespace CatalogColumnOid

abbrev datoid : ColOid := 1
abbrev datname : ColOid := 2
abbrev nspoid : ColOid := 3
abbrev nspname : ColOid := 4
abbrev reloid : ColOid := 5
abbrev relname : ColOid := 6
abbrev relnamespace : ColOid := 7
abbrev relkind : ColOid := 8
abbrev reloptions : ColOid := 9
abbrev attnum : ColOid := 10
abbrev attrelid : ColOid := 11
abbrev attname : ColOid := 12
abbrev atttypid : ColOid := 13
abbrev attlen : ColOid := 14
abbrev attnotnull : ColOid := 15
abbrev indoid : ColOid := 16
abbrev indrelid : ColOid := 17
abbrev indisunique : ColOid := 18
abbrev indisprimary : ColOid := 19
abbrev indisexclusion : ColOid := 20
abbrev indimmediate : ColOid := 21
abbrev indisvalid : ColOid := 22
abbrev indisready : ColOid := 23
abbrev indislive : ColOid := 24
abbrev indType : ColOid := 25
abbrev typoid : ColOid := 26
abbrev typname : ColOid := 27
abbrev typnamespace : ColOid := 28
abbrev typlen : ColOid := 29
abbrev typbyval : ColOid := 30
abbrev typtype : ColOid := 31
abbrev conoid : ColOid := 32
abbrev conname : ColOid := 33
abbrev connamespace : ColOid := 34
abbrev contype : ColOid := 35
abbrev condeferrable : ColOid := 36
abbrev condeffered : ColOid := 37
abbrev convalidated : ColOid := 38
abbrev conrelid : ColOid := 39
abbrev conindid : ColOid := 40
abbrev confrelid : ColOid := 41
abbrev lanoid : ColOid := 42
abbrev lanname : ColOid := 43
abbrev lanispl : ColOid := 44
abbrev lanpltrusted : ColOid := 45
abbrev lanplcallfoid : ColOid := 46
abbrev laninline : ColOid := 47
abbrev lanvalidator : ColOid := 48
abbrev prooid : ColOid := 49
abbrev proname : ColOid := 50
abbrev pronamespace : ColOid := 51
abbrev prolang : ColOid := 52
abbrev procost : ColOid := 53
abbrev prorows : ColOid := 54
abbrev provariadic : ColOid := 55
abbrev proisagg : ColOid := 56
abbrev proiswindow : ColOid := 57
abbrev proisstrict : ColOid := 58
abbrev proretset : ColOid := 59
abbrev provolatile : ColOid := 60
abbrev pronargs : ColOid := 61
abbrev pronargdefaults : ColOid := 62
abbrev prorettype : ColOid := 63
abbrev proargtypes : ColOid := 64
abbrev proallargtypes : ColOid := 65
abbrev proargmodes : ColOid := 66
abbrev proargdefaults : ColOid := 67
abbrev proargnames : ColOid := 68
abbrev prosrc : ColOid := 69
abbrev proconfig : ColOid := 70

end CatalogColumnOid

open CatalogColumnOid

namespace CatalogTable

/-- `CatalogTableOid`. -/
def oid : CatalogTable → Nat
  | namespaces => 2
  | classes => 3
  | indexes => 4
  | attributes => 5
  | constraints => 7

theorem oid_inj {a b : CatalogTable} (h : a.oid = b.oid) : a = b := by
  cases a <;> cases b <;> first | rfl | exact absurd h (by decide)

/-- The schemas of `Builder`. -/
def schema : CatalogTable → Schema
  | namespaces => ⟨[nspoid, nspname], by decide⟩
  | classes => ⟨[reloid, relname, relnamespace, relkind, reloptions], by decide⟩
  | attributes => ⟨[attnum, attrelid, attname, atttypid, attlen, attnotnull], by decide⟩
  | indexes =>
      ⟨[indoid, indrelid, indisunique, indisprimary, indisexclusion, indimmediate, indisvalid,
      indisready, indislive, indType], by decide⟩
  | constraints =>
      ⟨[conoid, conname, connamespace, contype, condeferrable, condeffered, convalidated,
      conrelid, conindid, confrelid], by decide⟩

/-- `CreateDataChunk` of the table's layout; the fields are not initialised. -/
def createDataChunk (tbl : CatalogTable) : DataChunk := tbl.schema.columns.map fun id => (id, [])

end CatalogTable

/-! ## Field values -/

namespace Value

/-- The bytes of a value. -/
def bytes (v : Value) : List Byte := v.map UInt8.toFin

/-- The value with these bytes. -/
def ofBytes (bs : List Byte) : Value := bs.map UInt8.ofFin

@[simp] theorem bytes_ofBytes (bs : List Byte) : (ofBytes bs).bytes = bs := by
  unfold ofBytes bytes
  rw [List.map_map]
  exact List.map_id bs

/-- A number of `w` bytes. -/
def number (w n : Nat) : Value := ofBytes (toLE w n)

/-- `VarlenEntry::Set`, up to the bytes that it leaves as they are. -/
def entry (name : List Byte) : Value := ofBytes (toLE 4 name.length ++ name.take inlineSizeCap)

/-- `GetSize` bytes from `GetInline` on. -/
def entryText (v : Value) : List Byte := (v.bytes.drop 4).take (ofLE (v.bytes.take 4))

/-- An inline text is read back. -/
theorem entryText_entry {name : List Byte} (h : name.length ≤ inlineSizeCap) :
    (entry name).entryText = name := by
  have hcap : inlineSizeCap = 12 := rfl
  unfold entryText entry
  rw [bytes_ofBytes, List.take_of_length_le h]
  have hdrop : (toLE 4 name.length ++ name).drop 4 = name := List.drop_left' (by simp)
  have htake : (toLE 4 name.length ++ name).take 4 = toLE 4 name.length := List.take_left' (by simp)
  rw [hdrop, htake, ofLE_toLE, Nat.mod_eq_of_lt (by omega), List.take_length]

end Value

open Value

/-- `RelKind`, as the character that is stored. -/
inductive RelKind
  | regularTable | index
  deriving DecidableEq, Repr

namespace RelKind

/-- `ToChar`. -/
def toChar : RelKind → Nat
  | regularTable => 0x72
  | index => 0x69

end RelKind

/-- `ConType`, as the character that is stored. -/
inductive ConType
  | check | foreignKey | notNull | primaryKey | unique | constraintTrigger | exclusion
  deriving DecidableEq, Repr

namespace ConType

/-- `ToChar`. -/
def toChar : ConType → Nat
  | check => 0x63
  | foreignKey => 0x66
  | notNull => 0x6e
  | primaryKey => 0x70
  | unique => 0x75
  | constraintTrigger => 0x74
  | exclusion => 0x78

end ConType

namespace TypeId

/-- The number of the enumerator. -/
def code : TypeId → Nat
  | boolean => 0
  | tinyint => 1
  | smallint => 2
  | integer => 3
  | bigint => 4
  | utinyint => 5
  | usmallint => 6
  | uinteger => 7
  | ubigint => 8
  | double => 9
  | varchar => 10
  | varbinary => 11

/-- `SizeOf`. -/
def sizeOf : TypeId → Nat
  | boolean | tinyint | utinyint => 1
  | smallint | usmallint => 2
  | integer | uinteger => 4
  | bigint | ubigint | double => 8
  | varchar | varbinary => 16

end TypeId

/-- `SchemaColumn`, as the catalog reads it. -/
structure SchemaColumn where
  name : List Byte
  type : TypeId
  isNullable : Bool

/-- The columns of an `access::Schema` in the order of its iterator, which the map
behind it leaves open. -/
abbrev SchemaColumns := List SchemaColumn

/-- `IndexSchema`. -/
structure IndexSchema where
  columns : SchemaColumns
  isUnique : Bool
  isPrimary : Bool
  isExclusion : Bool
  isImmediate : Bool

/-- `ConstraintProps`. -/
structure ConstraintProps where
  name : List Byte
  nsOid : Oid
  conType : ConType
  defferable : Bool
  deffered : Bool
  validated : Bool
  relOid : Oid
  indOid : Oid
  forOid : Oid

/-! ## `DataChunkBuilder` -/

namespace DataChunkBuilder

/-- `Write` of one field after the other. -/
def writeAll (chunk : DataChunk) (fields : List (ColOid × Value)) : DataChunk :=
  fields.foldl (fun chunk f => chunk.write f.1 f.2) chunk

/-- `BuildNamespaceChunk`. -/
def buildNamespaceChunk (oid : Oid) (name : List Byte) : DataChunk :=
  writeAll CatalogTable.namespaces.createDataChunk [(nspoid, number 4 oid.toNat),
    (nspname, entry name)]

/-- `BuildNamespaceChunk` of an oid alone. -/
def buildNamespaceOidChunk (oid : Oid) : DataChunk :=
  writeAll CatalogTable.namespaces.createDataChunk [(nspoid, number 4 oid.toNat)]

/-- `BuildClassChunk`. -/
def buildClassChunk (oid : Oid) (name : List Byte) (namespaceOid : Oid) (kind : RelKind)
    (options : List Byte) : DataChunk :=
  writeAll CatalogTable.classes.createDataChunk [(reloid, number 4 oid.toNat),
    (relname, entry name),
    (relnamespace, number 4 namespaceOid.toNat), (relkind, number 1 kind.toChar),
    (reloptions, entry options)]

/-- `BuildClassChunk` of an oid alone. -/
def buildClassOidChunk (oid : Oid) : DataChunk :=
  writeAll CatalogTable.classes.createDataChunk [(reloid, number 4 oid.toNat)]

/-- `BuildAttributeChunk`. -/
def buildAttributeChunk (oid relOid : Oid) (name : List Byte) (typeOid : TypeId) (attrLen : Nat)
    (notNull : Bool) : DataChunk :=
  writeAll CatalogTable.attributes.createDataChunk [(attnum, number 4 oid.toNat),
    (attrelid, number 4 relOid.toNat), (attname, entry name), (atttypid, number 1 typeOid.code),
    (attlen, number 2 attrLen), (attnotnull, number 1 notNull.toNat)]

/-- `BuildIndexChunk`. -/
def buildIndexChunk (oid relOid : Oid) (isUnique isPrimary isExclusion isImediate isValid isReady
    isLive : Bool) (indexType : Nat) : DataChunk :=
  writeAll CatalogTable.indexes.createDataChunk [(indoid, number 4 oid.toNat),
    (indrelid, number 4 relOid.toNat), (indisunique, number 1 isUnique.toNat),
    (indisprimary, number 1 isPrimary.toNat), (indisexclusion, number 1 isExclusion.toNat),
    (indimmediate, number 1 isImediate.toNat), (indisvalid, number 1 isValid.toNat),
    (indisready, number 1 isReady.toNat), (indislive, number 1 isLive.toNat),
      (indType, number 1 indexType)]

/-- `BuildConstraintChunk`. -/
def buildConstraintChunk (oid : Oid) (props : ConstraintProps) : DataChunk :=
  writeAll CatalogTable.constraints.createDataChunk [(conoid, number 4 oid.toNat),
    (conname, entry props.name), (connamespace, number 4 props.nsOid.toNat),
    (contype, number 1 props.conType.toChar), (condeferrable, number 1 props.defferable.toNat),
    (condeffered, number 1 props.deffered.toNat), (convalidated, number 1 props.validated.toNat),
    (conrelid, number 4 props.relOid.toNat), (conindid, number 4 props.indOid.toNat),
    (confrelid, number 4 props.forOid.toNat)]

end DataChunkBuilder

/-! ## Keys -/

namespace IndexOid

/-- `AttrsFor`. -/
def attrs : IndexOid → List TypeSize
  | databaseDatoid => [⟨.integer, datoid⟩]
  | databaseDatname => [⟨.varchar, datname⟩]
  | namespaceNspoid => [⟨.integer, nspoid⟩]
  | namespaceNspname => [⟨.varchar, nspname⟩]
  | classReloid => [⟨.integer, reloid⟩]
  | classRelname => [⟨.varchar, relname⟩]
  | classRelnamespace => [⟨.integer, relnamespace⟩]
  | attributeAttnum => [⟨.smallint, attnum⟩]
  | attributeAttrelidAttname => [⟨.integer, attrelid⟩, ⟨.varchar, attname⟩]
  | typeTypoid => [⟨.integer, typoid⟩]
  | typeTypname => [⟨.varchar, typname⟩]
  | typeTypnamespace => [⟨.integer, typnamespace⟩]
  | constraintConoid => [⟨.integer, conoid⟩]
  | constraintConname => [⟨.varchar, conname⟩]
  | constraintConnamespace => [⟨.integer, connamespace⟩]
  | constraintConrelid => [⟨.integer, conrelid⟩]
  | constraintConindid => [⟨.integer, conindid⟩]
  | constraintConfrelid => [⟨.integer, confrelid⟩]
  | languageLanoid => [⟨.integer, lanoid⟩]
  | languageLanname => [⟨.varchar, lanname⟩]
  | procProoid => [⟨.integer, prooid⟩]
  | procProname => [⟨.varchar, proname⟩]
  | indexIndoid => [⟨.integer, indoid⟩]
  | indexIndrelid => [⟨.integer, indrelid⟩]

theorem attrs_types (index : IndexOid) : index.attrs.map TypeSize.type = attrsFor index := by
  cases index <;> rfl

/-- `heap_tbl_id_`. -/
def heapTblId : IndexOid → Nat
  | databaseDatoid | databaseDatname => 1
  | namespaceNspoid | namespaceNspname => 2
  | classReloid | classRelname | classRelnamespace => 3
  | indexIndoid | indexIndrelid => 4
  | attributeAttnum | attributeAttrelidAttname => 5
  | typeTypoid | typeTypname | typeTypnamespace => 6
  | constraintConoid | constraintConname | constraintConnamespace | constraintConrelid
  | constraintConindid | constraintConfrelid => 7
  | languageLanoid | languageLanname => 8
  | procProoid | procProname => 9

end IndexOid

/-- What the rows do not determine: the texts with which `EncodeStringNormalized` returns
(at others it throws) and their normalisation, the memory in which a chunk lies, and the
size of a chunk, which depends on the order of the columns in the map of the schema. -/
structure CatalogEnv where
  accepts : List Byte → Bool
  normalize : Bool → List Byte → List Byte
  behind : DataChunk → ColOid → Mem
  chunkSize : CatalogTable → Nat

namespace CatalogEnv

/-- ASCII as it is, over memory that holds zeros. -/
def plain : CatalogEnv :=
  ⟨fun text => text.all fun b => b.val < 0x80, fun _ text => text, fun _ _ _ => byte 0, fun _ => 64⟩

variable (env : CatalogEnv)

/-- The memory at a field of a chunk. -/
def field (chunk : DataChunk) (id : ColOid) : Option Mem :=
  (chunk.get id).map fun v => (env.behind chunk id).write 0 v.bytes

/-- The columns of an index, encoded from a chunk that has them; where a text is not
accepted, the encoder throws instead. -/
def columns (index : IndexOid) (chunk : DataChunk) : Key :=
  (index.attrs.map fun t => KeyNormEncoder.switchType env.normalize
    ((env.field chunk t.colId).getD (env.behind chunk t.colId)) false t.type ⟨false, false⟩).flatten

/-- `BuildKey` is the columns and then the id. -/
theorem buildKeyOf_chunk {index : IndexOid} {chunk : DataChunk} {tid : Nat}
    (h : ∀ t ∈ index.attrs, t.colId ∈ chunk.getColumnIds)
    (hlen : (env.columns index chunk).length + 8 < 2 ^ 16) :
    KeyNormEncoder.buildKeyOf env.normalize (env.field chunk) tid index.attrs =
      some (KeyNormEncoder.buildKey (env.columns index chunk) tid) := by
  have hcolumns : ∀ types : List TypeSize, (∀ t ∈ types, t.colId ∈ chunk.getColumnIds) →
      (types.mapM fun t => (env.field chunk t.colId).map fun ptr =>
        KeyNormEncoder.switchType env.normalize ptr false t.type ⟨false, false⟩) =
      some (types.map fun t => KeyNormEncoder.switchType env.normalize
        ((env.field chunk t.colId).getD (env.behind chunk t.colId)) false t.type
          ⟨false, false⟩) := by
    intro types
    induction types with
    | nil => intro _; rfl
    | cons t types ih =>
        intro h
        obtain ⟨v, hv⟩ := DataChunk.get_isSome (h t List.mem_cons_self)
        rw [List.mapM_cons, ih fun t ht => h t (List.mem_cons_of_mem _ ht), List.map_cons]
        simp [field, hv]
  have hkey : KeyNormEncoder.buildKeyOf env.normalize (env.field chunk) tid index.attrs =
      some ((KeyNormEncoder.buildKey (env.columns index chunk) tid).take
        ((KeyNormEncoder.buildKey (env.columns index chunk) tid).length % 2 ^ 16)) := by
    unfold KeyNormEncoder.buildKeyOf
    rw [hcolumns _ h]
    rfl
  rw [hkey, length_buildKey, Nat.mod_eq_of_lt hlen, ← length_buildKey _ tid, List.take_length]

/-- The code of a signed number determines its bytes. -/
theorem encodeSigned_inj {w x y : Nat} (hw : 0 < w) (hx : x < 256 ^ w) (hy : y < 256 ^ w)
    (h : KeyNormEncoder.encodeSigned w x = KeyNormEncoder.encodeSigned w y) : x = y := by
  have hpow : 2 ^ (8 * w - 1) < 256 ^ w := by
    rw [show 256 = 2 ^ 8 from rfl, ← Nat.pow_mul]
    exact Nat.pow_lt_pow_right (by decide) (by omega)
  have hxor : ∀ z, z < 256 ^ w → z ^^^ 2 ^ (8 * w - 1) < 256 ^ w := by
    intro z hz
    rw [show 256 = 2 ^ 8 from rfl, ← Nat.pow_mul] at hz hpow ⊢
    exact Nat.xor_lt_two_pow hz hpow
  have hcode := congrArg ofBE h
  unfold KeyNormEncoder.encodeSigned at hcode
  rw [ofBE_toBE, ofBE_toBE, Nat.mod_eq_of_lt (hxor x hx), Nat.mod_eq_of_lt (hxor y hy)] at hcode
  have hback : ∀ z, z ^^^ 2 ^ (8 * w - 1) ^^^ 2 ^ (8 * w - 1) = z := by
    intro z
    rw [Nat.xor_assoc, Nat.xor_self, Nat.xor_zero]
  rw [← hback x, hcode, hback y]

variable {env} {index : IndexOid} {chunk chunk' : DataChunk} {c : ColOid} {m n : Nat}
  {name name' : List Byte}

/-- A column of a key. -/
def columnCode (env : CatalogEnv) (chunk : DataChunk) (t : TypeSize) : List Byte :=
  KeyNormEncoder.switchType env.normalize
    ((env.field chunk t.colId).getD (env.behind chunk t.colId))
    false t.type ⟨false, false⟩

theorem columns_eq (index : IndexOid) (chunk : DataChunk) :
    env.columns index chunk = (index.attrs.map (env.columnCode chunk)).flatten := rfl

/-- The code of an `INTEGER`. -/
theorem columnCode_integer (hget : chunk.get c = some (number 4 n)) :
    env.columnCode chunk ⟨.integer, c⟩ = KeyNormEncoder.encodeSigned 4 (n % 256 ^ 4) := by
  unfold columnCode field
  simp only [hget, Option.map_some, Option.getD_some]
  show KeyNormEncoder.encodeSigned 4 (loadLE ((env.behind chunk c).write 0 (number 4 n).bytes) 4) =
    _
  rw [number, bytes_ofBytes, KeyNormEncoder.loadLE_write]

/-- An inline text is read from memory as it was written. -/
theorem read_entry (behind : Mem) (hlen : name.length ≤ inlineSizeCap) :
    (behind.write 0 (entry name).bytes).read 4
      (loadLE (behind.write 0 (entry name).bytes) 4) = name := by
  have hcap : inlineSizeCap = 12 := rfl
  have hbytes : (entry name).bytes = toLE 4 name.length ++ name := by
    rw [entry, bytes_ofBytes, List.take_of_length_le hlen]
  have hsize : loadLE (behind.write 0 (toLE 4 name.length ++ name)) 4 = name.length := by
    unfold loadLE
    have hread := @Mem.read_write_append behind 0 (toLE 4 name.length) name
    rw [length_toLE] at hread
    rw [hread, ofLE_toLE]
    exact Nat.mod_eq_of_lt (by omega)
  have htext := @Mem.read_write_append_right behind 0 (toLE 4 name.length) name
  rw [length_toLE, Nat.zero_add] at htext
  rw [hbytes, hsize, htext]

/-- The code of an inline name. -/
theorem columnCode_name (hget : chunk.get c = some (entry name))
    (hlen : name.length ≤ inlineSizeCap) :
    env.columnCode chunk ⟨.varchar, c⟩ = env.normalize false name ++ [byte 0] := by
  unfold columnCode field
  simp only [hget, Option.map_some, Option.getD_some]
  show KeyNormEncoder.encodeStringNormalized env.normalize
    (((env.behind chunk c).write 0 (entry name).bytes).read 4
      (loadLE ((env.behind chunk c).write 0 (entry name).bytes) 4)) false = _
  rw [read_entry _ hlen]
  rfl

/-- The key of a row in an index of an `INTEGER`. -/
theorem columns_integer (h : index.attrs = [⟨.integer, c⟩])
    (hget : chunk.get c = some (number 4 n)) :
    env.columns index chunk = KeyNormEncoder.encodeSigned 4 (n % 256 ^ 4) := by
  simp [columns_eq, h, columnCode_integer hget]

/-- The codes of two oids are equal only if the oids are. -/
theorem encodeSigned_oid_inj {oid oid' : Oid}
    (h : KeyNormEncoder.encodeSigned 4 (oid.toNat % 256 ^ 4) =
      KeyNormEncoder.encodeSigned 4 (oid'.toNat % 256 ^ 4)) :
    oid = oid' := by
  have hlt : oid.toNat < 256 ^ 4 := oid.toNat_lt
  have hlt' : oid'.toNat < 256 ^ 4 := oid'.toNat_lt
  rw [Nat.mod_eq_of_lt hlt, Nat.mod_eq_of_lt hlt'] at h
  exact UInt32.toNat.inj (encodeSigned_inj (by decide) hlt hlt' h)

/-- Two rows have one key in an index of oids exactly when they have one oid. -/
theorem columns_oid_inj {oid oid' : Oid} (h : index.attrs = [⟨.integer, c⟩])
    (hget : chunk.get c = some (number 4 oid.toNat))
    (hget' : chunk'.get c = some (number 4 oid'.toNat)) :
    env.columns index chunk = env.columns index chunk' ↔ oid = oid' := by
  rw [columns_integer h hget, columns_integer h hget']
  exact ⟨encodeSigned_oid_inj, fun heq => by rw [heq]⟩

/-- The key of a row in an index of a name. -/
theorem columns_name (h : index.attrs = [⟨.varchar, c⟩]) (hget : chunk.get c = some (entry name))
    (hlen : name.length ≤ inlineSizeCap) :
    env.columns index chunk = env.normalize false name ++ [byte 0] := by
  simp [columns_eq, h, columnCode_name hget hlen]

/-- Two rows with inline names have one key in an index of names exactly when the
names normalise to one text. -/
theorem columns_name_eq_iff (h : index.attrs = [⟨.varchar, c⟩])
    (hget : chunk.get c = some (entry name))
    (hget' : chunk'.get c = some (entry name')) (hlen : name.length ≤ inlineSizeCap)
    (hlen' : name'.length ≤ inlineSizeCap) :
    env.columns index chunk = env.columns index chunk' ↔ env.normalize false name =
      env.normalize false name' := by
  rw [columns_name h hget hlen, columns_name h hget' hlen', List.append_left_inj]

/-- The key of a column row in the index of `attnum` is made of the low 16 bits. -/
theorem columns_attnum_eq_iff {oid oid' : Oid} (hget : chunk.get attnum = some (number 4 oid.toNat))
    (hget' : chunk'.get attnum = some (number 4 oid'.toNat)) :
    env.columns .attributeAttnum chunk = env.columns .attributeAttnum chunk' ↔
      oid.toNat % 2 ^ 16 = oid'.toNat % 2 ^ 16 := by
  have hcode : ∀ {chunk : DataChunk} {n : Nat}, chunk.get attnum = some (number 4 n) →
      env.columns .attributeAttnum chunk = KeyNormEncoder.encodeSigned 2 (n % 256 ^ 2) := by
    intro chunk n hget
    unfold columns field
    simp only [IndexOid.attrs, List.map_cons, List.map_nil, List.flatten_cons, List.flatten_nil,
      List.append_nil, hget, Option.map_some, Option.getD_some]
    show KeyNormEncoder.encodeSigned 2
      (loadLE ((env.behind chunk attnum).write 0 (number 4 n).bytes) 2) = _
    have hsplit : toLE 4 n = toLE 2 n ++ toLE 2 (n / 256 / 256) := rfl
    have hread :=
      @Mem.read_write_append (env.behind chunk attnum) 0 (toLE 2 n) (toLE 2 (n / 256 / 256))
    rw [length_toLE] at hread
    unfold loadLE
    rw [number, bytes_ofBytes, hsplit, hread, ofLE_toLE]
  have hpos : ∀ n, n % 256 ^ 2 < 256 ^ 2 := fun n => Nat.mod_lt _ (by decide)
  rw [hcode hget, hcode hget']
  refine ⟨fun h => encodeSigned_inj (by decide) (hpos _) (hpos _) h, fun h => ?_⟩
  rw [show (256 : Nat) ^ 2 = 2 ^ 16 from rfl, h]

end CatalogEnv

end Db7
