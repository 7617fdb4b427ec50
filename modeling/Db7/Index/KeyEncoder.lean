import Db7.Access.DataChunk
import Db7.Index.KeyOrder
import Db7.Lib.OrderedCode
import Mathlib.Algebra.Ring.Int.Defs
import Mathlib.Data.Sum.Order

/-!
# The key encoder

`KeyNormEncoder` reads the columns of an index from a chunk and writes codes that
`memcmp` compares as the columns compare: integers big-endian with the sign bit
flipped, doubles with the sign bit or all bits flipped, texts normalised and with
a zero at the end.

* **encode_orders**: the code of one column keeps the order;
* **build_key_order**: so does a key, for the columns and then the id;
* **key_order_fails**: texts that are not inline, and keys that are longer than
  their `u16` says, break it.

The normalisation of texts is a parameter: it is done by a library.
-/

namespace Db7

open Lib

/-- `KeySpecs`. -/
structure KeySpecs where
  isNullable : Bool
  isCaseSensitive : Bool

/-- `TypeSize`, without the size. -/
structure TypeSize where
  type : TypeId
  colId : ColOid

/-- The type to which `SwitchType` casts, with its size in bytes. -/
inductive CType
  | unsigned (w : Nat)
  | signed (w : Nat)
  | double
  | bytes
  deriving DecidableEq, Repr

/-- The cases of `SwitchType`. -/
def TypeId.cType : TypeId → CType
  | .boolean | .utinyint => .unsigned 1
  | .tinyint => .signed 1
  | .usmallint => .unsigned 2
  | .smallint => .signed 2
  | .uinteger => .unsigned 4
  | .integer => .signed 4
  | .ubigint => .unsigned 8
  | .bigint => .signed 8
  | .double => .double
  | .varchar | .varbinary => .bytes

/-- `INLINE_SIZE_CAP`: the bytes of a text that a `VarlenEntry` holds. -/
def inlineSizeCap : Nat := 12

/-- What the memory at `ptr` holds as a number of `w` bytes. -/
def loadLE (ptr : Mem) (w : Nat) : Nat := ofLE (ptr.read 0 w)

namespace KeyNormEncoder

/-- `EncodeUnsigned`. -/
def encodeUnsigned (w data : Nat) : List Byte := toBE w data

/-- `Encode` of a signed number, given its bytes. -/
def encodeSigned (w u : Nat) : List Byte := toBE w (u ^^^ 2 ^ (8 * w - 1))

/-- The bits of a double that is zero, of either sign. -/
def isZero (u : Nat) : Bool := u % 2 ^ 63 = 0

/-- `std::isnan`. -/
def isNaN (u : Nat) : Bool := 0x7FF0000000000000 < u % 2 ^ 63

/-- Zeros become the positive one, and all `NaN`s the quiet one. -/
def canonical (u : Nat) : Nat := if isZero u then 0 else if isNaN u then 0x7FF8000000000000 else u

/-- `Encode` of a double, given its bits. -/
def encodeDouble (bits : Nat) : List Byte :=
  let u := canonical bits
  let mask := if u >>> 63 ≠ 0 then 2 ^ 64 - 1 else 2 ^ 63
  toBE 8 (u ^^^ mask)

section Encode

variable (normalize : Bool → List Byte → List Byte)

/-- `EncodeStringNormalized`: `normalize` stands for `utf8proc_decompose` and
`utf8proc_reencode`, with the case kept or folded. -/
def encodeStringNormalized (data : List Byte) (isCaseSensitive : Bool) : List Byte :=
  normalize isCaseSensitive data ++ [byte 0]

/-- `Encode` of a value that is not null. A text is read as `size_` bytes from
`prefix_` on, whether or not it is inline. -/
def encodeValue (ptr : Mem) (specs : KeySpecs) : CType → List Byte
  | .unsigned w => encodeUnsigned w (loadLE ptr w)
  | .signed w => encodeSigned w (loadLE ptr w)
  | .double => encodeDouble (loadLE ptr 8)
  | .bytes => encodeStringNormalized normalize (ptr.read 4 (loadLE ptr 4)) specs.isCaseSensitive

/-- `SwitchType`, with what `Encode` writes for nulls. -/
def switchType (ptr : Mem) (isDataNull : Bool) (type : TypeId) (specs : KeySpecs) : List Byte :=
  if specs.isNullable then
    if isDataNull then [byte 0] else byte 1 :: encodeValue normalize ptr specs type.cType
  else encodeValue normalize ptr specs type.cType

/-- `BuildKey` of a chunk: `chunk` is its `Get`, which throws for a column that it
does not have. The length of the key is a `u16`. -/
def buildKeyOf (chunk : ColOid → Option Mem) (keyValue : Nat) (types : List TypeSize) :
    Option Key := do
  let columns ← types.mapM fun t => (chunk t.colId).map fun ptr =>
    switchType normalize ptr false t.type ⟨false, false⟩
  let out := columns.flatten ++ encodeUnsigned 8 keyValue
  some (out.take (out.length % 2 ^ 16))

end Encode

end KeyNormEncoder

/-! ## Rows -/

/-- The value of a column: a number, the bits of a double, or a text. -/
inductive ColumnValue
  | number (n : Int)
  | text (bytes : List Byte)

namespace ColumnValue

/-- The values of a type. -/
def InRange : CType → ColumnValue → Prop
  | .unsigned w, number n => 0 ≤ n ∧ n < 256 ^ w
  | .signed w, number n => -2 ^ (8 * w - 1) ≤ n ∧ n < 2 ^ (8 * w - 1)
  | .double, number n => 0 ≤ n ∧ n < 2 ^ 64
  | .bytes, text t => t.length < 2 ^ 32
  | _, _ => False

/-- What `Write` leaves in a chunk, over the memory `behind`: a number in the
machine's bytes, a text by `VarlenEntry::Set`. -/
def store (behind : Mem) : CType → ColumnValue → Mem
  | .unsigned w, number n | .signed w, number n => behind.write 0 (toLE w (n % 256 ^ w).toNat)
  | .double, number n => behind.write 0 (toLE 8 n.toNat)
  | _, text t => (behind.write 0 (toLE 4 t.length)).write 4 (t.take inlineSizeCap)
  | .bytes, number _ => behind

/-- The place of a double: by sign and magnitude, the two zeros at 0, and the `NaN`s
behind everything. -/
def doublePlace (bits : Int) : Int :=
  if 0x7FF0000000000000 < bits % 2 ^ 63 then 2 ^ 63
  else if bits < 2 ^ 63 then bits
  else -(bits - 2 ^ 63)

/-- The order of the values of a type: numbers by value, doubles by place, texts by
their normalised bytes. -/
def rank (normalize : Bool → List Byte → List Byte) : CType → ColumnValue → Int ⊕ₗ List Byte
  | .double, number n => Sum.inlₗ (doublePlace n)
  | _, number n => Sum.inlₗ n
  | _, text t => Sum.inrₗ (normalize false t)

/-- A text is in the entry as a whole. -/
def Inline : ColumnValue → Prop
  | number _ => True
  | text t => t.length ≤ inlineSizeCap

/-- A normalised text has no zero byte. -/
def NulFree (normalize : Bool → List Byte → List Byte) : ColumnValue → Prop
  | number _ => True
  | text t => byte 0 ∉ normalize false t

end ColumnValue

/-- A column of a row. -/
structure Column where
  type : TypeId
  value : ColumnValue
  inRange : value.InRange type.cType

/-- The size of the code of a column. -/
def ColumnValue.codeSize (normalize : Bool → List Byte → List Byte) : CType → ColumnValue → Nat
  | .unsigned w, _ | .signed w, _ => w
  | .double, _ => 8
  | .bytes, text t => (normalize false t).length + 1
  | .bytes, number _ => 0

/-- A row, by column oids. -/
abbrev IndexRow := ColOid → Column

namespace IndexRow

/-- The row has columns of these types. -/
def Matches (row : IndexRow) (types : List TypeSize) : Prop :=
  ∀ t ∈ types, (row t.colId).type = t.type

/-- `Get` of a chunk with the columns of the row. -/
def chunk (row : IndexRow) (behind : ColOid → Mem) : ColOid → Option Mem :=
  fun id => some ((row id).value.store (behind id) (row id).type.cType)

/-- The values of the indexed columns, in their order. -/
def rank (normalize : Bool → List Byte → List Byte) (row : IndexRow) (types : List TypeSize) :
    List (Int ⊕ₗ List Byte) :=
  types.map fun t => (row t.colId).value.rank normalize t.type.cType

/-- The texts are in their entries as a whole. -/
def Inline (row : IndexRow) (types : List TypeSize) : Prop :=
  ∀ t ∈ types, (row t.colId).value.Inline

/-- The normalised texts have no zero byte. -/
def NulFree (normalize : Bool → List Byte → List Byte) (row : IndexRow) (types : List TypeSize) :
    Prop :=
  ∀ t ∈ types, (row t.colId).value.NulFree normalize

/-- The size of the key. -/
def keySize (normalize : Bool → List Byte → List Byte) (row : IndexRow) (types : List TypeSize) :
    Nat :=
  (types.map fun t => (row t.colId).value.codeSize normalize t.type.cType).sum + 8

end IndexRow

/-- The keys of two rows compare as (columns, id) do, none of the column parts is a
proper prefix of the other, and the ids can be read back. -/
def KeysOrdered (normalize : Bool → List Byte → List Byte) (types : List TypeSize) (a b : IndexRow)
    (behind behind' : ColOid → Mem) (m n : Nat) : Prop :=
  ∃ ka kb, KeyNormEncoder.buildKeyOf normalize (a.chunk behind) m types = some ka ∧
    KeyNormEncoder.buildKeyOf normalize (b.chunk behind') n types = some kb ∧
    (cmpFull ka kb < 0 ↔ a.rank normalize types < b.rank normalize types ∨
      a.rank normalize types = b.rank normalize types ∧ m < n) ∧
    (cmpFull ka kb = 0 ↔ a.rank normalize types = b.rank normalize types ∧ m = n) ∧
    (columnPart ka <+: columnPart kb → columnPart ka = columnPart kb) ∧
    (columnPart kb <+: columnPart ka → columnPart kb = columnPart ka) ∧
    result ka = m ∧ result kb = n

namespace KeyNormEncoder

/-! ## Numbers -/

/-- Flipping the highest of `k + 1` bits. -/
theorem xor_two_pow {u k : Nat} (h : u < 2 ^ (k + 1)) :
    u ^^^ 2 ^ k = if u < 2 ^ k then 2 ^ k + u else u - 2 ^ k := by
  have hlow : ∀ v, v < 2 ^ k → v ^^^ 2 ^ k = 2 ^ k + v := by
    intro v hv
    refine Nat.eq_of_testBit_eq fun i => ?_
    rw [Nat.testBit_xor]
    rcases Nat.lt_trichotomy i k with hi | rfl | hi
    · rw [Nat.testBit_two_pow_add_gt hi, Nat.testBit_two_pow_of_ne (by omega), Bool.xor_false]
    · rw [Nat.testBit_two_pow_add_eq, Nat.testBit_two_pow_self, Nat.testBit_lt_two_pow hv]
      rfl
    · have hle : 2 ^ (k + 1) ≤ 2 ^ i := Nat.pow_le_pow_right (by decide) hi
      rw [Nat.pow_succ] at hle
      rw [Nat.testBit_lt_two_pow (show 2 ^ k + v < 2 ^ i by omega),
        Nat.testBit_two_pow_of_ne (by omega),
        Nat.testBit_lt_two_pow (show v < 2 ^ i by omega)]
      rfl
  split
  · exact hlow u ‹_›
  · have hv : u - 2 ^ k < 2 ^ k := by
      rw [Nat.pow_succ] at h
      omega
    have hu : u = (u - 2 ^ k) ^^^ 2 ^ k := by
      rw [hlow _ hv]
      omega
    rw [hu, Nat.xor_assoc, Nat.xor_self, Nat.xor_zero, ← hu]

/-- Flipping all 64 bits. -/
theorem xor_ones {u : Nat} (h : u < 2 ^ 64) : u ^^^ (2 ^ 64 - 1) = 2 ^ 64 - (u + 1) := by
  refine Nat.eq_of_testBit_eq fun i => ?_
  rw [Nat.testBit_xor, Nat.testBit_two_pow_sub_one, Nat.testBit_two_pow_sub_succ h]
  by_cases hi : i < 64
  · simp [hi]
  · have hle : 2 ^ 64 ≤ 2 ^ i := Nat.pow_le_pow_right (by decide) (by omega)
    simp [hi, Nat.testBit_lt_two_pow (show u < 2 ^ i by omega)]

/-! ## The code of a column -/

section Columns

variable {normalize : Bool → List Byte → List Byte} {behind behind' : Mem}

theorem loadLE_write (w x : Nat) : loadLE (behind.write 0 (toLE w x)) w = x % 256 ^ w := by
  have hread := @Mem.read_write behind 0 (toLE w x)
  rw [length_toLE] at hread
  unfold loadLE
  rw [hread, ofLE_toLE]

variable (behind) in
/-- An inline text is read as it was written. -/
theorem read_store_text {t : List Byte} (hlen : t.length ≤ inlineSizeCap) :
    let ptr := (ColumnValue.text t).store behind .bytes
    ptr.read 4 (loadLE ptr 4) = t := by
  have htake : t.take inlineSizeCap = t := List.take_of_length_le hlen
  have hcap : inlineSizeCap = 12 := rfl
  have hsize : loadLE ((behind.write 0 (toLE 4 t.length)).write 4 t) 4 = t.length := by
    have hread : ((behind.write 0 (toLE 4 t.length)).write 4 t).read 0 4 =
        (behind.write 0 (toLE 4 t.length)).read 0 4 := Mem.read_write_of_disjoint (.inr (by omega))
    have hload := @loadLE_write behind 4 t.length
    unfold loadLE at hload ⊢
    rw [hread, hload]
    exact Nat.mod_eq_of_lt (by omega)
  show ((behind.write 0 (toLE 4 t.length)).write 4 (t.take inlineSizeCap)).read 4
    (loadLE ((behind.write 0 (toLE 4 t.length)).write 4 (t.take inlineSizeCap)) 4) = t
  rw [htake, hsize]
  exact Mem.read_write

/-- Big-endian numbers that are in the order of their ranks. -/
theorem number_orders {w x y : Nat} {r r' : Int} (hx : x < 256 ^ w) (hy : y < 256 ^ w)
    (hlt : x < y ↔ r < r') (hgt : y < x ↔ r' < r) :
    Orders (toBE w x) (toBE w y) (Sum.inlₗ r : Int ⊕ₗ List Byte) (Sum.inlₗ r') := by
  refine Orders.of_length (by simp) ?_ ?_
  · rw [toBE_lt_iff, Nat.mod_eq_of_lt hx, Nat.mod_eq_of_lt hy, hlt]
    exact Sum.Lex.inl_lt_inl_iff.symm
  · constructor
    · intro heq
      have hxy : x = y := by
        rw [← Nat.mod_eq_of_lt hx, ← Nat.mod_eq_of_lt hy, ← ofBE_toBE, ← ofBE_toBE, heq]
      have : r = r' := by omega
      rw [this]
    · intro heq
      have hr : r = r' := Sum.inl.inj heq
      have : x = y := by omega
      rw [this]

/-- The number that is written for a signed number. -/
theorem signed_place {k : Nat} {n : Int} (hlo : -2 ^ k ≤ n) (hhi : n < 2 ^ k) :
    ((((n % 2 ^ (k + 1)).toNat ^^^ 2 ^ k : Nat)) : Int) = n + 2 ^ k := by
  have hpow : (2 : Int) ^ (k + 1) = 2 ^ k + 2 ^ k := by
    rw [Int.pow_succ]
    omega
  have hcast : ((2 ^ k : Nat) : Int) = 2 ^ k := by simp
  have hmod : n % 2 ^ (k + 1) = if n < 0 then n + 2 ^ (k + 1) else n := by
    split
    · rw [← Int.add_emod_right]
      exact Int.emod_eq_of_lt (by omega) (by omega)
    · exact Int.emod_eq_of_lt (by omega) (by omega)
  rw [xor_two_pow (by rw [Nat.pow_succ]; split at hmod <;> omega)]
  split at hmod <;> split <;> omega

theorem doublePlace_bounds {bits : Nat} (h : bits < 2 ^ 64) :
    ColumnValue.doublePlace bits = 2 ^ 63 ∨
    -0x7FF0000000000000 ≤ ColumnValue.doublePlace bits ∧
      ColumnValue.doublePlace bits ≤ 0x7FF0000000000000 := by
  unfold ColumnValue.doublePlace
  split
  · exact .inl rfl
  · split <;> omega

/-- The number that is written for a double. -/
theorem encodeDouble_eq {bits : Nat} (h : bits < 2 ^ 64) :
    ∃ x, encodeDouble bits = toBE 8 x ∧ x < 2 ^ 64 ∧
    (x : Int) = if ColumnValue.doublePlace bits = 2 ^ 63 then 0xFFF8000000000000
      else if ColumnValue.doublePlace bits < 0 then 2 ^ 63 - 1 + ColumnValue.doublePlace bits
      else 2 ^ 63 + ColumnValue.doublePlace bits := by
  have hcanon : canonical bits < 2 ^ 64 := by
    unfold canonical
    split
    · decide
    · split
      · decide
      · exact h
  refine ⟨if canonical bits < 2 ^ 63 then 2 ^ 63 + canonical bits
    else 2 ^ 64 - (canonical bits + 1),
    ?_, by split <;> omega, ?_⟩
  · unfold encodeDouble
    dsimp only
    rw [Nat.shiftRight_eq_div_pow]
    by_cases hsign : canonical bits < 2 ^ 63
    · rw [if_neg (not_not.mpr (Nat.div_eq_of_lt hsign)), if_pos hsign,
        xor_two_pow hcanon, if_pos hsign]
    · rw [if_pos (by omega), if_neg hsign, xor_ones hcanon]
  · -- a zero, a `NaN`, or the bits as they are
    unfold canonical ColumnValue.doublePlace isZero isNaN
    simp only [decide_eq_true_eq]
    split_ifs <;> omega

theorem cType_width {type : TypeId} {w : Nat}
    (h : type.cType = .unsigned w ∨ type.cType = .signed w) : 0 < w := by
  cases type <;> simp only [TypeId.cType, CType.unsigned.injEq, CType.signed.injEq, reduceCtorEq,
    or_false, false_or] at h <;> omega

theorem loadLE_store {w : Nat} {n : Int} (x : Nat) (hx : (n % 256 ^ w).toNat = x)
    (hlt : x < 256 ^ w) :
    loadLE (behind.write 0 (toLE w (n % 256 ^ w).toNat)) w = x := by
  rw [hx, loadLE_write, Nat.mod_eq_of_lt hlt]

variable (normalize behind) in
theorem unsigned_code {w : Nat} {n : Int} (h : (ColumnValue.number n).InRange (.unsigned w)) :
    ∃ x : Nat, encodeValue normalize
      ((ColumnValue.number n).store behind (.unsigned w)) ⟨false, false⟩
      (.unsigned w) = toBE w x ∧ x < 256 ^ w ∧ (x : Int) = n := by
  obtain ⟨hlo, hhi⟩ := h
  have hcast : ((256 ^ w : Nat) : Int) = 256 ^ w := Int.natCast_pow 256 w
  have hmod : n % 256 ^ w = n := Int.emod_eq_of_lt hlo hhi
  refine ⟨n.toNat, ?_, by omega, by omega⟩
  show toBE w (loadLE (behind.write 0 (toLE w (n % 256 ^ w).toNat)) w) = _
  rw [loadLE_store n.toNat (by rw [hmod]) (by omega)]

variable (normalize behind) in
theorem signed_code {w : Nat} {n : Int} (hw : 0 < w)
    (h : (ColumnValue.number n).InRange (.signed w)) :
    ∃ x : Nat, encodeValue normalize
      ((ColumnValue.number n).store behind (.signed w)) ⟨false, false⟩
      (.signed w) = toBE w x ∧ x < 256 ^ w ∧ (x : Int) = n + 2 ^ (8 * w - 1) := by
  obtain ⟨hlo, hhi⟩ := h
  obtain ⟨k, hk⟩ : ∃ k, 8 * w = k + 1 := ⟨8 * w - 1, by omega⟩
  have hpow : 256 ^ w = 2 ^ (k + 1) := by
    rw [← hk, Nat.pow_mul]
  have hpowInt : (256 : Int) ^ w = 2 ^ (k + 1) := by
    rw [← hk, pow_mul]
    rfl
  have hk' : 8 * w - 1 = k := by omega
  rw [hk'] at hlo hhi ⊢
  have hlt : (n % 256 ^ w).toNat < 256 ^ w := by
    have hcast : ((256 ^ w : Nat) : Int) = 256 ^ w := Int.natCast_pow 256 w
    have hpos : (0 : Int) < 256 ^ w := Int.pow_pos (by decide)
    have := Int.emod_lt_of_pos n hpos
    omega
  have hplace := signed_place hlo hhi
  refine ⟨(n % 256 ^ w).toNat ^^^ 2 ^ k, ?_, ?_, ?_⟩
  · show toBE w (loadLE (behind.write 0 (toLE w (n % 256 ^ w).toNat)) w ^^^ 2 ^ (8 * w - 1)) = _
    rw [loadLE_store _ rfl hlt, hk']
  · rw [hpow]
    rw [hpow] at hlt
    exact Nat.xor_lt_two_pow hlt (Nat.pow_lt_pow_right (by decide) (Nat.lt_succ_self k))
  · rw [hpowInt]
    exact hplace

theorem double_code {n : Int} (h : (ColumnValue.number n).InRange .double) :
    encodeValue normalize ((ColumnValue.number n).store behind .double) ⟨false, false⟩ .double =
      encodeDouble n.toNat := by
  obtain ⟨hlo, hhi⟩ := h
  show encodeDouble (loadLE (behind.write 0 (toLE 8 n.toNat)) 8) = _
  rw [loadLE_write, Nat.mod_eq_of_lt (by omega)]

variable (behind behind') in
/-- The codes of two values of one type keep their order. -/
theorem encodeValue_orders {type : TypeId} {v v' : ColumnValue} (hv : v.InRange type.cType)
    (hv' : v'.InRange type.cType) (hinline : v.Inline) (hinline' : v'.Inline)
    (hnul : v.NulFree normalize) (hnul' : v'.NulFree normalize) :
    Orders (encodeValue normalize (v.store behind type.cType) ⟨false, false⟩ type.cType)
      (encodeValue normalize (v'.store behind' type.cType) ⟨false, false⟩ type.cType)
      (v.rank normalize type.cType) (v'.rank normalize type.cType) := by
  cases htype : type.cType with
  | unsigned w =>
      rw [htype] at hv hv'
      cases v with
      | text t => exact hv.elim
      | number n =>
          cases v' with
          | text t => exact hv'.elim
          | number n' =>
              obtain ⟨x, hcode, hx, rfl⟩ := unsigned_code normalize behind hv
              obtain ⟨y, hcode', hy, rfl⟩ := unsigned_code normalize behind' hv'
              rw [hcode, hcode']
              exact number_orders hx hy Int.ofNat_lt.symm Int.ofNat_lt.symm
  | signed w =>
      rw [htype] at hv hv'
      cases v with
      | text t => exact hv.elim
      | number n =>
          cases v' with
          | text t => exact hv'.elim
          | number n' =>
              obtain ⟨x, hcode, hx, hplace⟩ :=
                signed_code normalize behind (cType_width (.inr htype)) hv
              obtain ⟨y, hcode', hy, hplace'⟩ :=
                signed_code normalize behind' (cType_width (.inr htype)) hv'
              rw [hcode, hcode']
              exact number_orders hx hy (by omega) (by omega)
  | double =>
      rw [htype] at hv hv'
      cases v with
      | text t => exact hv.elim
      | number n =>
          cases v' with
          | text t => exact hv'.elim
          | number n' =>
              rw [double_code hv, double_code hv']
              obtain ⟨bits, rfl⟩ := Int.eq_ofNat_of_zero_le hv.1
              obtain ⟨bits', rfl⟩ := Int.eq_ofNat_of_zero_le hv'.1
              have hbits : bits < 2 ^ 64 := by exact_mod_cast hv.2
              have hbits' : bits' < 2 ^ 64 := by exact_mod_cast hv'.2
              have hbounds := doublePlace_bounds hbits
              have hbounds' := doublePlace_bounds hbits'
              obtain ⟨x, hcode, hx, hplace⟩ := encodeDouble_eq hbits
              obtain ⟨y, hcode', hy, hplace'⟩ := encodeDouble_eq hbits'
              rw [Int.toNat_natCast, Int.toNat_natCast, hcode, hcode']
              refine number_orders hx hy ?_ ?_
              · split_ifs at hplace hplace' <;> omega
              · split_ifs at hplace hplace' <;> omega
  | bytes =>
      rw [htype] at hv hv'
      cases v with
      | number n => exact hv.elim
      | text t =>
          cases v' with
          | number n => exact hv'.elim
          | text t' =>
              have hread := read_store_text behind hinline
              have hread' := read_store_text behind' hinline'
              dsimp only at hread hread'
              unfold encodeValue encodeStringNormalized
              dsimp only
              rw [hread, hread']
              intro x y
              rw [Orders.terminated hnul hnul' x y]
              have hlt : normalize false t < normalize false t' ↔
                  (ColumnValue.text t).rank normalize .bytes < (ColumnValue.text t').rank
                    normalize .bytes :=
                Sum.Lex.inr_lt_inr_iff.symm
              have heq : normalize false t = normalize false t' ↔
                  (ColumnValue.text t).rank normalize .bytes = (ColumnValue.text t').rank
                    normalize .bytes :=
                ⟨fun h => congrArg Sum.inr h, Sum.inr.inj⟩
              rw [hlt, heq]

theorem length_encodeValue {type : TypeId} {v : ColumnValue} (hv : v.InRange type.cType)
    (hinline : v.Inline) :
    (encodeValue normalize (v.store behind type.cType) ⟨false, false⟩ type.cType).length =
      v.codeSize normalize type.cType := by
  cases htype : type.cType with
  | unsigned w => simp [encodeValue, encodeUnsigned, ColumnValue.codeSize]
  | signed w => simp [encodeValue, encodeSigned, ColumnValue.codeSize]
  | double => simp [encodeValue, encodeDouble, ColumnValue.codeSize]
  | bytes =>
      rw [htype] at hv
      cases v with
      | number n => exact hv.elim
      | text t =>
          have hread := read_store_text behind hinline
          dsimp only at hread
          unfold encodeValue encodeStringNormalized
          dsimp only
          rw [hread]
          simp [ColumnValue.codeSize]

end Columns

/-! ## Keys -/

section Keys

variable {normalize : Bool → List Byte → List Byte} {types : List TypeSize} {a b row : IndexRow}
  {behind behind' : ColOid → Mem} {m n : Nat}

/-- The codes of the indexed columns. -/
def columns (normalize : Bool → List Byte → List Byte) (row : IndexRow) (behind : ColOid → Mem)
    (types : List TypeSize) : Key :=
  (types.map fun t => encodeValue normalize
    ((row t.colId).value.store (behind t.colId) (row t.colId).type.cType) ⟨false, false⟩
      t.type.cType).flatten

/-- `BuildKey` of a row. -/
theorem buildKeyOf_chunk : buildKeyOf normalize (row.chunk behind) m types =
    some ((buildKey (columns normalize row behind types) m).take
      ((buildKey (columns normalize row behind types) m).length % 2 ^ 16)) := by
  have hcolumns : (types.mapM fun t => (row.chunk behind t.colId).map fun ptr =>
      switchType normalize ptr false t.type ⟨false, false⟩) =
        some (types.map fun t => encodeValue normalize
        ((row t.colId).value.store (behind t.colId) (row t.colId).type.cType) ⟨false, false⟩
          t.type.cType) := by
    induction types with
    | nil => rfl
    | cons t types ih =>
        rw [List.mapM_cons, ih]
        rfl
  unfold buildKeyOf
  rw [hcolumns]
  rfl

variable (normalize behind) in
theorem length_columns (hmatch : row.Matches types) (hinline : row.Inline types) :
    (columns normalize row behind types).length + 8 = row.keySize normalize types := by
  unfold columns IndexRow.keySize
  rw [List.length_flatten, List.map_map]
  congr 2
  refine List.map_congr_left fun t ht => ?_
  have hrange := (row t.colId).inRange
  have htype := hmatch t ht
  rw [htype] at hrange
  show (encodeValue normalize _ _ _).length = _
  rw [htype]
  exact length_encodeValue hrange (hinline t ht)

variable (behind behind') in
/-- The codes of the columns keep the lexicographic order. -/
theorem columns_orders (hm : a.Matches types) (hm' : b.Matches types) (hi : a.Inline types)
    (hi' : b.Inline types) (hn : a.NulFree normalize types) (hn' : b.NulFree normalize types) :
    Orders (columns normalize a behind types) (columns normalize b behind' types)
      (a.rank normalize types) (b.rank normalize types) := by
  induction types with
  | nil => exact .nil
  | cons t types ih =>
      have hrange := (a t.colId).inRange
      have hrange' := (b t.colId).inRange
      have htype := hm t List.mem_cons_self
      have htype' := hm' t List.mem_cons_self
      rw [htype] at hrange
      rw [htype'] at hrange'
      have hhead := encodeValue_orders (behind t.colId) (behind' t.colId) hrange hrange'
        (hi t List.mem_cons_self) (hi' t List.mem_cons_self) (hn t List.mem_cons_self)
        (hn' t List.mem_cons_self)
      have hrest := ih (fun t ht => hm t (List.mem_cons_of_mem _ ht))
        (fun t ht => hm' t (List.mem_cons_of_mem _ ht))
          (fun t ht => hi t (List.mem_cons_of_mem _ ht))
        (fun t ht => hi' t (List.mem_cons_of_mem _ ht))
          (fun t ht => hn t (List.mem_cons_of_mem _ ht))
        (fun t ht => hn' t (List.mem_cons_of_mem _ ht))
      unfold columns
      rw [List.map_cons, List.map_cons, List.flatten_cons, List.flatten_cons, htype, htype']
      exact hhead.cons hrest

/-- The column parts of the rows of an index are prefix-free. -/
theorem prefixFree_columns (normalize : Bool → List Byte → List Byte) (types : List TypeSize) :
    PrefixFree fun k => ∃ row behind, IndexRow.Matches row types ∧ row.Inline types ∧
      row.NulFree normalize types ∧ k = columns normalize row behind types := by
  rintro p q ⟨a, behind, hm, hi, hn, rfl⟩ ⟨b, behind', hm', hi', hn', rfl⟩ hpre
  exact (columns_orders behind behind' hm hm' hi hi' hn hn').eq_of_isPrefix
    (columns_orders behind' behind hm' hm hi' hi hn' hn) hpre

/-- **The keys of an index are in the order of (columns, id)**, for inline texts and
keys whose size a `u16` can hold. -/
theorem build_key_order (normalize : Bool → List Byte → List Byte) (types : List TypeSize)
    (a b : IndexRow) (behind behind' : ColOid → Mem) (m n : Nat) (hm : a.Matches types)
    (hm' : b.Matches types) (hn : a.NulFree normalize types) (hn' : b.NulFree normalize types)
    (htid : m < 2 ^ 64) (htid' : n < 2 ^ 64) (hi : a.Inline types) (hi' : b.Inline types)
    (hsize : a.keySize normalize types < 2 ^ 16) (hsize' : b.keySize normalize types < 2 ^ 16) :
    KeysOrdered normalize types a b behind behind' m n := by
  have horder := columns_orders behind behind' hm hm' hi hi' hn hn'
  have horder' := columns_orders behind' behind hm' hm hi' hi hn' hn
  -- the lengths fit, and nothing is cut off
  have hkey : ∀ {row : IndexRow} {behind : ColOid → Mem} {m : Nat}, row.Matches types →
      row.Inline types →
      row.keySize normalize types < 2 ^ 16 → buildKeyOf normalize (row.chunk behind) m types =
        some (buildKey (columns normalize row behind types) m) := by
    intro row behind m hmatch hinline hlt
    have hlen := length_columns normalize behind hmatch hinline
    rw [buildKeyOf_chunk, Nat.mod_eq_of_lt (by rw [length_buildKey, hlen]; exact hlt),
      List.take_length]
  have hmod : m % 256 ^ 8 = m := Nat.mod_eq_of_lt htid
  have hmod' : n % 256 ^ 8 = n := Nat.mod_eq_of_lt htid'
  refine ⟨_, _, hkey hm hi hsize, hkey hm' hi' hsize', ?_, ?_, ?_, ?_, result_buildKey _ htid,
    result_buildKey _ htid'⟩
  · rw [cmpFull_neg, buildKey, buildKey, horder, toBE_lt_iff, hmod, hmod']
  · rw [cmpFull_zero, buildKey, buildKey, horder.append_eq_iff horder']
    refine and_congr_right fun _ => ⟨fun h => ?_, fun h => by rw [h]⟩
    rw [← hmod, ← hmod', ← ofBE_toBE, ← ofBE_toBE, h]
  · rw [columnPart, columnPart, take_buildKey, take_buildKey]
    exact horder.eq_of_isPrefix horder'
  · rw [columnPart, columnPart, take_buildKey, take_buildKey]
    exact horder'.eq_of_isPrefix horder

instance (v : ColumnValue) : Decidable (v.NulFree normalize) :=
  match v with
  | .number _ => inferInstanceAs (Decidable True)
  | .text t => inferInstanceAs (Decidable (byte 0 ∉ normalize false t))

instance (v : ColumnValue) : Decidable v.Inline :=
  match v with
  | .number _ => inferInstanceAs (Decidable True)
  | .text t => inferInstanceAs (Decidable (t.length ≤ inlineSizeCap))

/-- Normalisation of ASCII texts. -/
def asciiFold (isCaseSensitive : Bool) (t : List Byte) : List Byte :=
  if isCaseSensitive then t
  else t.map fun b => if 0x41 ≤ b.val ∧ b.val ≤ 0x5a then byte (b.val + 0x20) else b

/-- A number column. -/
def numberColumn (type : TypeId) (n : Int) (h : (ColumnValue.number n).InRange type.cType) :
    Column :=
  ⟨type, .number n, h⟩

/-- A `VARCHAR` column. -/
def textColumn (t : List Byte) (h : t.length < 2 ^ 32) : Column := ⟨.varchar, .text t, h⟩

/-- A row with the columns 1, 2, 3 and 4. -/
def sampleRow (c₁ c₂ c₃ c₄ : Column) : IndexRow := fun id =>
  if id = 1 then c₁ else if id = 2 then c₂ else if id = 3 then c₃ else c₄

/-- Two rows that differ in the sign of zero and in the case of a text; the second
text goes on. -/
theorem build_key_order_sample :
    let types : List TypeSize := [⟨.boolean, 1⟩, ⟨.integer, 2⟩, ⟨.double, 3⟩, ⟨.varchar, 4⟩]
    let a := sampleRow (numberColumn .boolean 1 ⟨by decide, by decide⟩)
      (numberColumn .integer (-5) ⟨by decide, by decide⟩)
        (numberColumn .double (2 ^ 63) ⟨by decide, by decide⟩)
      (textColumn [byte 0x4a, byte 0x6f] (by decide))
    let b := sampleRow (numberColumn .boolean 1 ⟨by decide, by decide⟩)
      (numberColumn .integer (-5) ⟨by decide, by decide⟩)
        (numberColumn .double 0 ⟨by decide, by decide⟩)
      (textColumn [byte 0x6a, byte 0x6f, byte 0x21] (by decide))
    KeysOrdered asciiFold types a b (fun _ _ => byte 0) (fun _ _ => byte 0xff) 7 3 := by
  refine build_key_order _ _ _ _ _ _ _ _ ?_ ?_ ?_ ?_ (by decide) (by decide) ?_ ?_
    (by decide) (by decide)
  · unfold IndexRow.Matches
    decide
  · unfold IndexRow.Matches
    decide
  · unfold IndexRow.NulFree
    decide
  · unfold IndexRow.NulFree
    decide
  · unfold IndexRow.Inline
    decide
  · unfold IndexRow.Inline
    decide

/-- Rows of one column. -/
def singleRow (c : Column) : IndexRow := fun _ => c

/-- A `BIGINT`. -/
def bigint (n : Int) (hlo : -2 ^ 63 ≤ n) (hhi : n < 2 ^ 63) : Column :=
  ⟨.bigint, .number n, hlo, hhi⟩

/-- 8191 times the same `BIGINT` column. -/
def manyBigints : List TypeSize := List.replicate 8191 ⟨.bigint, 1⟩

/-- The size of their key is 2 ^ 16, so that nothing is left of it. -/
theorem buildKeyOf_manyBigints (n : Int) (hlo : -2 ^ 63 ≤ n) (hhi : n < 2 ^ 63) :
    (singleRow (bigint n hlo hhi)).Matches manyBigints ∧
      (singleRow (bigint n hlo hhi)).Inline manyBigints ∧
      buildKeyOf asciiFold ((singleRow (bigint n hlo hhi)).chunk fun _ _ => byte 0) 0
        manyBigints = some [] := by
  have hmatch : (singleRow (bigint n hlo hhi)).Matches manyBigints := by
    intro t ht
    rw [List.eq_of_mem_replicate ht]
    rfl
  have hinline : (singleRow (bigint n hlo hhi)).Inline manyBigints := fun _ _ => trivial
  have hlen := length_columns asciiFold (fun _ _ => byte 0) hmatch hinline
  have hsize : (singleRow (bigint n hlo hhi)).keySize asciiFold manyBigints = 2 ^ 16 := by
    unfold IndexRow.keySize manyBigints
    rw [List.map_replicate, List.sum_replicate_nat]
    rfl
  refine ⟨hmatch, hinline, ?_⟩
  rw [buildKeyOf_chunk, length_buildKey, hlen, hsize]
  rfl

/-- Two texts of 13 bytes that differ in the last one have one key; and so have any
two rows of 8191 `BIGINT`s. -/
theorem key_order_fails :
    (¬ ∀ normalize types a b behind behind' m n, IndexRow.Matches a types →
      IndexRow.Matches b types →
      a.NulFree normalize types → b.NulFree normalize types → m < 2 ^ 64 → n < 2 ^ 64 →
        a.keySize normalize types < 2 ^ 16 → b.keySize normalize types < 2 ^ 16 →
          KeysOrdered normalize types a b behind behind' m n) ∧
      ¬ ∀ normalize types a b behind behind' m n, IndexRow.Matches a types →
        IndexRow.Matches b types →
        a.NulFree normalize types → b.NulFree normalize types → m < 2 ^ 64 → n < 2 ^ 64 →
          a.Inline types → b.Inline types → KeysOrdered normalize types a b behind behind' m n := by
  constructor
  · intro hall
    obtain ⟨ka, kb, hka, hkb, -, hzero, -⟩ := hall asciiFold [⟨.varchar, 1⟩]
      (singleRow (textColumn (List.replicate 12 (byte 0x61) ++ [byte 0x61]) (by decide)))
      (singleRow (textColumn (List.replicate 12 (byte 0x61) ++ [byte 0x62]) (by decide)))
      (fun _ _ => byte 0x7a) (fun _ _ => byte 0x7a) 0 0 (by unfold IndexRow.Matches; decide)
      (by unfold IndexRow.Matches; decide) (by unfold IndexRow.NulFree; decide)
      (by unfold IndexRow.NulFree; decide) (by decide) (by decide) (by decide) (by decide)
    have hsame : some ka = some kb := by
      rw [← hka, ← hkb]
      decide
    have hranks := (hzero.mp (cmpFull_zero.mpr (Option.some.inj hsame))).1
    have hnormal := Sum.inr.inj (List.cons.inj hranks).1
    revert hnormal
    decide
  · intro hall
    obtain ⟨hm, hi, hempty⟩ := buildKeyOf_manyBigints 0 (by decide) (by decide)
    obtain ⟨hm', hi', hempty'⟩ := buildKeyOf_manyBigints 1 (by decide) (by decide)
    obtain ⟨ka, kb, hka, hkb, -, hzero, -⟩ :=
      hall _ _ _ _ (fun _ _ => byte 0) (fun _ _ => byte 0) 0 0 hm hm'
      (fun _ _ => trivial) (fun _ _ => trivial) (by decide) (by decide) hi hi'
    have hsame : ka = kb := by
      rw [← Option.some.inj (hempty.symm.trans hka), ← Option.some.inj (hempty'.symm.trans hkb)]
    have hranks := (hzero.mp (cmpFull_zero.mpr hsame)).1
    unfold IndexRow.rank manyBigints at hranks
    rw [List.map_replicate, List.map_replicate, List.replicate_succ, List.replicate_succ] at hranks
    exact absurd (Sum.inl.inj (List.cons.inj hranks).1) (by decide)

end Keys

end KeyNormEncoder

end Db7
