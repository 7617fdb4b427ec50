import Db7.Index.KeyEncoder
import Db7.Lib.Lists

/-!
# Texts in keys

`EncodeStringNormalized` lets `utf8proc_decompose` store the code points of a text, four bytes each,
where its code is to be, and encodes them in place afterwards; bytes that are no UTF-8 are an error.
What is stored is bounded by nothing, and binary values are texts too.

* **writes** (`buildKeyWrites`): every block of bytes that `BuildKey` writes;
* **the buffer** (`key_writes_inside_iff`): when the blocks are inside `MaxKeyLen` bytes;
* **binary columns** (`binary_keys_distinct_iff`): when keys are built, and tell two rows apart.

The decomposition is a parameter: it is done by a library.
-/

namespace Db7

open Lib

namespace KeyNormEncoder

/-! ## Code points -/

/-- The code points that `utf8proc_decompose` stores before the end or an error, and whether it
came to the end. -/
structure Decomposition where
  points : List Nat
  complete : Bool

/-- `utf8proc_encode_char`. -/
def encodeChar (uc : Nat) : List Byte :=
  if uc < 0x80 then [byte uc]
  else if uc < 0x800 then [byte (0xC0 + (uc >>> 6)), byte (0x80 + uc % 0x40)]
  else if uc < 0x10000 then [byte (0xE0 + (uc >>> 12)), byte (0x80 + (uc >>> 6) % 0x40),
    byte (0x80 + uc % 0x40)]
  else if uc < 0x110000 then
    [byte (0xF0 + (uc >>> 18)), byte (0x80 + (uc >>> 12) % 0x40), byte (0x80 + (uc >>> 6) % 0x40),
      byte (0x80 + uc % 0x40)]
  else []

/-- The bytes that are read as a text: `GetSize` of them from `GetInline` on. -/
def textData (ptr : Mem) : List Byte := ptr.read 4 (loadLE ptr 4)

/-- The text that is written where the decomposition is complete. -/
def normalized (decompose : Bool → List Byte → Decomposition) (isCaseSensitive : Bool)
    (data : List Byte) : List Byte :=
  (decompose isCaseSensitive data).points.flatMap encodeChar

/-! ## Writes -/

/-- A block of bytes that is written. -/
structure Written where
  offset : Nat
  size : Nat

/-- All bytes of the block are among the first `len`. -/
def Written.Inside (b : Written) (len : Nat) : Prop := ∀ i < b.size, b.offset + i < len

theorem Written.inside_iff {b : Written} {len : Nat} (h : 0 < b.size) :
    b.Inside len ↔ b.offset + b.size ≤ len := by
  constructor
  · intro hin
    have hlast := hin (b.size - 1) (by omega)
    omega
  · intro hle i hi
    omega

/-- `key_buffer_size_`: `MaxKeyLen`, with its sum in a `u16`. -/
def keyBufferSize (types : List TypeSize) : UInt16 :=
  types.foldl (fun n t => n + UInt16.ofNat (maxEncodedSize t.type)) 0 + 8

theorem toNat_keyBufferSize (types : List TypeSize) :
    (keyBufferSize types).toNat = maxKeyLen (types.map TypeSize.type) % 2 ^ 16 := by
  have hfold : ∀ n :
      UInt16, (types.foldl (fun n t => n + UInt16.ofNat (maxEncodedSize t.type)) n).toNat =
      (n.toNat + ((types.map TypeSize.type).map maxEncodedSize).sum) % 2 ^ 16 := by
    induction types with
    | nil => exact fun n => (Nat.mod_eq_of_lt n.toNat_lt).symm
    | cons t types ih =>
        intro n
        rw [List.foldl_cons, ih, UInt16.toNat_add, List.map_cons, List.map_cons, List.sum_cons,
          UInt16.toNat_ofNat',
          Nat.add_mod_mod, Nat.mod_add_mod, Nat.add_assoc]
  unfold keyBufferSize maxKeyLen
  rw [UInt16.toNat_add, hfold]
  show (_ % 2 ^ 16 + 8) % 2 ^ 16 = _
  rw [Nat.mod_add_mod]
  show (0 + _ + 8) % 2 ^ 16 = _
  rw [Nat.zero_add]

section Encoder

variable (decompose : Bool → List Byte → Decomposition)

/-- What `Encode` writes at `cur` for a value that is not nullable, and the size that it returns;
nothing where it throws. -/
def encodeWrites (cur : Nat) (ptr : Mem) : CType → List Written × Option Nat
  | .unsigned w | .signed w => ([⟨cur, w⟩], some w)
  | .double => ([⟨cur, 8⟩], some 8)
  | .bytes =>
      let d := decompose false (textData ptr)
      let scratch : Written := ⟨cur, 4 * d.points.length⟩
      let size := (normalized decompose false (textData ptr)).length + 1
      if d.complete then ([scratch, ⟨cur, size⟩], some size) else ([scratch], none)

/-- What `BuildKey` writes from `cur` on, until it throws or returns. -/
def buildKeyWrites (chunk : ColOid → Option Mem) : Nat → List TypeSize → List Written
  | cur, [] => [⟨cur, 8⟩]
  | cur, t :: types =>
      match chunk t.colId with
      | none => []
      | some ptr =>
          match encodeWrites decompose cur ptr t.type.cType with
          | (blocks, some size) => blocks ++ buildKeyWrites chunk (cur + size) types
          | (blocks, none) => blocks

/-- The code points of every text that is reached have four bytes each behind the codes of the
columns before it, and there is room for the whole key. -/
def Fits (chunk : ColOid → Option Mem) (len : Nat) : Nat → List TypeSize → Prop
  | cur, [] => cur + 8 ≤ len
  | cur, t :: types =>
      match chunk t.colId with
      | none => cur ≤ len
      | some ptr =>
          match t.type.cType with
          | .unsigned w | .signed w => Fits chunk len (cur + w) types
          | .double => Fits chunk len (cur + 8) types
          | .bytes =>
              cur + 4 * (decompose false (textData ptr)).points.length ≤ len ∧
                ((decompose false (textData ptr)).complete = true →
                  Fits chunk len (cur + ((normalized decompose false (textData ptr)).length + 1))
                    types)

end Encoder

section Buffer

variable {decompose : Bool → List Byte → Decomposition} {chunk : ColOid → Option Mem}
  {len cur : Nat} {types : List TypeSize}

/-- What fits begins inside. -/
theorem Fits.le (h : Fits decompose chunk len cur types) : cur ≤ len := by
  induction types generalizing cur with
  | nil => exact Nat.le_of_add_right_le h
  | cons t types ih =>
      unfold Fits at h
      cases hptr : chunk t.colId with
      | none =>
          rw [hptr] at h
          exact h
      | some ptr =>
          rw [hptr] at h
          dsimp only at h
          cases htype : t.type.cType with
          | unsigned w | signed w | double =>
              rw [htype] at h
              exact Nat.le_of_add_right_le (ih h)
          | bytes =>
              rw [htype] at h
              exact Nat.le_of_add_right_le h.1

/-- A column of a fixed size, and what follows. -/
theorem fixed_iff {w : Nat} (hw : 0 < w) {blocks : List Written}
    (ih : cur + w ≤ len →
      ((∀ b ∈ blocks, b.Inside len) ↔ Fits decompose chunk len (cur + w) types)) :
    (∀ b ∈ (⟨cur, w⟩ : Written) :: blocks, b.Inside len) ↔
      Fits decompose chunk len (cur + w) types := by
  rw [List.forall_mem_cons, Written.inside_iff hw]
  constructor
  · rintro ⟨hle, hrest⟩
    exact (ih hle).mp hrest
  · intro hfits
    exact ⟨hfits.le, (ih hfits.le).mpr hfits⟩

theorem writes_inside_iff (hcur : cur ≤ len) :
    (∀ b ∈ buildKeyWrites decompose chunk cur types, b.Inside len) ↔
      Fits decompose chunk len cur types := by
  induction types generalizing cur with
  | nil =>
      unfold buildKeyWrites Fits
      rw [List.forall_mem_singleton, Written.inside_iff (Nat.succ_pos 7)]
  | cons t types ih =>
      unfold buildKeyWrites Fits
      cases hptr : chunk t.colId with
      | none => exact ⟨fun _ => hcur, fun _ b hb => absurd hb List.not_mem_nil⟩
      | some ptr =>
          dsimp only
          cases htype : t.type.cType with
          | unsigned w => exact fixed_iff (cType_width (.inl htype)) ih
          | signed w => exact fixed_iff (cType_width (.inr htype)) ih
          | double => exact fixed_iff (by decide) ih
          | bytes =>
              unfold encodeWrites
              dsimp only
              -- an empty scratch block is inside wherever it begins
              have hscratch :
                  Written.Inside ⟨cur, 4 * (decompose false (textData ptr)).points.length⟩ len ↔
                  cur + 4 * (decompose false (textData ptr)).points.length ≤ len := by
                rcases Nat.eq_zero_or_pos
                  (4 * (decompose false (textData ptr)).points.length) with hzero | hpos
                · rw [hzero]
                  exact ⟨fun _ => hcur, fun _ i hi => absurd hi (Nat.not_lt_zero i)⟩
                · exact Written.inside_iff hpos
              cases hcomplete : (decompose false (textData ptr)).complete with
              | false =>
                  rw [if_neg Bool.false_ne_true, List.forall_mem_singleton, hscratch]
                  exact ⟨fun hle => ⟨hle, fun h => absurd h Bool.false_ne_true⟩, And.left⟩
              | true =>
                  rw [if_pos rfl]
                  dsimp only
                  rw [List.cons_append, List.forall_mem_cons, hscratch]
                  refine and_congr_right fun _ => ?_
                  rw [forall_prop_of_true rfl]
                  exact fixed_iff (Nat.succ_pos _) ih

/-- **Everything that `BuildKey` writes is inside the `MaxKeyLen` bytes of the index exactly when
the code points of its texts and the whole key fit.** -/
theorem key_writes_inside_iff (decompose : Bool → List Byte → Decomposition)
    (chunk : ColOid → Option Mem) (types : List TypeSize) :
    (∀ b ∈ buildKeyWrites decompose chunk 0 types, b.Inside (keyBufferSize types).toNat) ↔
      Fits decompose chunk (keyBufferSize types).toNat 0 types :=
  writes_inside_iff (Nat.zero_le _)

/-- The decomposition of ASCII texts with the letter U+0390 in them, whose canonical decomposition
has three code points. -/
def decomposeSample (isCaseSensitive : Bool) : List Byte → Decomposition
  | [] => ⟨[], true⟩
  | [b] =>
      if b.val < 0x80
        then ⟨[if !isCaseSensitive ∧ 0x41 ≤ b.val ∧ b.val ≤ 0x5A then b.val + 0x20 else b.val],
          true⟩
      else ⟨[], false⟩
  | b :: c :: rest =>
      if b = byte 0xCE ∧ c = byte 0x90 then
        ⟨0x3B9 :: 0x308 :: 0x301 :: (decomposeSample isCaseSensitive rest).points,
          (decomposeSample isCaseSensitive rest).complete⟩
      else if b.val < 0x80 then
        ⟨(if !isCaseSensitive ∧ 0x41 ≤ b.val ∧ b.val ≤ 0x5A then b.val + 0x20 else b.val) ::
            (decomposeSample isCaseSensitive (c :: rest)).points,
              (decomposeSample isCaseSensitive (c :: rest)).complete⟩
      else ⟨[], false⟩

/-- Six times U+0390. -/
def sixLetters : List Byte := (List.replicate 6 [byte 0xCE, byte 0x90]).flatten

/-- The texts of a row are inline and complete. -/
def TextsOk (decompose : Bool → List Byte → Decomposition) (row : IndexRow)
    (types : List TypeSize) : Prop :=
  row.Matches types ∧ row.Inline types ∧
    ∀ t ∈ types, ∀ bytes, (row t.colId).value = .text bytes →
      (decompose false bytes).complete = true

/-- Their 18 code points take 72 bytes of a buffer of 60. -/
theorem scratch_overruns : ¬∀ (types : List TypeSize) (row : IndexRow) (behind : ColOid → Mem),
    TextsOk decomposeSample row types →
      ∀ b ∈ buildKeyWrites decomposeSample (row.chunk behind) 0 types,
        b.Inside (keyBufferSize types).toNat := by
  intro hall
  have hok : TextsOk decomposeSample (singleRow (textColumn sixLetters (by decide)))
      [⟨.varchar, 1⟩] := by
    refine ⟨by unfold IndexRow.Matches; decide, by unfold IndexRow.Inline; decide,
      fun t _ bytes hbytes => ?_⟩
    obtain rfl := ColumnValue.text.inj hbytes
    decide
  have hinside := hall [⟨.varchar, 1⟩] _ (fun _ _ => byte 0) hok ⟨0, 72⟩ List.mem_cons_self
  exact absurd (hinside 60 (by decide)) (by decide)

end Buffer

/-! ## Binary columns -/

section Checked

variable (decompose : Bool → List Byte → Decomposition)

/-- `SwitchType` of a column that is not nullable; nothing where `EncodeStringNormalized` throws. -/
def switchTypeChecked (ptr : Mem) (type : TypeId) : Option (List Byte) :=
  match type.cType with
  | .bytes =>
      if (decompose false (textData ptr)).complete then
        some (encodeStringNormalized (normalized decompose) (textData ptr) false)
      else none
  | cType => some (encodeValue (normalized decompose) ptr ⟨false, false⟩ cType)

/-- `BuildKey`, where a text that is no UTF-8 is an error. -/
def buildKeyChecked (chunk : ColOid → Option Mem) (keyValue : Nat) (types : List TypeSize) :
    Option Key := do
  let columns ← types.mapM fun t => (chunk t.colId).bind fun ptr =>
      switchTypeChecked decompose ptr t.type
  let out := columns.flatten ++ encodeUnsigned 8 keyValue
  some (out.take (out.length % 2 ^ 16))

/-- The codes of binary values. -/
def binaryCodes (values : List (List Byte)) : List Byte :=
  values.flatMap fun bytes => normalized decompose false bytes ++ [byte 0]

/-- The pieces between the zeros of the normalised values, one value behind the other. -/
def binaryPieces (values : List (List Byte)) : List (List Byte) :=
  values.flatMap fun bytes => (normalized decompose false bytes).splitOn (byte 0)

/-- What a key keeps of the codes: its length is a `u16`. -/
def keptCodes (values : List (List Byte)) : List Byte :=
  (binaryCodes decompose values).take (((binaryCodes decompose values).length + 8) % 2 ^ 16 - 8)

/-- The key has a length that a `u16` holds. -/
def ShortKey (values : List (List Byte)) : Prop :=
  (binaryCodes decompose values).length + 8 < 2 ^ 16

/-- The values of two rows have the same pieces, or the same is kept of them where a key is too
long. -/
def Collide (xs ys : List (List Byte)) : Prop :=
  (ShortKey decompose xs ∧ ShortKey decompose ys ∧ binaryPieces decompose xs =
    binaryPieces decompose ys) ∨
    (¬(ShortKey decompose xs ∧ ShortKey decompose ys) ∧ keptCodes decompose xs =
      keptCodes decompose ys)

/-- All values are UTF-8. -/
def AllComplete (values : List (List Byte)) : Prop :=
  ∀ bytes ∈ values, (decompose false bytes).complete = true

end Checked

end KeyNormEncoder

/-- The bytes of a text. -/
def ColumnValue.bytes : ColumnValue → List Byte
  | .number _ => []
  | .text bytes => bytes

/-- The values of binary columns. -/
def IndexRow.binaries (row : IndexRow) (types : List TypeSize) : List (List Byte) :=
  types.map fun t => (row t.colId).value.bytes

namespace KeyNormEncoder

/-- Both keys are built, and rows with the same column part have the same values. -/
def ToldApart (decompose : Bool → List Byte → Decomposition) (types : List TypeSize)
    (a b : IndexRow) (behind behind' : ColOid → Mem) (m n : Nat) : Prop :=
  ∃ ka kb, buildKeyChecked decompose (a.chunk behind) m types = some ka ∧
    buildKeyChecked decompose (b.chunk behind') n types = some kb ∧
    (columnPart ka = columnPart kb → a.binaries types = b.binaries types)

section Binary

variable {decompose : Bool → List Byte → Decomposition} {types : List TypeSize} {row : IndexRow}
  {behind : ColOid → Mem}

/-- Short keys keep their codes, and the codes are the same when the pieces are. -/
theorem collide_iff (xs ys : List (List Byte)) :
    Collide decompose xs ys ↔ keptCodes decompose xs = keptCodes decompose ys := by
  have hkept : ∀ zs, ShortKey decompose zs → keptCodes decompose zs = binaryCodes decompose zs := by
    intro zs hshort
    have hmod :
        ((binaryCodes decompose zs).length + 8) % 2 ^ 16 = (binaryCodes decompose zs).length + 8 :=
      Nat.mod_eq_of_lt hshort
    unfold keptCodes
    rw [hmod, Nat.add_sub_cancel, List.take_length]
  have hpieces : binaryCodes decompose xs = binaryCodes decompose ys ↔ binaryPieces decompose xs =
      binaryPieces decompose ys := by
    have hmap : ∀ zs, binaryCodes decompose zs = (zs.map (normalized decompose false)).flatMap
        fun t => t ++ [byte 0] := by
      intro zs
      rw [List.flatMap_map]
      rfl
    have hmap' : ∀ zs, binaryPieces decompose zs =
        (zs.map (normalized decompose false)).flatMap fun t => t.splitOn (byte 0) := by
      intro zs
      rw [List.flatMap_map]
      rfl
    rw [hmap, hmap, hmap', hmap']
    exact terminated_inj (byte 0) _ _
  unfold Collide
  by_cases hshort : ShortKey decompose xs ∧ ShortKey decompose ys
  · rw [hkept xs hshort.1, hkept ys hshort.2, hpieces]
    constructor
    · rintro (⟨-, -, heq⟩ | ⟨hnot, -⟩)
      · exact heq
      · exact absurd hshort hnot
    · exact fun heq => .inl ⟨hshort.1, hshort.2, heq⟩
  · constructor
    · rintro (⟨hx, hy, -⟩ | ⟨-, heq⟩)
      · exact absurd ⟨hx, hy⟩ hshort
      · exact heq
    · exact fun heq => .inr ⟨hshort, heq⟩

/-- The code of a binary column. -/
theorem switchTypeChecked_binary {t : TypeSize} (hbinary : t.type = .varbinary)
    (hmatch : (row t.colId).type = t.type) (hinline : (row t.colId).value.Inline) :
    ((row.chunk behind t.colId).bind fun ptr => switchTypeChecked decompose ptr t.type) =
      if (decompose false (row t.colId).value.bytes).complete then
        some (normalized decompose false (row t.colId).value.bytes ++ [byte 0])
      else none := by
  have hrange := (row t.colId).inRange
  rw [hmatch, hbinary] at hrange
  unfold IndexRow.chunk
  rw [hmatch, hbinary]
  cases hvalue : (row t.colId).value with
  | number n =>
      rw [hvalue] at hrange
      exact hrange.elim
  | text bytes =>
      rw [hvalue] at hinline
      have hread : textData ((ColumnValue.text bytes).store (behind t.colId) .bytes) = bytes :=
        read_store_text (behind t.colId) hinline
      show switchTypeChecked decompose ((ColumnValue.text bytes).store (behind t.colId) .bytes)
        .varbinary = _
      unfold switchTypeChecked TypeId.cType
      dsimp only
      rw [hread]
      rfl

/-- The codes and the id, cut to the length. -/
def binaryKey (decompose : Bool → List Byte → Decomposition) (values : List (List Byte)) (m : Nat) :
    Key :=
  (binaryCodes decompose values ++ encodeUnsigned 8 m).take
    (((binaryCodes decompose values).length + 8) % 2 ^ 16)

theorem columnPart_binaryKey (values : List (List Byte)) (m : Nat) :
    columnPart (binaryKey decompose values m) = keptCodes decompose values := by
  have hlen : (binaryCodes decompose values ++ encodeUnsigned 8 m).length =
      (binaryCodes decompose values).length + 8 := by
    rw [List.length_append]
    exact congrArg (_ + ·) (length_toBE 8 m)
  have hcut : ((binaryCodes decompose values).length + 8) % 2 ^ 16 ≤
      (binaryCodes decompose values).length + 8 := Nat.mod_le ..
  unfold columnPart binaryKey keptCodes
  rw [List.length_take, hlen, Nat.min_eq_left hcut, List.take_take, Nat.min_eq_left (Nat.sub_le ..),
    List.take_append_of_le_length (by omega)]

section Keys

variable (hbinary : ∀ t ∈ types, t.type = .varbinary) (hmatch : row.Matches types)
  (hinline : row.Inline types) (m : Nat)
include hbinary hmatch hinline

/-- `BuildKey` of binary columns that are UTF-8. -/
theorem buildKeyChecked_complete (hcomplete : AllComplete decompose (row.binaries types)) :
    buildKeyChecked decompose (row.chunk behind) m types =
      some (binaryKey decompose (row.binaries types) m) := by
  have hcolumns :
      (types.mapM fun t => (row.chunk behind t.colId).bind fun ptr =>
        switchTypeChecked decompose ptr t.type) =
      some (types.map fun t => normalized decompose false (row t.colId).value.bytes ++
        [byte 0]) := by
    refine mapM_eq_some_map fun t ht => ?_
    rw [switchTypeChecked_binary (hbinary t ht) (hmatch t ht) (hinline t ht)]
    exact if_pos (hcomplete _ (List.mem_map_of_mem ht))
  have hcodes :
      (types.map fun t => normalized decompose false (row t.colId).value.bytes ++
        [byte 0]).flatten =
      binaryCodes decompose (row.binaries types) := by
    unfold binaryCodes IndexRow.binaries
    rw [List.flatMap_map, List.flatMap_def]
  unfold buildKeyChecked
  rw [hcolumns]
  show some (List.take ((List.flatten _ ++ encodeUnsigned 8 m).length % 2 ^ 16)
    (List.flatten _ ++ encodeUnsigned 8 m)) = _
  rw [hcodes, List.length_append]
  unfold binaryKey
  rw [show (encodeUnsigned 8 m).length = 8 from length_toBE 8 m]

/-- A value that is no UTF-8 is an error. -/
theorem buildKeyChecked_incomplete (hincomplete : ¬AllComplete decompose (row.binaries types)) :
    buildKeyChecked decompose (row.chunk behind) m types = none := by
  obtain ⟨bytes, hbytes⟩ := not_forall.mp hincomplete
  obtain ⟨hbytes, hnot⟩ := Classical.not_imp.mp hbytes
  obtain ⟨t, ht, rfl⟩ := List.mem_map.mp hbytes
  have hnone :
      (types.mapM fun t => (row.chunk behind t.colId).bind fun ptr =>
        switchTypeChecked decompose ptr t.type) =
      none := by
    refine mapM_eq_none ht ?_
    rw [switchTypeChecked_binary (hbinary t ht) (hmatch t ht) (hinline t ht)]
    exact if_neg hnot
  unfold buildKeyChecked
  rw [hnone]
  rfl

theorem buildKeyChecked_cases {k : Key}
    (hkey : buildKeyChecked decompose (row.chunk behind) m types = some k) :
    AllComplete decompose (row.binaries types) ∧
      columnPart k = keptCodes decompose (row.binaries types) := by
  by_cases hcomplete : AllComplete decompose (row.binaries types)
  · rw [buildKeyChecked_complete hbinary hmatch hinline m hcomplete] at hkey
    obtain rfl := Option.some.inj hkey
    exact ⟨hcomplete, columnPart_binaryKey _ m⟩
  · rw [buildKeyChecked_incomplete hbinary hmatch hinline m hcomplete] at hkey
    cases hkey

end Keys

end Binary

/-- **The keys of two rows of binary columns are built, and tell the rows apart, exactly when all
values are UTF-8 and the rows are equal or do not collide.** -/
theorem binary_keys_distinct_iff (decompose : Bool → List Byte → Decomposition)
    (types : List TypeSize) (a b : IndexRow)
    (behind behind' : ColOid → Mem) (m n : Nat) (hbinary : ∀ t ∈ types, t.type = .varbinary)
    (hm : a.Matches types) (hm' : b.Matches types) (hi : a.Inline types) (hi' : b.Inline types) :
    ToldApart decompose types a b behind behind' m n ↔
      AllComplete decompose (a.binaries types) ∧ AllComplete decompose (b.binaries types) ∧
        (a.binaries types = b.binaries types ∨
          ¬Collide decompose (a.binaries types) (b.binaries types)) := by
  rw [collide_iff]
  constructor
  · rintro ⟨ka, kb, hka, hkb, hsame⟩
    obtain ⟨hcomplete, hpart⟩ := buildKeyChecked_cases hbinary hm hi m hka
    obtain ⟨hcomplete', hpart'⟩ := buildKeyChecked_cases hbinary hm' hi' n hkb
    refine ⟨hcomplete, hcomplete', ?_⟩
    by_cases heq : keptCodes decompose (a.binaries types) = keptCodes decompose (b.binaries types)
    · exact .inl (hsame (by rw [hpart, hpart', heq]))
    · exact .inr heq
  · rintro ⟨hcomplete, hcomplete', hapart⟩
    refine ⟨_, _, buildKeyChecked_complete hbinary hm hi m hcomplete,
      buildKeyChecked_complete hbinary hm' hi' n hcomplete', ?_⟩
    rw [columnPart_binaryKey, columnPart_binaryKey]
    exact fun heq => hapart.resolve_right fun hne => hne heq

/-- A binary column. -/
def binaryColumn (t : List Byte) (h : t.length < 2 ^ 32) : Column := ⟨.varbinary, .text t, h⟩

theorem binary_keys_distinct_letters :
    ToldApart decomposeSample [⟨.varbinary, 1⟩] (singleRow (binaryColumn [byte 0x61] (by decide)))
        (singleRow (binaryColumn [byte 0x62] (by decide))) (fun _ _ => byte 0)
        (fun _ _ => byte 0) 0 1 ↔
      AllComplete decomposeSample [[byte 0x61]] ∧ AllComplete decomposeSample [[byte 0x62]] ∧
        ([[byte 0x61]] = [[byte 0x62]] ∨ ¬Collide decomposeSample [[byte 0x61]] [[byte 0x62]]) :=
  binary_keys_distinct_iff decomposeSample [⟨.varbinary, 1⟩] _ _ _ _ 0 1 (by decide)
    (by unfold IndexRow.Matches; decide)
    (by unfold IndexRow.Matches; decide) (by unfold IndexRow.Inline; decide)
      (by unfold IndexRow.Inline; decide)

/-- `A` and `a` have one code. -/
theorem binary_keys_collide : ¬∀ (types : List TypeSize) (a b : IndexRow)
      (behind behind' : ColOid → Mem) (m n : Nat),
    (∀ t ∈ types, t.type = .varbinary) → a.Matches types → b.Matches types → a.Inline types →
      b.Inline types →
      ToldApart decomposeSample types a b behind behind' m n := by
  intro hall
  obtain ⟨ka, kb, hka, hkb, hsame⟩ :=
    hall [⟨.varbinary, 1⟩] (singleRow (binaryColumn [byte 0x41] (by decide)))
    (singleRow (binaryColumn [byte 0x61] (by decide))) (fun _ _ => byte 0)
      (fun _ _ => byte 0) 0 0 (by decide)
    (by unfold IndexRow.Matches; decide) (by unfold IndexRow.Matches; decide)
      (by unfold IndexRow.Inline; decide)
    (by unfold IndexRow.Inline; decide)
  have heq : some ka = some kb := by
    rw [← hka, ← hkb]
    decide
  have hvalues := hsame (by rw [Option.some.inj heq])
  exact absurd hvalues (by decide)

end KeyNormEncoder

end Db7
