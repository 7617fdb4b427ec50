import Db7.Lib.Bytes

/-!
# Index keys

A key is the encoded columns followed by the tuple id in 8 big-endian bytes
(`KeyNormEncoder::BuildKey`). `CmpFull` orders keys lexicographically, which
makes (columns, id) a total order; `CmpPrefix` compares all but the last 8
bytes.

The two agree only as long as no column part is a proper prefix of another:
then the keys with columns `p` form an interval (`eq_of_between`). A VARCHAR
column is its bytes and a terminating zero, so an embedded zero byte breaks
this.
-/

namespace Db7

open Lib

/-- `DB7_PAGE_SIZE`. -/
def db7PageSize : Nat := 8192

/-- `DB7_MAX_ROW_SIZE`. -/
def db7MaxRowSize : Nat := db7PageSize / 10

/-- `Key`, by value. -/
abbrev Key := List Byte

/-- `type_id`. -/
inductive TypeId
  | boolean
  | tinyint | smallint | integer | bigint
  | utinyint | usmallint | uinteger | ubigint
  | double
  | varchar | varbinary
  deriving DecidableEq, Repr

/-- The index oids of `CatalogTableOid`. -/
inductive IndexOid
  | databaseDatoid | databaseDatname
  | namespaceNspoid | namespaceNspname
  | classReloid | classRelname | classRelnamespace
  | attributeAttnum | attributeAttrelidAttname
  | typeTypoid | typeTypname | typeTypnamespace
  | constraintConoid | constraintConname | constraintConnamespace | constraintConrelid
  | constraintConindid | constraintConfrelid
  | languageLanoid | languageLanname
  | procProoid | procProname
  | indexIndoid | indexIndrelid
  deriving DecidableEq, Repr

/-- The types of `AttrsFor`. -/
def attrsFor : IndexOid → List TypeId
  | .databaseDatname | .namespaceNspname | .classRelname | .typeTypname | .constraintConname
  | .languageLanname | .procProname => [.varchar]
  | .attributeAttnum => [.smallint]
  | .attributeAttrelidAttname => [.integer, .varchar]
  | _ => [.integer]

namespace KeyNormEncoder

/-- `MaxEncodedSize` of a column that is not nullable. -/
def maxEncodedSize : TypeId → Nat
  | .boolean | .tinyint | .utinyint => 1
  | .smallint | .usmallint => 2
  | .integer | .uinteger => 4
  | .bigint | .ubigint | .double => 8
  | .varchar | .varbinary => 4 * (12 + 1)

/-- `MaxKeyLen`. -/
def maxKeyLen (types : List TypeId) : Nat := (types.map maxEncodedSize).sum + 8

/-- `BuildKey`, given the encoded columns. -/
def buildKey (columns : Key) (tid : Nat) : Key := columns ++ toBE 8 tid

end KeyNormEncoder

open KeyNormEncoder

theorem maxKeyLen_attrsFor (oid : IndexOid) : maxKeyLen (attrsFor oid) ≤ 64 := by
  cases oid <;> decide

/-- `SlotValLeaf::Result`: the last 8 bytes as a number. -/
def result (k : Key) : Nat := ofBE (k.drop (k.length - 8))

/-- The columns of a key, without the id. -/
def columnPart (k : Key) : Key := k.take (k.length - 8)

/-- The difference of two comparisons that C++ returns when the bytes are equal. -/
def cmpLen (slot main : Nat) : Int :=
  (if main < slot then 1 else 0) - (if main > slot then 1 else 0)

/-- `CmpFull`. -/
def cmpFull (slot main : Key) : Int :=
  let minLen := min main.length slot.length
  let cmp := memcmp (slot.take minLen) (main.take minLen)
  if cmp ≠ 0 then cmp else cmpLen slot.length main.length

/-- `CmpPrefix`; `min_len` is a `u32`. -/
def cmpPrefix (slot main : Key) : Int :=
  let minLen := (min main.length slot.length + 2 ^ 32 - 8) % 2 ^ 32
  if minLen ≥ db7MaxRowSize then 1
  else
    let cmp := memcmp (slot.take minLen) (main.take minLen)
    if cmp ≠ 0 then cmp else cmpLen slot.length main.length

/-! ## `CmpFull` is the lexicographic order -/

theorem cmpFull_cons (a b : Byte) (as bs : Key) :
    cmpFull (a :: as) (b :: bs) = if a < b then -1 else if b < a then 1 else cmpFull as bs := by
  have hmin : min (b :: bs).length (a :: as).length = min bs.length as.length + 1 := by
    simp [Nat.succ_min_succ]
  simp only [cmpFull, hmin, List.take_succ_cons, memcmp]
  by_cases hab : a < b
  · simp [hab]
  · by_cases hba : b < a
    · simp [hab, hba]
    · simp [hab, hba, cmpLen]

theorem cmpFull_lt_eq (a b : Key) :
    (cmpFull a b < 0 ↔ a < b) ∧ (cmpFull a b = 0 ↔ a = b) := by
  induction a generalizing b with
  | nil =>
      cases b with
      | nil => simp [cmpFull, memcmp, cmpLen]
      | cons b bs => simp [cmpFull, memcmp, cmpLen]
  | cons a as ih =>
      cases b with
      | nil => simp [cmpFull, memcmp, cmpLen]
      | cons b bs =>
          rw [cmpFull_cons, List.cons_lt_cons_iff, List.cons.injEq]
          obtain ⟨hlt, heq⟩ := ih bs
          rcases lt_trichotomy a b with h | rfl | h
          · simp [h, h.ne]
          · simp [hlt, heq]
          · simp [h, h.not_gt, h.ne']

theorem cmpFull_neg {a b : Key} : cmpFull a b < 0 ↔ a < b := (cmpFull_lt_eq a b).1

theorem cmpFull_zero {a b : Key} : cmpFull a b = 0 ↔ a = b := (cmpFull_lt_eq a b).2

theorem cmpFull_nonpos {a b : Key} : cmpFull a b ≤ 0 ↔ a ≤ b := by
  rw [Int.le_iff_lt_or_eq, cmpFull_neg, cmpFull_zero, le_iff_lt_or_eq]

/-! ## `CmpPrefix` compares the columns -/

theorem memcmp_eq_zero : ∀ {as bs : Key}, as.length = bs.length → (memcmp as bs = 0 ↔ as = bs)
  | [], [], _ => by simp [memcmp]
  | a :: as, b :: bs, h => by
      have ih := @memcmp_eq_zero as bs (by simpa using h)
      rcases lt_trichotomy a b with hlt | rfl | hgt
      · simp [memcmp, hlt, hlt.ne]
      · simp [memcmp, ih]
      · simp [memcmp, hgt, hgt.not_gt, hgt.ne']

theorem cmpLen_eq_zero {m n : Nat} : cmpLen m n = 0 ↔ m = n := by
  unfold cmpLen
  split <;> split <;> omega

/-- Two keys that fit in a row compare equal in `CmpPrefix` when their columns
are the same. -/
theorem cmpPrefix_eq_zero {a b : Key} (ha : 8 ≤ a.length) (hb : 8 ≤ b.length)
    (hlen : min b.length a.length < db7MaxRowSize) :
    cmpPrefix a b = 0 ↔ a.take (a.length - 8) = b.take (b.length - 8) := by
  have hmin : (min b.length a.length + 2 ^ 32 - 8) % 2 ^ 32 = min b.length a.length - 8 := by
    have : db7MaxRowSize = 819 := rfl
    omega
  have hsmall : ¬ min b.length a.length - 8 ≥ db7MaxRowSize := by omega
  simp only [cmpPrefix, hmin, if_neg hsmall]
  constructor
  · intro h
    split at h <;> rename_i hmem
    · exact absurd h hmem
    · have hlen' : a.length = b.length := cmpLen_eq_zero.mp h
      rw [hlen', Nat.min_self] at hmem
      rw [hlen']
      exact (memcmp_eq_zero (by simp [hlen'])).mp (not_not.mp hmem)
  · intro h
    have hlen' : a.length = b.length := by
      have := congrArg List.length h
      simp only [List.length_take] at this
      omega
    rw [hlen', Nat.min_self]
    rw [hlen'] at h
    rw [if_neg (not_not.mpr ((memcmp_eq_zero (by simp [hlen'])).mpr h))]
    exact cmpLen_eq_zero.mpr rfl

/-- Column parts that part before either ends decide, whatever follows them. -/
theorem memcmp_take_append : ∀ {p q : Key}, ¬ p <+: q → ¬ q <+: p → ∀ x y : Key,
    memcmp (p.take (min q.length p.length)) (q.take (min q.length p.length)) ≠ 0 ∧
      (memcmp (p.take (min q.length p.length)) (q.take (min q.length p.length)) < 0 ↔
        p ++ x < q ++ y)
  | [], q, hp, _ => absurd (List.nil_prefix) hp
  | a :: as, [], _, hq => absurd (List.nil_prefix) hq
  | a :: as, b :: bs, hp, hq => by
      intro x y
      have hmin : min (b :: bs).length (a :: as).length = min bs.length as.length + 1 := by
        simp [Nat.succ_min_succ]
      rw [hmin, List.take_succ_cons, List.take_succ_cons, List.cons_append, List.cons_append,
        List.cons_lt_cons_iff]
      rcases lt_trichotomy a b with hlt | rfl | hgt
      · simp [memcmp, hlt, hlt.ne]
      · have ih :=
          memcmp_take_append (fun h => hp (by simpa using h)) (fun h => hq (by simpa using h)) x y
        simpa [memcmp] using ih
      · simp [memcmp, hgt, hgt.not_gt, hgt.ne']

/-- Where no column part is a prefix of the other, `CmpPrefix` agrees with the order
of any keys that have them. -/
theorem cmpPrefix_neg {p q : Key} (hpq : ¬ p <+: q) (hqp : ¬ q <+: p)
    (hlen : p.length + 8 < db7MaxRowSize) (m n k : Nat) :
    cmpPrefix (buildKey p m) (buildKey q n) < 0 ↔ buildKey p m < buildKey q k := by
  have hmax : db7MaxRowSize = 819 := rfl
  have hmin : (min (buildKey q n).length (buildKey p m).length + 2 ^ 32 - 8) % 2 ^ 32 =
      min q.length p.length := by
    simp only [buildKey, List.length_append, length_toBE]
    omega
  have hsmall : ¬ min q.length p.length ≥ db7MaxRowSize := by omega
  have htake : ∀ {r : Key} (t : Nat), min q.length p.length ≤ r.length →
      (buildKey r t).take (min q.length p.length) = r.take (min q.length p.length) := by
    intro r t hr
    rw [buildKey, List.take_append_of_le_length hr]
  obtain ⟨hne, hlt⟩ := memcmp_take_append hpq hqp (toBE 8 m) (toBE 8 k)
  simp only [cmpPrefix, hmin, if_neg hsmall, htake m (Nat.min_le_right ..),
    htake n (Nat.min_le_left ..)]
  rw [if_pos hne]
  exact hlt

/-! ## Columns and ids -/

@[simp] theorem length_buildKey (p : Key) (tid : Nat) : (buildKey p tid).length = p.length + 8 := by
  simp [buildKey]

theorem take_buildKey (p : Key) (tid : Nat) :
    (buildKey p tid).take ((buildKey p tid).length - 8) = p := by
  simp [buildKey]

theorem result_buildKey (p : Key) {tid : Nat} (h : tid < 2 ^ 64) :
    result (buildKey p tid) = tid := by
  have hdrop : (buildKey p tid).drop ((buildKey p tid).length - 8) = toBE 8 tid := by
    simp [buildKey]
  rw [result, hdrop, ofBE_toBE]
  exact Nat.mod_eq_of_lt h

theorem result_lt {k : Key} (h : 8 ≤ k.length) : result k < 2 ^ 64 := by
  have hlt := ofBE_lt (k.drop (k.length - 8))
  rw [List.length_drop, Nat.sub_sub_self h] at hlt
  exact hlt

/-- A key is its column part and its id. -/
theorem buildKey_columnPart {k : Key} (h : 8 ≤ k.length) :
    buildKey (columnPart k) (result k) = k := by
  have hdrop := toBE_ofBE (k.drop (k.length - 8))
  rw [List.length_drop, Nat.sub_sub_self h] at hdrop
  rw [buildKey, columnPart, result, hdrop, List.take_append_drop]

theorem buildKey_lt_iff (p : Key) {m n : Nat} (hm : m < 2 ^ 64) (hn : n < 2 ^ 64) :
    buildKey p m < buildKey p n ↔ m < n := by
  have happ : ∀ p : Key, p ++ toBE 8 m < p ++ toBE 8 n ↔ toBE 8 m < toBE 8 n := by
    intro p
    induction p with
    | nil => simp
    | cons c p ih => rw [List.cons_append, List.cons_append, List.cons_lt_cons_iff]; simp [ih]
  rw [buildKey, buildKey, happ, toBE_lt_iff, Nat.mod_eq_of_lt (by simpa using hm),
    Nat.mod_eq_of_lt (by simpa using hn)]

theorem buildKey_zero_le (p : Key) {n : Nat} (hn : n < 2 ^ 64) : buildKey p 0 ≤ buildKey p n := by
  rcases Nat.eq_zero_or_pos n with rfl | hpos
  · exact le_rfl
  · exact ((buildKey_lt_iff p (by decide) hn).mpr hpos).le

theorem buildKey_inj {p q : Key} {m n : Nat} (hm : m < 2 ^ 64) (hn : n < 2 ^ 64) :
    buildKey p m = buildKey q n ↔ p = q ∧ m = n := by
  constructor
  · intro h
    refine ⟨by rw [← take_buildKey p m, h, take_buildKey], ?_⟩
    rw [← result_buildKey p hm, h, result_buildKey q hn]
  · rintro ⟨rfl, rfl⟩
    rfl

/-- No string of `S` is a proper prefix of another. -/
def PrefixFree (S : Key → Prop) : Prop := ∀ p q, S p → S q → p <+: q → p = q

/-- The keys with columns `p` are an interval among the keys of a prefix-free
set. -/
theorem eq_of_between {S : Key → Prop} (hS : PrefixFree S) {p q : Key} {l m n : Nat} (hp : S p)
    (hq : S q) (hl : buildKey p l ≤ buildKey q m) (hr : buildKey q m ≤ buildKey p n) : q = p := by
  have hpre : p <+: buildKey q m := prefix_of_between hl hr
  rcases List.prefix_or_prefix_of_prefix hpre (List.prefix_append q _) with h | h
  · exact (hS p q hp hq h).symm
  · exact hS q p hq hp h

end Db7
