import Db7.Catalog.Namespaces

/-!
# The namespaces as a finite map

The transaction that has the write lock creates, deletes and looks up namespaces. Its
calls refine a map from oids to names (`NamespaceMap`): a create takes an oid that was
never used and fails exactly when a namespace has the name, up to normalisation; a delete
takes out its oid; a lookup asks for it.

The oids are a `u32` that counts on, so the map is refined as long as it does not come to
an oid again, which are `2 ^ 32` creates (`namespaces_refine_map`).

* **the map** (`NamespaceMap.Run`): its steps, and the answers they allow;
* **invariant** (`Refines`): the indexes of oids and of names hold the same tuples that
  are not deleted, the oids of the tuples have been given, and no version conflicts;
* **steps** (`refines_create`, `refines_delete`, `refines_exists`).
-/

namespace Db7

open Lib Function CatalogColumnOid Value DataChunkBuilder

/-- A call of the transaction. -/
inductive NamespaceCall
  | createNamespace (name : List Byte)
  | deleteNamespace (oid : Oid)
  | existsNamespace (oid : Oid)
  deriving DecidableEq

/-- What a call returns. -/
inductive NamespaceAnswer
  | created (oid : Oid)
  | refused
  | deleted (success : Bool)
  | found (success : Bool)
  deriving DecidableEq

/-! ## The map -/

/-- The live namespaces, and the oids that have been given to namespaces. -/
structure NamespaceMap where
  names : Oid → Option (List Byte)
  used : List Oid

namespace NamespaceMap

def empty : NamespaceMap := ⟨fun _ => none, []⟩

/-- A live namespace has the name, up to normalisation. -/
def HasName (normalize : Bool → List Byte → List Byte) (m : NamespaceMap) (name : List Byte) :
    Prop :=
  ∃ oid other, m.names oid = some other ∧ normalize false other = normalize false name

/-- The answers to a call and what becomes of the map. -/
def Step (normalize : Bool → List Byte → List Byte) (m : NamespaceMap) :
    NamespaceCall → NamespaceAnswer → NamespaceMap → Prop
  | .createNamespace name, .created oid, m' =>
      ¬ m.HasName normalize name ∧ oid ∉ m.used ∧
        m' = ⟨update m.names oid (some name), oid :: m.used⟩
  | .createNamespace name, .refused, m' => m.HasName normalize name ∧ m' = m
  | .deleteNamespace oid, .deleted success, m' =>
      success = true ∧ m' = ⟨update m.names oid none, m.used⟩
  | .existsNamespace oid, .found success, m' => (success = true ↔ ∃ name, m.names oid = some name) ∧
      m' = m
  | _, _, _ => False

/-- Calls and their answers, one after the other. -/
def Run (normalize : Bool → List Byte → List Byte) (m : NamespaceMap) :
    List (NamespaceCall × NamespaceAnswer) → NamespaceMap → Prop
  | [], m' => m' = m
  | (c, a) :: rest, m' => ∃ m₁, m.Step normalize c a m₁ ∧ m₁.Run normalize rest m'

end NamespaceMap

/-! ## The calls -/

namespace NamespaceCall

/-- The call, made by `t`. -/
def run (env : CatalogEnv) (t : TxnId) (s : DatabaseCatalog) :
    NamespaceCall → NamespaceAnswer × DatabaseCatalog
  | createNamespace name =>
      match DatabaseCatalog.createNamespace env t none name s with
      | .ok oid s' => (.created oid, s')
      | .error _ s' => (.refused, s')
  | deleteNamespace oid =>
      match DatabaseCatalog.deleteNamespace env t none oid s with
      | .ok success s' => (.deleted success, s')
      | .error _ s' => (.deleted false, s')
  | existsNamespace oid =>
      match DatabaseCatalog.existsNamespace env oid s with
      | .ok _ s' => (.found true, s')
      | .error _ s' => (.found false, s')

/-- The names are stored inline. -/
def NameFits : NamespaceCall → Prop
  | createNamespace name => name.length ≤ inlineSizeCap
  | deleteNamespace _ | existsNamespace _ => True

def isCreate : NamespaceCall → Bool
  | createNamespace _ => true
  | deleteNamespace _ | existsNamespace _ => false

/-- Calls one after the other, with their answers. -/
def runAll (env : CatalogEnv) (t : TxnId) : List NamespaceCall → DatabaseCatalog →
    List (NamespaceCall × NamespaceAnswer) × DatabaseCatalog
  | [], s => ([], s)
  | c :: calls, s =>
      let rest := runAll env t calls (c.run env t s).2
      ((c, (c.run env t s).1) :: rest.1, rest.2)

end NamespaceCall

namespace DatabaseCatalog

variable {env : CatalogEnv} {t : TxnId} {s s' : DatabaseCatalog} {m m' : NamespaceMap}
  {tid : TupleId} {oid oid' : Oid} {name old : List Byte}

/-- The key of a name. -/
def nameKey (env : CatalogEnv) (name : List Byte) : Key := env.normalize false name ++ [byte 0]

theorem nameKey_eq_iff {name' : List Byte} :
    nameKey env name = nameKey env name' ↔ env.normalize false name = env.normalize false name' :=
  List.append_left_inj _

theorem columns_nspname (hlen : name.length ≤ inlineSizeCap) :
    env.columns .namespaceNspname (buildNamespaceChunk oid name) = nameKey env name :=
  CatalogEnv.columns_name (c := nspname) rfl (get_nspname oid name) hlen

theorem locks_congr {raced : Option Nat} (hlock : s'.writeLock = s.writeLock)
    (htimes : SameTimes t s s') :
    s'.locks t raced = s.locks t raced := by
  unfold locks
  rw [hlock, htimes.1, htimes.2]

/-! ## The invariant -/

/-- The catalog of `t` denotes the map. -/
structure Refines (env : CatalogEnv) (t : TxnId) (s : DatabaseCatalog) (m : NamespaceMap) :
    Prop where
  tidy : TidyFor t s
  lock : s.locks t none = true
  names : ∀ oid name, m.names oid = some name ↔ HasNamespace env s t oid name
  /-- No version conflicts with `t`. -/
  free : ∀ index key tid, tid ∈ (s.indexes index).get key → ∃ undo,
    s.db.getDelta tid index.heapTblId = some undo ∧ s.db.conflicts t undo = false
  /-- What the index of names has alive is a namespace. -/
  named : ∀ key tid, tid ∈ (s.indexes .namespaceNspname).get key →
    s.db.isLive tid CatalogTable.namespaces.oid = true →
    ∃ oid name, NamespaceAt env s t tid oid name ∧ key = nameKey env name
  /-- Every namespace is in the index of names. -/
  inNames : ∀ tid oid name, NamespaceAt env s t tid oid name →
    tid ∈ (s.indexes .namespaceNspname).get (nameKey env name)
  /-- The oids of the tuples have been given. -/
  given : ∀ tid oid, tid ∈ s.lookup env .namespaceNspoid (buildNamespaceOidChunk oid) → oid ∈ m.used
  counted : ∀ oid ∈ m.used, ∃ k, 1 ≤ k ∧ k < s.nextNamespaceOid ∧ oid = .ofNat k

/-- An empty catalog denotes the empty map. -/
theorem refines_empty (env : CatalogEnv) (htidy : TidyFor t s) (hlock : s.locks t none = true)
    (hempty : ∀ index, s.indexes index = .empty) : Refines env t s .empty := by
  have hnone : ∀ index key tid, tid ∉ (s.indexes index).get key := by
    intro index key tid hmem
    rw [hempty] at hmem
    exact absurd hmem List.not_mem_nil
  refine ⟨htidy, hlock, fun oid name => ?_, fun index key tid hmem =>
    absurd hmem (hnone index key tid),
    fun key tid hmem => absurd hmem (hnone _ key tid), fun tid oid name hat =>
      absurd hat.entry (hnone _ _ tid),
    fun tid oid hmem => absurd hmem (hnone _ _ tid), fun oid hmem => absurd hmem List.not_mem_nil⟩
  refine iff_of_false (by simp [NamespaceMap.empty]) ?_
  rintro ⟨tid, hat⟩
  exact hnone _ _ tid hat.entry

namespace Refines

/-- The indexes show what they showed, and the namespaces are where they were. -/
theorem of_same (h : Refines env t s m) (htidy : TidyFor t s') (hlock : s'.locks t none = true)
    (hsame : ∀ index, SameThrough t s s' index)
    (hat : ∀ tid oid name, NamespaceAt env s' t tid oid name ↔ NamespaceAt env s t tid oid name)
    (hnext : s.nextNamespaceOid ≤ s'.nextNamespaceOid) : Refines env t s' m where
  tidy := htidy
  lock := hlock
  names oid name := (h.names oid name).trans (exists_congr fun tid => (hat tid oid name).symm)
  free index key tid hmem := by
    rw [(hsame index).entries] at hmem
    obtain ⟨undo, hundo, hconflict⟩ := h.free index key tid hmem
    refine ⟨undo, ((hsame index).delta key tid hmem).trans hundo, ?_⟩
    rw [conflicts_congr (hsame index).times]
    exact hconflict
  named key tid hmem hlive := by
    rw [(hsame .namespaceNspname).entries] at hmem
    have hdelta : s'.db.getDelta tid CatalogTable.namespaces.oid =
        s.db.getDelta tid CatalogTable.namespaces.oid :=
      (hsame .namespaceNspname).delta key tid hmem
    rw [isLive_congr hdelta] at hlive
    obtain ⟨oid, name, hat', hkey⟩ := h.named key tid hmem hlive
    exact ⟨oid, name, (hat tid oid name).mpr hat', hkey⟩
  inNames tid oid name hat' := by
    rw [(hsame .namespaceNspname).entries]
    exact h.inNames tid oid name ((hat tid oid name).mp hat')
  given tid oid hmem := by
    unfold lookup at hmem
    rw [(hsame .namespaceNspoid).entries] at hmem
    exact h.given tid oid hmem
  counted oid hmem := by
    obtain ⟨k, hpos, hk, hoid⟩ := h.counted oid hmem
    exact ⟨k, hpos, Nat.lt_of_lt_of_le hk hnext, hoid⟩

/-- Only the lock and the counters are different. -/
theorem of_db (h : Refines env t s m) (hdb : s'.db = s.db) (hfsm : s'.fsm = s.fsm)
    (hindexes : s'.indexes = s.indexes) (hlock : s'.locks t none = true)
    (hnext : s.nextNamespaceOid ≤ s'.nextNamespaceOid) : Refines env t s' m := by
  refine h.of_same (h.tidy.of_same hdb hfsm hindexes) hlock
    (fun index => sameThrough_of_eq hdb hindexes)
    (fun tid oid name => namespaceAt_congr (.of_db hdb) (by rw [hdb]) ?_) hnext
  unfold lookup
  rw [hindexes]

/-! ## What the calls ask -/

/-- Of what an index has, the tuples that are not deleted stand in the way of others. -/
theorem hasUniqueConflict_eq (h : Refines env t s m) {index : IndexOid} {key : Key}
    (hmem : tid ∈ (s.indexes index).get key) :
    s.db.hasUniqueConflict t tid index.heapTblId = s.db.isLive tid index.heapTblId := by
  obtain ⟨undo, hundo, hconflict⟩ := h.free index key tid hmem
  simp [Db.hasUniqueConflict, Db.isLive, hundo, hconflict]

/-- A name is taken when a namespace has it. -/
theorem taken_nspname (h : Refines env t s m) (oid : Oid) (hlen : name.length ≤ inlineSizeCap) :
    s.taken env t .namespaceNspname (buildNamespaceChunk oid name) = true ↔
      m.HasName env.normalize name := by
  unfold taken lookup
  rw [columns_nspname hlen, List.any_eq_true]
  constructor
  · rintro ⟨tid, hmem, hconflict⟩
    rw [h.hasUniqueConflict_eq hmem] at hconflict
    obtain ⟨oid', other, hat, hkey⟩ := h.named _ tid hmem hconflict
    exact ⟨oid', other, (h.names oid' other).mpr ⟨tid, hat⟩, (nameKey_eq_iff.mp hkey).symm⟩
  · rintro ⟨oid', other, hother, hnormal⟩
    obtain ⟨tid, hat⟩ := (h.names oid' other).mp hother
    have hmem := h.inNames tid oid' other hat
    rw [nameKey_eq_iff.mpr hnormal] at hmem
    refine ⟨tid, hmem, ?_⟩
    rw [h.hasUniqueConflict_eq hmem]
    exact hat.live

/-- An oid that has not been given is not taken. -/
theorem taken_nspoid (h : Refines env t s m) (name : List Byte) (hfresh : oid ∉ m.used) :
    s.taken env t .namespaceNspoid (buildNamespaceChunk oid name) = false := by
  unfold taken
  rw [lookup_nspoid, List.any_eq_false]
  exact fun tid hmem => absurd (h.given tid oid hmem) hfresh

/-- The next oid has not been given while the counter has not come round. -/
theorem next_not_used (h : Refines env t s m) (hnext : s.nextNamespaceOid ≤ 2 ^ 32) :
    UInt32.ofNat s.nextNamespaceOid ∉ m.used := by
  intro hmem
  obtain ⟨k, hpos, hk, hoid⟩ := h.counted _ hmem
  have hmod : s.nextNamespaceOid % 2 ^ 32 = k % 2 ^ 32 := by
    have heq := congrArg UInt32.toNat hoid
    rwa [UInt32.toNat_ofNat', UInt32.toNat_ofNat'] at heq
  omega

/-- `ExistsNamespace` finds the namespaces. -/
theorem rowExists_iff (h : Refines env t s m) :
    s.rowExists env .namespaceNspoid (buildNamespaceOidChunk oid) = true ↔ ∃ name,
      m.names oid = some name := by
  unfold rowExists Db.getTidExists
  rw [List.any_eq_true]
  constructor
  · rintro ⟨tid, hmem, hlive⟩
    obtain ⟨undo, hundo, hconflict⟩ := h.free _ _ tid hmem
    have hdeleted : undo.isDeleted = false := by
      simpa [Db.isLive, hundo] using hlive
    obtain ⟨name, hat⟩ := namespaceAt_of_head hmem hundo hconflict hdeleted
    exact ⟨name, (h.names oid name).mpr ⟨tid, hat⟩⟩
  · rintro ⟨name, hname⟩
    obtain ⟨tid, hat⟩ := (h.names oid name).mp hname
    exact ⟨tid, hat.entry, hat.live⟩

/-! ## The steps -/

/-- A row without entries is not seen. -/
theorem row (h : Refines env t s m) (hlen : name.length ≤ inlineSizeCap) :
    Refines env t (s.entered env t .namespaces (buildNamespaceChunk oid name) []) m := by
  have hw := h.tidy.1.sound.wellFormed
  have hnone : ∀ index, index ∉ written [] := fun _ => List.not_mem_nil
  refine h.of_same (h.tidy.entered (List.forall_mem_nil _) (List.forall_mem_nil _)) ?_
    (fun index => sameThrough_entered hw (hnone index)) (fun tid oid' name' => ?_) (Nat.le_refl _)
  · rw [← h.lock]
    exact locks_congr rfl sameTimes_entered
  · rw [namespaceAt_entered hw hlen]
    simp [written]

/-- An entry is a namespace more. -/
theorem entered (h : Refines env t s m) (hlen : name.length ≤ inlineSizeCap) (hoid : oid ∉ m.used)
    (hname : ¬ m.HasName env.normalize name) {k : Nat} (hpos : 1 ≤ k) (hk : k < s.nextNamespaceOid)
    (hcount : oid = .ofNat k) :
    Refines env t (s.entered env t .namespaces (buildNamespaceChunk oid name) namespaceSteps)
      ⟨update m.names oid (some name), oid :: m.used⟩ := by
  have hw := h.tidy.1.sound.wellFormed
  let r := s.entered env t .namespaces (buildNamespaceChunk oid name) namespaceSteps
  have hpass :
      ∀ step ∈ namespaceSteps, step.passes env t s (buildNamespaceChunk oid name) = true := by
    have hfree := (h.taken_nspname oid hlen).not.mpr hname
    simp [namespaceSteps, EntryStep.passes, hfree, h.taken_nspoid name hoid]
  have hat : ∀ tid oid' name', NamespaceAt env r t tid oid' name' ↔
      NamespaceAt env s t tid oid' name' ∨ tid = s.nextTid env .namespaces ∧ oid' = oid ∧
        name' = name := by
    intro tid oid' name'
    rw [namespaceAt_entered hw hlen]
    simp [written, namespaceSteps, EntryStep.writes]
  -- the namespaces that were there have other oids
  have hother : ∀ name', ¬ HasNamespace env s t oid name' := by
    rintro name' ⟨tid, hold⟩
    exact hoid (h.given tid oid hold.entry)
  refine ⟨h.tidy.entered stepsOf_namespaceSteps hpass, ?_, fun oid' name' => ?_,
    fun index key tid hmem => ?_,
    fun key tid hmem hlive => ?_, fun tid oid' name' hat' => ?_, fun tid oid' hmem => ?_,
      fun oid' hmem => ?_⟩
  · rw [← h.lock]
    exact locks_congr rfl sameTimes_entered
  · rw [hasNamespace_entered hw hlen]
    show update m.names oid (some name) oid' = some name' ↔ _
    rw [update_apply]
    have hwritten : IndexOid.namespaceNspoid ∈ written namespaceSteps := by decide
    split
    · rename_i heq
      subst heq
      simp [hother, hwritten, eq_comm]
    · rename_i hne
      simp [h.names, hne]
  · rcases mem_entered.mp hmem with ⟨hwritten, -, rfl⟩ | hold
    · obtain ⟨step, hstep, hwrites⟩ := mem_written.mp hwritten
      rw [(stepsOf_namespaceSteps step hstep index hwrites).1]
      refine ⟨_, delta_nextTid hw, ?_⟩
      rw [conflicts_congr sameTimes_entered]
      exact h.tidy.conflicts_own rfl
    · obtain ⟨undo, hundo, hconflict⟩ := h.free index key tid hold
      refine ⟨undo, (delta_entered hw hold).trans hundo, ?_⟩
      rw [conflicts_congr sameTimes_entered]
      exact hconflict
  · rcases mem_entered.mp hmem with ⟨-, rfl, rfl⟩ | hold
    · exact ⟨oid, name, (hat _ oid name).mpr (.inr ⟨rfl, rfl, rfl⟩), columns_nspname hlen⟩
    · have hdelta : r.db.getDelta tid CatalogTable.namespaces.oid =
          s.db.getDelta tid CatalogTable.namespaces.oid :=
        delta_entered hw hold
      rw [isLive_congr hdelta] at hlive
      obtain ⟨oid', name', hat', hkey⟩ := h.named key tid hold hlive
      exact ⟨oid', name', (hat tid oid' name').mpr (.inl hat'), hkey⟩
  · rcases (hat tid oid' name').mp hat' with hold | ⟨rfl, rfl, rfl⟩
    · exact mem_entered.mpr (.inr (h.inNames tid oid' name' hold))
    · exact mem_entered.mpr (.inl ⟨by decide, (columns_nspname hlen).symm, rfl⟩)
  · rcases mem_entered.mp hmem with ⟨-, hkey, -⟩ | hold
    · rw [columns_nspoid.mp hkey.symm]
      exact List.mem_cons_self
    · exact List.mem_cons_of_mem _ (h.given tid oid' hold)
  · rcases List.mem_cons.mp hmem with rfl | hold
    · exact ⟨k, hpos, hk, hcount⟩
    · exact h.counted oid' hold

/-- A namespace is taken out. -/
theorem deleted (h : Refines env t s m) (hat : NamespaceAt env s t tid oid old)
    (hok : (s.db.deleteUndoRaw t tid CatalogTable.namespaces.oid).1 = true) :
    Refines env t { s with db := (s.db.deleteUndoRaw t tid CatalogTable.namespaces.oid).2 }
      ⟨update m.names oid none, m.used⟩ := by
  have hw := h.tidy.1.sound.wellFormed
  have htimes := @sameTimes_deleteUndoRaw t s tid CatalogTable.namespaces.oid
  refine ⟨tidy_deleteUndoRaw h.tidy tid _, ?_, fun oid' name' => ?_, fun index key other hmem => ?_,
    fun key other hmem hlive => ?_, fun other oid' name' hat' => ?_, h.given, h.counted⟩
  · rw [← h.lock]
    exact locks_congr rfl htimes
  · rw [hasNamespace_deleted h.tidy.1 hat hok]
    show update m.names oid none oid' = some name' ↔ _
    rw [update_apply]
    split
    · rename_i heq
      simp [heq]
    · rename_i hne
      simp [h.names, hne]
  · unfold Db.getDelta
    rw [Db.newest_deleteUndoRaw hw.chains]
    split
    · refine ⟨_, rfl, ?_⟩
      rw [conflicts_congr htimes]
      exact h.tidy.conflicts_own rfl
    · obtain ⟨undo, hundo, hconflict⟩ := h.free index key other hmem
      refine ⟨undo, hundo, ?_⟩
      rw [conflicts_congr htimes]
      exact hconflict
  · have hne : other ≠ tid := by
      rintro rfl
      exact absurd hlive (by simp [isLive_deleteUndoRaw hw hok])
    rw [isLive_congr (getDelta_deleteUndoRaw hw.chains hne)] at hlive
    obtain ⟨oid', name', hat', hkey⟩ := h.named key other hmem hlive
    exact ⟨oid', name', (namespaceAt_deleted hw hok).mpr ⟨hne, hat'⟩, hkey⟩
  · exact h.inNames other oid' name' ((namespaceAt_deleted hw hok).mp hat').2

end Refines

/-! ## The calls -/

/-- A transaction that gets the lock goes on in a catalog with its mark. -/
theorem tryLock_locked (h : s.locks t none = true) : ∃ rollback,
    tryLock t none s = .ok true
      { s with writeLock := (s.db.txns t).finish, rollback := rollback } := by
  obtain ⟨lock, rollback, htry, hlock⟩ := tryLock_eq s t none
  obtain rfl := hlock h
  rw [h] at htry
  exact ⟨rollback, htry⟩

/-- `CreateNamespace` with the lock has taken an oid when it makes the entry. -/
theorem createNamespace_locked (h : Refines env t s m) (name : List Byte) :
    ∃ s', s'.nextNamespaceOid = s.nextNamespaceOid + 1 ∧
    Refines env t s' m ∧
    createNamespace env t none name s =
      createNamespaceEntry env t name (.ofNat s.nextNamespaceOid) s' := by
  obtain ⟨rollback, htry⟩ := tryLock_locked h.lock
  let s' : DatabaseCatalog := { s with
    writeLock := (s.db.txns t).finish, rollback := rollback, nextNamespaceOid :=
      s.nextNamespaceOid + 1 }
  refine ⟨s', rfl, h.of_db rfl rfl rfl (locks_of_owned rfl) (Nat.le_succ _), ?_⟩
  unfold createNamespace
  rw [run_bind_ok htry]
  rfl

theorem nextNamespaceOid_entered {chunk : DataChunk} {steps : List EntryStep} :
    (s.entered env t .namespaces chunk steps).nextNamespaceOid = s.nextNamespaceOid := by
  obtain ⟨indexes, h⟩ := @entered_eq env t s chunk .namespaces steps
  rw [h]
  rfl

/-- A create fails when a namespace has the name. -/
theorem refines_refused (h : Refines env t s m) (hlen : name.length ≤ inlineSizeCap)
    (hname : m.HasName env.normalize name) :
    ∃ message s', createNamespace env t none name s = .error message s' ∧
      Refines env t s' m ∧ s'.nextNamespaceOid = s.nextNamespaceOid + 1 := by
  obtain ⟨r, hnext, hr, hrun⟩ := createNamespace_locked h name
  rw [createNamespaceEntry_eq hr.tidy.1.sound.wellFormed,
    if_pos ((hr.taken_nspname _ hlen).mpr hname)] at hrun
  exact ⟨_, _, hrun, hr.row hlen, nextNamespaceOid_entered.trans hnext⟩

/-- A create of a new name succeeds with a new oid. -/
theorem refines_created (h : Refines env t s m) (hlen : name.length ≤ inlineSizeCap)
    (hname : ¬ m.HasName env.normalize name) (hpos : 1 ≤ s.nextNamespaceOid)
    (hcount : s.nextNamespaceOid ≤ 2 ^ 32) :
    let oid := UInt32.ofNat s.nextNamespaceOid
    ∃ s', createNamespace env t none name s = .ok oid s' ∧ oid ∉ m.used ∧
      Refines env t s' ⟨update m.names oid (some name), oid :: m.used⟩ ∧
      s'.nextNamespaceOid = s.nextNamespaceOid + 1 := by
  intro oid
  have hoid : oid ∉ m.used := h.next_not_used hcount
  obtain ⟨r, hnext, hr, hrun⟩ := createNamespace_locked h name
  have hfree := (hr.taken_nspname oid hlen).not.mpr hname
  have hunused := hr.taken_nspoid name hoid
  rw [createNamespaceEntry_eq hr.tidy.1.sound.wellFormed, if_neg hfree,
    if_neg (by simp [oid, hunused])] at hrun
  exact ⟨_, hrun, hoid, hr.entered hlen hoid hname hpos (by omega) rfl,
    nextNamespaceOid_entered.trans hnext⟩

/-- A create fails, whatever the name, when a namespace has the oid it takes. -/
theorem createNamespace_wrapped (h : Refines env t s m) (hlen : name.length ≤ inlineSizeCap)
    (hname : ¬ m.HasName env.normalize name)
    (hold : m.names (.ofNat s.nextNamespaceOid) = some old) :
    ∃ message s', createNamespace env t none name s = .error message s' := by
  obtain ⟨r, -, hr, hrun⟩ := createNamespace_locked h name
  obtain ⟨tid, hat⟩ := (hr.names _ old).mp hold
  have hfree := (hr.taken_nspname (.ofNat s.nextNamespaceOid) hlen).not.mpr hname
  have htaken :
      r.taken env t .namespaceNspoid (buildNamespaceChunk (.ofNat s.nextNamespaceOid) name) =
      true := by
    unfold taken
    rw [lookup_nspoid, List.any_eq_true]
    exact ⟨tid, hat.entry, (hr.hasUniqueConflict_eq hat.entry).trans hat.live⟩
  rw [createNamespaceEntry_eq hr.tidy.1.sound.wellFormed, if_neg hfree, if_pos htaken] at hrun
  exact ⟨_, _, hrun⟩

/-- When no version conflicts, `GetTidForModify` does not fail. -/
theorem getTidForModify_free {tblId : Nat} {tids : List TupleId}
    (hfree : ∀ tid ∈ tids, ∃ undo, s.db.getDelta tid tblId = some undo ∧
      s.db.conflicts t undo = false) :
    ∃ tid, s.db.getTidForModify t tblId tids = .ok tid := by
  induction tids with
  | nil => exact ⟨invalidTid, rfl⟩
  | cons tid tids ih =>
      obtain ⟨undo, hundo, hconflict⟩ := hfree tid List.mem_cons_self
      obtain ⟨found, hfound⟩ := ih fun other h => hfree other (List.mem_cons_of_mem _ h)
      simp only [Db.getTidForModify, hundo, hconflict, Bool.false_eq_true, if_false]
      split
      · exact ⟨tid, rfl⟩
      · exact ⟨found, hfound⟩

/-- A delete takes out the namespace of the oid, if there is one. -/
theorem refines_delete (h : Refines env t s m) (oid : Oid) :
    ∃ s', deleteNamespace env t none oid s = .ok true s' ∧
    Refines env t s' ⟨update m.names oid none, m.used⟩ ∧ s'.nextNamespaceOid =
      s.nextNamespaceOid := by
  obtain ⟨rollback, htry⟩ := tryLock_locked h.lock
  let r : DatabaseCatalog := { s with writeLock := (s.db.txns t).finish, rollback := rollback }
  have hr : Refines env t r m := h.of_db rfl rfl rfl (locks_of_owned rfl) (Nat.le_refl _)
  have hw := hr.tidy.1.sound.wellFormed
  have hrun : deleteNamespace env t none oid s =
      deleteEntry env t .namespaceNspoid (buildNamespaceChunk oid []) r := by
    unfold deleteNamespace
    rw [run_bind_ok htry]
    rfl
  let tids := r.lookup env .namespaceNspoid (buildNamespaceOidChunk oid)
  obtain ⟨tid, hget⟩ :
      ∃ tid, r.db.getTidForModify t IndexOid.namespaceNspoid.heapTblId tids = .ok tid :=
    getTidForModify_free fun tid hmem => hr.free .namespaceNspoid _ tid hmem
  have hcases := @getTidForModify_cases t r IndexOid.namespaceNspoid.heapTblId tids fun tid hmem =>
    hw.versioned .namespaceNspoid _ tid hmem
  rw [hget] at hcases
  rw [deleteEntry_eq, lookup_nspoid, hget] at hrun
  dsimp only at hrun
  rcases hcases with ⟨rfl, hfree⟩ | ⟨hmem, undo, hundo, hconflict, hdeleted⟩
  · rw [if_pos rfl] at hrun
    refine ⟨r, hrun, ?_, rfl⟩
    -- no tuple of the oid is alive
    have hnone : m.names oid = none := by
      refine Option.eq_none_iff_forall_ne_some.mpr fun name hname => ?_
      obtain ⟨tid, hat⟩ := (hr.names oid name).mp hname
      have hconflict := (hr.hasUniqueConflict_eq hat.entry).trans hat.live
      rw [hfree tid hat.entry] at hconflict
      exact absurd hconflict (by decide)
    rw [← hnone, update_eq_self]
    exact hr
  · have hvalid : tid ≠ invalidTid := by
      rintro rfl
      exact absurd (hw.allocated .namespaceNspoid _ _ hmem).1 (by decide)
    have hok := deleteUndoRaw_of_head hw hundo hconflict hdeleted
    obtain ⟨old, hat⟩ := namespaceAt_of_head hmem hundo hconflict hdeleted
    rw [if_neg hvalid, hok] at hrun
    exact ⟨_, hrun, hr.deleted hat hok, rfl⟩

/-- **A call does what the map does**, if the counter has not come round. -/
theorem refines_step (h : Refines env t s m) {c : NamespaceCall} (hfits : c.NameFits)
    (hpos : 1 ≤ s.nextNamespaceOid) (hcount : c.isCreate = true → s.nextNamespaceOid ≤ 2 ^ 32) :
    ∃ m', m.Step env.normalize c (c.run env t s).1 m' ∧ Refines env t (c.run env t s).2 m' ∧
      (c.run env t s).2.nextNamespaceOid = s.nextNamespaceOid + if c.isCreate then 1 else 0 := by
  cases c with
  | createNamespace name =>
      by_cases hname : m.HasName env.normalize name
      · obtain ⟨message, s', hrun, hr, hnext⟩ := refines_refused h hfits hname
        have hcall : (NamespaceCall.createNamespace name).run env t s = (.refused, s') := by
          simp only [NamespaceCall.run, hrun]
        rw [hcall]
        exact ⟨m, ⟨hname, rfl⟩, hr, hnext⟩
      · obtain ⟨s', hrun, hoid, hr, hnext⟩ := refines_created h hfits hname hpos (hcount rfl)
        have hcall : (NamespaceCall.createNamespace name).run env t s =
            (.created (.ofNat s.nextNamespaceOid), s') := by
          simp only [NamespaceCall.run, hrun]
        rw [hcall]
        exact ⟨_, ⟨hname, hoid, rfl⟩, hr, hnext⟩
  | deleteNamespace oid =>
      obtain ⟨s', hrun, hr, hnext⟩ := refines_delete h oid
      have hcall : (NamespaceCall.deleteNamespace oid).run env t s = (.deleted true, s') := by
        simp only [NamespaceCall.run, hrun]
      rw [hcall]
      exact ⟨_, ⟨rfl, rfl⟩, hr, hnext⟩
  | existsNamespace oid =>
      have hcall : (NamespaceCall.existsNamespace oid).run env t s =
          (.found (s.rowExists env .namespaceNspoid (buildNamespaceOidChunk oid)), s) := by
        simp only [NamespaceCall.run, existsNamespace_eq]
        cases s.rowExists env .namespaceNspoid (buildNamespaceOidChunk oid) <;> rfl
      rw [hcall]
      exact ⟨m, ⟨h.rowExists_iff, rfl⟩, h, rfl⟩

/-- The calls do what the map does. -/
theorem refines_run {calls : List NamespaceCall} (hfits : ∀ c ∈ calls, c.NameFits)
    (h : Refines env t s m) (hpos : 1 ≤ s.nextNamespaceOid)
    (hcount : s.nextNamespaceOid + (calls.filter NamespaceCall.isCreate).length ≤ 2 ^ 32 + 1) :
    ∃ m', m.Run env.normalize (NamespaceCall.runAll env t calls s).1 m' ∧
      Refines env t (NamespaceCall.runAll env t calls s).2 m' := by
  induction calls generalizing s m with
  | nil => exact ⟨m, rfl, h⟩
  | cons c calls ih =>
      obtain ⟨hc, hcalls⟩ := List.forall_mem_cons.mp hfits
      have hlength : ((c :: calls).filter NamespaceCall.isCreate).length =
          (if c.isCreate then 1 else 0) + (calls.filter NamespaceCall.isCreate).length := by
        cases hcreate : c.isCreate <;> simp [hcreate, Nat.add_comm]
      rw [hlength] at hcount
      obtain ⟨m₁, hstep, h₁, hnext⟩ := refines_step h hc hpos fun hcreate => by
        rw [if_pos hcreate] at hcount
        omega
      obtain ⟨m', hrun, hr⟩ := ih hcalls h₁ (by omega) (by omega)
      exact ⟨m', ⟨m₁, hstep, hrun⟩, hr⟩

/-- **The namespaces are a finite map**: what the calls of the transaction answer, and
what namespaces are left, for as many creates as there are oids. -/
theorem namespaces_refine_map {calls : List NamespaceCall} (hr : Reachable env s)
    (hctl : (s.db.txns t).ctl = .active) (hlock : s.locks t none = true)
    (hempty : ∀ index, s.indexes index = .empty) (hoids : s.nextNamespaceOid = 1)
    (hfits : ∀ c ∈ calls, c.NameFits)
    (hcount : (calls.filter NamespaceCall.isCreate).length ≤ 2 ^ 32) :
    ∃ m, NamespaceMap.empty.Run env.normalize (NamespaceCall.runAll env t calls s).1 m ∧
      ∀ oid name, m.names oid = some name ↔
        HasNamespace env (NamespaceCall.runAll env t calls s).2 t oid name := by
  obtain ⟨m, hrun, hm⟩ :=
    refines_run hfits (refines_empty env ⟨tidy_reachable hr, hctl⟩ hlock hempty)
    (by omega) (by omega)
  exact ⟨m, hrun, hm.names⟩

/-- A catalog in which a transaction has begun. -/
def begun : DatabaseCatalog := fresh.call .plain (.begin 0)

theorem begun_reachable : Reachable .plain begun := .step (.begin 0) (.init fresh_init) rfl

/-- A namespace is made, found, deleted, and not found. -/
def sampleCalls : List NamespaceCall :=
  [.createNamespace [byte 97], .existsNamespace 1, .deleteNamespace 1, .existsNamespace 1]

theorem namespaces_refine_map_sample :
    ∃ m, NamespaceMap.empty.Run CatalogEnv.plain.normalize
      (NamespaceCall.runAll .plain 0 sampleCalls begun).1 m ∧
      ∀ oid name, m.names oid = some name ↔
        HasNamespace .plain (NamespaceCall.runAll .plain 0 sampleCalls begun).2 0 oid name :=
  namespaces_refine_map begun_reachable (by decide) (by decide) (fun _ => rfl) rfl
    (by simp [sampleCalls, NamespaceCall.NameFits, inlineSizeCap]) (by decide)

/-! ## When the counter comes round -/

/-- The name of the only namespace is asked for again and again, then another. -/
def roundCalls (n : Nat) : List NamespaceCall :=
  List.replicate n (.createNamespace [byte 97]) ++ [.createNamespace [byte 98]]

theorem nameFits_roundCalls (n : Nat) : ∀ c ∈ roundCalls n, c.NameFits := by
  intro c hmem
  rcases List.mem_append.mp hmem with hmem | hmem
  · obtain rfl := List.eq_of_mem_replicate hmem
    exact (by decide : [byte 97].length ≤ inlineSizeCap)
  · obtain rfl := List.mem_singleton.mp hmem
    exact (by decide : [byte 98].length ≤ inlineSizeCap)

/-- The other is refused when it is to take the oid of the first, so the answers are
none of the map's. -/
theorem round_no_run {n : Nat} (h : Refines env t s m) (hname : m.HasName env.normalize [byte 97])
    (hfree : ¬ m.HasName env.normalize [byte 98])
    (hold : m.names (.ofNat (s.nextNamespaceOid + n)) = some old) :
    ¬ m.Run env.normalize (NamespaceCall.runAll env t (roundCalls n) s).1 m' := by
  induction n generalizing s with
  | zero =>
      obtain ⟨message, s', hrun⟩ := createNamespace_wrapped h (by decide) hfree hold
      have hcall : (NamespaceCall.createNamespace [byte 98]).run env t s = (.refused, s') := by
        simp only [NamespaceCall.run, hrun]
      rintro ⟨m₁, hstep, -⟩
      rw [hcall] at hstep
      exact hfree hstep.1
  | succ n ih =>
      obtain ⟨message, s', hrun, hr, hnext⟩ := refines_refused h (by decide) hname
      have hcall : (NamespaceCall.createNamespace [byte 97]).run env t s = (.refused, s') := by
        simp only [NamespaceCall.run, hrun]
      rintro ⟨m₁, hstep, hrest⟩
      rw [hcall] at hstep hrest
      rw [hstep.2] at hrest
      refine ih hr ?_ hrest
      rwa [hnext, Nat.add_right_comm]

/-- After `2 ^ 32` creates a new name is refused. -/
theorem namespaces_refine_map_round :
    ¬ ∀ (env : CatalogEnv) (t : TxnId) (s : DatabaseCatalog) (calls : List NamespaceCall),
      Reachable env s →
      (s.db.txns t).ctl = .active → s.locks t none = true → (∀ index, s.indexes index = .empty) →
      s.nextNamespaceOid = 1 → (∀ c ∈ calls, c.NameFits) →
      ∃ m, NamespaceMap.empty.Run env.normalize (NamespaceCall.runAll env t calls s).1 m ∧
        ∀ oid name, m.names oid = some name ↔
          HasNamespace env (NamespaceCall.runAll env t calls s).2 t oid name := by
  intro hall
  obtain ⟨m, ⟨m₁, hstep, hrest⟩, -⟩ :=
    hall .plain 0 begun (.createNamespace [byte 97] :: roundCalls (2 ^ 32 - 1))
    begun_reachable (by decide) (by decide) (fun _ => rfl) rfl
    (List.forall_mem_cons.mpr ⟨(by decide : [byte 97].length ≤ inlineSizeCap),
      nameFits_roundCalls _⟩)
  have hempty : Refines .plain 0 begun .empty :=
    refines_empty _ ⟨tidy_reachable begun_reachable, by decide⟩ (by decide) fun _ => rfl
  have hnone : ¬ NamespaceMap.empty.HasName CatalogEnv.plain.normalize [byte 97] := by
    rintro ⟨oid, other, hother, -⟩
    exact absurd hother (by simp [NamespaceMap.empty])
  obtain ⟨s', hrun, -, hr, hnext⟩ :=
    refines_created hempty (by decide) hnone (by decide) (by decide)
  have hcall : (NamespaceCall.createNamespace [byte 97]).run .plain 0 begun = (.created 1, s') := by
    simp only [NamespaceCall.run, hrun]
    rfl
  rw [hcall] at hstep hrest
  rw [hstep.2.2] at hrest
  let one : NamespaceMap := ⟨update NamespaceMap.empty.names 1 (some [byte 97]), [1]⟩
  have hone : one.names 1 = some [byte 97] := rfl
  have hround : Refines .plain 0 s' one := hr
  -- the counter comes round to 1
  have hold : one.names (.ofNat (s'.nextNamespaceOid + (2 ^ 32 - 1))) = some [byte 97] := by
    rw [hnext]
    exact hone
  refine round_no_run hround ⟨1, _, hone, rfl⟩ ?_ hold hrest
  rintro ⟨oid, other, hother, hnormal⟩
  by_cases hoid : oid = 1
  · subst hoid
    obtain rfl : [byte 97] = other := Option.some.inj (hone.symm.trans hother)
    exact absurd hnormal (by decide)
  · have hnone : one.names oid = none := update_of_ne hoid _ _
    exact absurd (hnone.symm.trans hother) (by simp)

end DatabaseCatalog

end Db7
