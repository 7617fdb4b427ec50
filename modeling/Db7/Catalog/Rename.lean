import Db7.Catalog.Namespaces

/-!
# Renaming a namespace

`UpdateNamespaceName` deletes the row of the oid and creates a new one. The delete also
succeeds when there is no row, and nothing brings the old row back when the new one is
refused. So the call renames or changes nothing exactly when one of three things holds
(`update_namespace_iff`): the delete is refused; there is no row and the new name is taken;
or there is a row and no other tuple stands in the way of the new one.
-/

namespace Db7

open Lib Function CatalogColumnOid Value DataChunkBuilder

namespace DatabaseCatalog

variable {env : CatalogEnv} {t : TxnId} {s s' : DatabaseCatalog} {tid : TupleId} {oid : Oid}
  {name : List Byte}

/-- The namespace was there and has the new name; the others are as they were. -/
def Renamed (env : CatalogEnv) (t : TxnId) (s s' : DatabaseCatalog) (oid : Oid) (name : List Byte) :
    Prop :=
  (∃ old, HasNamespace env s t oid old) ∧
    ∀ o n, HasNamespace env s' t o n ↔ if o = oid then n = name else HasNamespace env s t o n

/-- All namespaces are as they were. -/
def SameNamespaces (env : CatalogEnv) (t : TxnId) (s s' : DatabaseCatalog) : Prop :=
  ∀ o n, HasNamespace env s' t o n ↔ HasNamespace env s t o n

/-- The call answers `true` and has renamed, or `false` and has changed nothing. -/
def RenamesOrNothing (env : CatalogEnv) (t : TxnId) (s : DatabaseCatalog) (oid : Oid)
    (name : List Byte) : Prop :=
  match updateNamespaceName env t oid name s with
  | .ok true s' => Renamed env t s s' oid name
  | .ok false s' => SameNamespaces env t s s'
  | .error _ _ => False

/-- The delete is refused; or there is nothing to delete and `CheckUnique` finds a conflict
about the new name; or no other tuple under the new name or the oid is in conflict. -/
def RenameAllowed (env : CatalogEnv) (t : TxnId) (s : DatabaseCatalog) (oid : Oid)
    (name : List Byte) : Prop :=
  match s.db.getTidForModify t IndexOid.namespaceNspoid.heapTblId
      (s.lookup env .namespaceNspoid (buildNamespaceOidChunk oid)) with
  | .error _ => True
  | .ok tid =>
      if tid = invalidTid then
        s.conflictFound env t .namespaceNspname (buildNamespaceChunk oid name)
          (s.nextTid env .namespaces) = true
      else ∀ other ∈ s.lookup env .namespaceNspname (buildNamespaceChunk oid name) ++
          s.lookup env .namespaceNspoid (buildNamespaceOidChunk oid),
        other ≠ tid → s.db.hasUniqueConflict t other CatalogTable.namespaces.oid = false

/-! ## The delete -/

/-- After the delete a key is taken by the other tuples only. -/
theorem taken_deleted (hs : TidyFor t s)
    (hok : (s.db.deleteUndoRaw t tid CatalogTable.namespaces.oid).1 = true)
    {index : IndexOid} (hindex : index.heapTblId = CatalogTable.namespaces.oid)
    (chunk : DataChunk) :
    DatabaseCatalog.taken env t
      { s with db := (s.db.deleteUndoRaw t tid CatalogTable.namespaces.oid).2 } index
        chunk = true ↔
      ∃ other ∈ s.lookup env index chunk, other ≠ tid ∧
        s.db.hasUniqueConflict t other CatalogTable.namespaces.oid = true := by
  have hv := hs.1.sound.wellFormed.chains
  have htimes := @sameTimes_deleteUndoRaw t s tid CatalogTable.namespaces.oid
  unfold taken
  rw [List.any_eq_true, hindex]
  refine exists_congr fun other => and_congr_right fun _ => ?_
  by_cases heq : other = tid
  · subst heq
    refine iff_of_false (fun hconflict => ?_) fun h => h.1 rfl
    -- the own delete is no conflict
    have hown :
        s.db.conflicts t
        (.initializeDelete (s.db.txns t).finish (other.slot CatalogTable.namespaces.oid)) =
        false := hs.conflicts_own rfl
    unfold Db.hasUniqueConflict at hconflict
    simp only [getDelta_deleteUndoRaw_self hv hok, conflicts_congr htimes, hown] at hconflict
    simp [UndoRecord.initializeDelete, UndoRecord.isDeleted] at hconflict
  · rw [hasUniqueConflict_congr htimes (getDelta_deleteUndoRaw hv heq)]
    exact ⟨fun h => ⟨heq, h⟩, fun h => h.2⟩

/-! ## The call -/

/-- `UpdateNamespaceName`, in one piece. -/
theorem updateNamespaceName_eq : updateNamespaceName env t oid name s =
    match s.db.getTidForModify t IndexOid.namespaceNspoid.heapTblId
        (s.lookup env .namespaceNspoid (buildNamespaceOidChunk oid)) with
    | .error _ => .ok false s
    | .ok tid =>
        if tid = invalidTid then succeeded (createNamespaceEntry env t name oid) s
        else if (s.db.deleteUndoRaw t tid CatalogTable.namespaces.oid).1 then
          succeeded (createNamespaceEntry env t name oid)
            { s with db := (s.db.deleteUndoRaw t tid CatalogTable.namespaces.oid).2 }
        else .ok false
          { s with db := (s.db.deleteUndoRaw t tid CatalogTable.namespaces.oid).2 } := by
  have hdelete := @deleteEntry_eq env t .namespaceNspoid (buildNamespaceChunk oid []) s
  rw [lookup_nspoid] at hdelete
  unfold updateNamespaceName deleteNamespaceEntry
  cases hget : s.db.getTidForModify t IndexOid.namespaceNspoid.heapTblId
      (s.lookup env .namespaceNspoid (buildNamespaceOidChunk oid)) with
  | error message =>
      rw [hget] at hdelete
      rw [run_bind_ok hdelete]
      rfl
  | ok tid =>
      rw [hget] at hdelete
      dsimp only at hdelete ⊢
      by_cases hinvalid : tid = invalidTid
      · rw [if_pos hinvalid] at hdelete ⊢
        rw [run_bind_ok hdelete]
        rfl
      · rw [if_neg hinvalid] at hdelete ⊢
        rw [run_bind_ok hdelete]
        split
        · rename_i hok
          exact (if_pos hok).symm
        · rename_i hok
          exact (if_neg hok).symm

/-- What the create leaves of the namespaces of the state it starts from. -/
theorem succeeded_createNamespaceEntry (hw : s.WellFormed) (hlen : name.length ≤ inlineSizeCap) :
    match succeeded (createNamespaceEntry env t name oid) s with
    | .ok created s' =>
        (created = true ↔ s.taken env t .namespaceNspname (buildNamespaceChunk oid name) = false ∧
          s.taken env t .namespaceNspoid (buildNamespaceChunk oid name) = false) ∧
        ∀ o n, HasNamespace env s' t o n ↔
          HasNamespace env s t o n ∨ created = true ∧ o = oid ∧ n = name
    | .error _ _ => False := by
  unfold succeeded
  rw [createNamespaceEntry_eq hw]
  cases hname : s.taken env t .namespaceNspname (buildNamespaceChunk oid name) with
  | true =>
      refine ⟨by simp, fun o n => ?_⟩
      rw [hasNamespace_entered hw hlen]
      simp [written]
  | false =>
      cases hoid : s.taken env t .namespaceNspoid (buildNamespaceChunk oid name) with
      | true =>
          refine ⟨by simp, fun o n => ?_⟩
          rw [hasNamespace_entered hw hlen]
          simp [written, EntryStep.writes]
      | false =>
          refine ⟨by simp, fun o n => ?_⟩
          rw [hasNamespace_entered hw hlen]
          simp [written, namespaceSteps, EntryStep.writes]

section Cases

variable (hs : TidyFor t s) (hlen : name.length ≤ inlineSizeCap)

include hs hlen

/-- Without a tuple to delete a new namespace would be made. -/
theorem renames_of_invalid
    (hget : s.db.getTidForModify t IndexOid.namespaceNspoid.heapTblId
      (s.lookup env .namespaceNspoid (buildNamespaceOidChunk oid)) = .ok invalidTid)
    (hfree : ∀ other ∈ s.lookup env .namespaceNspoid (buildNamespaceOidChunk oid),
      s.db.hasUniqueConflict t other CatalogTable.namespaces.oid = false) :
    RenamesOrNothing env t s oid name ↔
      s.taken env t .namespaceNspname (buildNamespaceChunk oid name) = true := by
  have hw := hs.1.sound.wellFormed
  have hend := @succeeded_createNamespaceEntry env t s oid name hw hlen
  have hrun :
      updateNamespaceName env t oid name s = succeeded (createNamespaceEntry env t name oid) s := by
    rw [updateNamespaceName_eq, hget]
    exact if_pos rfl
  have hoid : s.taken env t .namespaceNspoid (buildNamespaceChunk oid name) = false := by
    unfold taken
    rw [lookup_nspoid, List.any_eq_false]
    exact fun other hmem => Bool.eq_false_iff.mp (hfree other hmem)
  -- all tuples of the oid are deleted
  have hnone : ∀ old, ¬ HasNamespace env s t oid old := by
    rintro old ⟨tid, hat⟩
    have hmem := hat.entry
    rw [← @lookup_nspoid env s oid name] at hmem
    obtain ⟨undo, hundo, hdeleted, -⟩ := not_live_of_not_taken hoid hmem
    have hlive :
        (s.db.getDelta tid IndexOid.namespaceNspoid.heapTblId).all (fun undo => !undo.isDeleted) =
        true :=
      hat.live
    rw [hundo, Option.all_some, hdeleted] at hlive
    exact absurd hlive (by simp)
  unfold RenamesOrNothing
  rw [hrun]
  cases hres : succeeded (createNamespaceEntry env t name oid) s with
  | error message s' =>
      rw [hres] at hend
      exact hend.elim
  | ok created s' =>
      rw [hres] at hend
      obtain ⟨hcreated, hmap⟩ := hend
      rw [hoid] at hcreated
      cases created with
      | true =>
          have hname := (hcreated.mp rfl).1
          refine iff_of_false (fun h => ?_) (by simp [hname])
          obtain ⟨⟨old, hold⟩, -⟩ : Renamed env t s s' oid name := h
          exact hnone old hold
      | false =>
          have hname : s.taken env t .namespaceNspname (buildNamespaceChunk oid name) = true := by
            simpa using hcreated
          refine iff_of_true ?_ hname
          show SameNamespaces env t s s'
          intro o n
          simpa using hmap o n

/-- The tuple of the oid is deleted before the new one is made. -/
theorem renames_of_tuple (htid : tid ≠ invalidTid)
    (hget : s.db.getTidForModify t IndexOid.namespaceNspoid.heapTblId
      (s.lookup env .namespaceNspoid (buildNamespaceOidChunk oid)) = .ok tid)
    (hmem : tid ∈ s.lookup env .namespaceNspoid (buildNamespaceOidChunk oid)) {undo : UndoRecord}
    (hundo : s.db.getDelta tid CatalogTable.namespaces.oid = some undo)
    (hconflict : s.db.conflicts t undo = false) (hlive : undo.isDeleted = false) :
    RenamesOrNothing env t s oid name ↔
      ∀ other ∈ s.lookup env .namespaceNspname (buildNamespaceChunk oid name) ++
          s.lookup env .namespaceNspoid (buildNamespaceOidChunk oid),
        other ≠ tid → s.db.hasUniqueConflict t other CatalogTable.namespaces.oid = false := by
  have hw := hs.1.sound.wellFormed
  obtain ⟨old, hat⟩ := namespaceAt_of_head hmem hundo hconflict hlive
  have hok := deleteUndoRaw_of_head hw hundo hconflict hlive
  let r : DatabaseCatalog :=
    { s with db := (s.db.deleteUndoRaw t tid CatalogTable.namespaces.oid).2 }
  have hr : TidyFor t r := tidy_deleteUndoRaw hs tid _
  have hend := @succeeded_createNamespaceEntry env t r oid name hr.1.sound.wellFormed hlen
  have hrun :
      updateNamespaceName env t oid name s = succeeded (createNamespaceEntry env t name oid) r := by
    rw [updateNamespaceName_eq, hget]
    exact (if_neg htid).trans (if_pos hok)
  have hdeleted : ∀ o n, HasNamespace env r t o n ↔ o ≠ oid ∧ HasNamespace env s t o n :=
    fun o n => hasNamespace_deleted hs.1 hat hok
  have hfree : (r.taken env t .namespaceNspname (buildNamespaceChunk oid name) = false ∧
      r.taken env t .namespaceNspoid (buildNamespaceChunk oid name) = false) ↔
      ∀ other ∈ s.lookup env .namespaceNspname (buildNamespaceChunk oid name) ++
          s.lookup env .namespaceNspoid (buildNamespaceOidChunk oid),
        other ≠ tid → s.db.hasUniqueConflict t other CatalogTable.namespaces.oid = false := by
    have htaken : ∀ index : IndexOid, index.heapTblId = CatalogTable.namespaces.oid →
        (r.taken env t index (buildNamespaceChunk oid name) = false ↔
          ∀ other ∈ s.lookup env index (buildNamespaceChunk oid name),
            other ≠ tid → s.db.hasUniqueConflict t other CatalogTable.namespaces.oid = false) := by
      intro index hindex
      rw [← Bool.not_eq_true, taken_deleted hs hok hindex]
      simp
    rw [htaken _ rfl, htaken _ rfl, lookup_nspoid]
    simp only [List.mem_append, or_imp, forall_and]
  rw [← hfree]
  unfold RenamesOrNothing
  rw [hrun]
  cases hres : succeeded (createNamespaceEntry env t name oid) r with
  | error message s' =>
      rw [hres] at hend
      exact hend.elim
  | ok created s' =>
      rw [hres] at hend
      obtain ⟨hcreated, hmap⟩ := hend
      rw [← hcreated]
      cases created with
      | true =>
          refine iff_of_true ?_ rfl
          refine ⟨⟨old, tid, hat⟩, fun o n => ?_⟩
          rw [hmap]
          split
          · rename_i ho
            subst ho
            simp [hdeleted]
          · rename_i ho
            simp [hdeleted, ho]
      | false =>
          refine iff_of_false (fun h => ?_) (by simp)
          -- the row is gone
          have hsame : SameNamespaces env t s s' := h
          have hlost := (hmap oid old).mp ((hsame oid old).mpr ⟨tid, hat⟩)
          simp [hdeleted] at hlost

end Cases

/-- A second namespace has been created. -/
def withTwoNamespaces : DatabaseCatalog :=
  withNamespace.call .plain (.createNamespace 0 none [byte 98])

theorem withTwoNamespaces_encoded : ReachableEncoded .plain withTwoNamespaces :=
  .step (.createNamespace 0 none [byte 98]) withNamespace_encoded rfl
    (List.forall_mem_singleton.mpr (encodable_plain (by decide)))

/-- The call that gives the first the name of the second answers `false`, and no tuple
of the first is left. -/
theorem rename_loses : ∃ s s' : DatabaseCatalog, ReachableEncoded .plain s ∧
      (s.db.txns 0).ctl = .active ∧
    HasNamespace .plain s 0 1 [byte 97] ∧
      updateNamespaceName .plain 0 1 [byte 98] s = .ok false s' ∧
    ∀ name, ¬ HasNamespace .plain s' 0 1 name := by
  have hanswer : (match updateNamespaceName .plain 0 1 [byte 98] withTwoNamespaces with
      | .ok renamed s' => !renamed &&
          (s'.lookup .plain .namespaceNspoid (buildNamespaceOidChunk 1)).all fun tid =>
            !s'.db.isLive tid CatalogTable.namespaces.oid
      | .error _ _ => false) = true := by decide +kernel
  have hat : NamespaceAt .plain withTwoNamespaces 0 ⟨1, 0⟩ 1 [byte 97] :=
    ⟨by decide +kernel, by decide +kernel, by decide +kernel, by decide +kernel⟩
  have hactive : (withTwoNamespaces.db.txns 0).ctl = .active := by decide +kernel
  have hreachable := withTwoNamespaces_encoded
  generalize withTwoNamespaces = s at hanswer hat hactive hreachable
  cases hrun : updateNamespaceName .plain 0 1 [byte 98] s with
  | error message s' =>
      rw [hrun] at hanswer
      exact absurd hanswer (by simp)
  | ok renamed s' =>
      rw [hrun] at hanswer
      obtain ⟨hrenamed, hdead⟩ := Bool.and_eq_true_iff.mp hanswer
      obtain rfl : renamed = false := by simpa using hrenamed
      refine ⟨s, s', hreachable, hactive, ⟨_, hat⟩, hrun, fun name hhas => ?_⟩
      obtain ⟨tid, hat'⟩ := hhas
      have htid := List.all_eq_true.mp hdead tid hat'.entry
      rw [hat'.live] at htid
      exact absurd htid (by decide)

end DatabaseCatalog

end Db7
