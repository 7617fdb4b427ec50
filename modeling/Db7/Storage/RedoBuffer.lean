import Db7.Access.ChunkLayout

/-!
# The redo buffer in memory

`StageWrite` takes a place in the segment of the transaction, writes a log header, a redo header
and the header of a chunk to it, and returns the redo record, into whose chunk the caller writes.
The place that it takes is that of the two headers alone.

* **call** (`stageWrite_eq`): what one call does, where the segment has the space;
* **result** (`stagesApart_iff`): records are apart exactly as long as there is only one.
-/

namespace Db7

open Lib Function

/-! ## Records -/

/-- `LogRecordType`. -/
inductive LogRecordType
  | redo
  | delete
  | commit
  | abort
  deriving DecidableEq, Repr

/-- The value of a `LogRecordType`. -/
def LogRecordType.byte : LogRecordType → Byte
  | redo => Lib.byte 0
  | delete => Lib.byte 1
  | commit => Lib.byte 2
  | abort => Lib.byte 3

/-- `sizeof(LogRecord)`: `type_` at 0, `size_` at 4, `txn_begin_` at 8, and the delta from 16 on. -/
def logRecordSize : Nat := 16

/-- `sizeof(RedoRecord)`: `t_id_` at 0, `p_id_` at 4, `idx_` at 8, and the delta from 16 on. -/
def redoRecordSize : Nat := 16

namespace RedoRecord

/-- `GetHeadersSize`. -/
def headersSize : Nat := redoRecordSize + logRecordSize

/-- `LogRecord::InitializeHeader`; the padding keeps its bytes. -/
def initializeHeader (data : Mem) (head : Nat) (type : LogRecordType) (size : UInt32)
    (txnBegin : Nat) : Mem :=
  ((data.write head [type.byte]).write (head + 4) (toLE 4 size.toNat)).write (head + 8)
    (toLE 8 txnBegin)

/-- `Initialize`. -/
def initializeRedo (data : Mem) (head txnBegin : Nat) (initializer : RawLayout)
    (tId pId idx : UInt32) : Mem :=
  let data := initializeHeader data head .redo initializer.totalSize txnBegin
  let body := head + logRecordSize
  let data :=
    ((data.write body (toLE 4 tId.toNat)).write (body + 4) (toLE 4 pId.toNat)).write (body + 8)
      (toLE 4 idx.toNat)
  initializer.createDataChunk data (body + redoRecordSize)

/-- `GetDelta`, of the redo record at `body`. -/
def getDelta (body : Nat) : Nat := body + redoRecordSize

end RedoRecord

/-! ## The buffer -/

/-- `transaction::DurabilityPolicy`. -/
inductive DurabilityPolicy
  | disabled
  | sync
  deriving DecidableEq, Repr

/-- A pointer into a segment. -/
structure SegmentPtr where
  segment : Nat
  offset : Nat
  deriving DecidableEq, Repr

/-- `storage::RedoBuffer`, with the arenas of the pool by their addresses. -/
structure RedoBuffer where
  arenas : Nat → FixedBumpArena
  hasLogManager : Bool
  segmentOld : Nat
  segment : Nat
  lastRecord : Option SegmentPtr
  hasFlushed : Bool

namespace RedoBuffer

/-- The constructor; `segment` is what the pool hands out. -/
def init (arenas : Nat → FixedBumpArena) (hasLogManager : Bool) (segment : Nat) : RedoBuffer where
  arenas := arenas
  hasLogManager := hasLogManager
  segmentOld := segment
  segment := segment
  lastRecord := none
  hasFlushed := false

/-- What `NewEntry` does when the segment has no space. -/
def ensureSegment (b : RedoBuffer) (size : Nat) (policy : DurabilityPolicy) : RedoBuffer :=
  if (b.arenas b.segment).hasAvailableSpace size then b
  else if b.hasLogManager ∧ policy = .disabled then { b with hasFlushed := true }
  else { b with segment := b.segmentOld }

/-- `NewEntry`. -/
def newEntry (b : RedoBuffer) (size : Nat) (policy : DurabilityPolicy) :
    Except ArenaFault (RedoBuffer × SegmentPtr) :=
  let b := b.ensureSegment size policy
  if (b.arenas b.segment).hasAvailableSpace size then do
    let (segment, offset) ← (b.arenas b.segment).allocate size
    .ok ({ b with arenas := update b.arenas b.segment segment, lastRecord := some ⟨b.segment,
      offset⟩ }, ⟨b.segment, offset⟩)
  else .error (.assertion "Data larger than page")

/-- The memory that a pointer points into. -/
def dataAt (b : RedoBuffer) (p : SegmentPtr) : Mem := (b.arenas p.segment).data

def setData (b : RedoBuffer) (p : SegmentPtr) (data : Mem) : RedoBuffer :=
  { b with arenas := update b.arenas p.segment { b.arenas p.segment with data := data } }

theorem size_setData (b : RedoBuffer) (p : SegmentPtr) (data : Mem) (segment : Nat) :
    ((b.setData p data).arenas segment).size = (b.arenas segment).size := by
  by_cases hsegment : segment = p.segment
  · show (update b.arenas p.segment { b.arenas p.segment with data := data } segment).size = _
    rw [hsegment, update_self]
  · exact congrArg FixedBumpArena.size (update_of_ne hsegment _ _)

end RedoBuffer

/-- The arguments of `StageWrite`. -/
structure StageCall where
  tId : UInt32
  pId : UInt32
  idx : UInt32
  initializer : RawLayout

/-- The fields of a `TransactionContext` that `StageWrite` reads. -/
structure StagingContext where
  startTime : Nat
  durabilityPolicy : DurabilityPolicy
  redoBuffer : RedoBuffer

namespace StagingContext

/-- `StageWrite`. -/
def stageWrite (t : StagingContext) (c : StageCall) :
    Except ArenaFault (StagingContext × SegmentPtr) := do
  let (buffer, head) ← t.redoBuffer.newEntry RedoRecord.headersSize t.durabilityPolicy
  let data :=
    RedoRecord.initializeRedo (buffer.dataAt head) head.offset t.startTime c.initializer
      c.tId c.pId c.idx
  .ok ({ t with redoBuffer := buffer.setData head data },
    ⟨head.segment, head.offset + logRecordSize⟩)

/-- A sequence of calls, with the records that they return. -/
def run (t : StagingContext) : List StageCall → Except ArenaFault (StagingContext × List SegmentPtr)
  | [] => .ok (t, [])
  | c :: calls => do
      let (t, record) ← t.stageWrite c
      let (t, records) ← t.run calls
      .ok (t, record :: records)

/-- A transaction that has staged nothing yet. -/
def init (startTime : Nat) (policy : DurabilityPolicy) (hasLogManager : Bool)
    (arenas : Nat → FixedBumpArena) (segment : Nat) :
    StagingContext :=
  ⟨startTime, policy, RedoBuffer.init arenas hasLogManager segment⟩

end StagingContext

/-! ## Staged records -/

/-- A record that was returned, and the call that returned it. -/
structure StagedRecord where
  call : StageCall
  record : SegmentPtr

namespace StagedRecord

/-- Where the log header starts. -/
def first (r : StagedRecord) : Nat := r.record.offset - logRecordSize

/-- The headers and the chunk. -/
def size (r : StagedRecord) : Nat := RedoRecord.headersSize + r.call.initializer.totalSize.toNat

/-- In a segment. -/
def Inside (r : StagedRecord) : Prop :=
  logRecordSize ≤ r.record.offset ∧ r.first + r.size ≤ FixedBumpArena.allocatorBlockSize

/-- Without a common byte. -/
def Apart (r s : StagedRecord) : Prop :=
  r.record.segment ≠ s.record.segment ∨ r.first + r.size ≤ s.first ∨ s.first + s.size ≤ r.first

/-- The bytes of the record. -/
def bytes (r : StagedRecord) (t : StagingContext) : List Byte :=
  (t.redoBuffer.dataAt r.record).read r.first r.size

end StagedRecord

/-- The layout was made for columns whose chunk has its offsets in 16 bits. -/
def StageCall.Built (c : StageCall) : Prop :=
  ∃ columns fresh, columns.Fits ∧ c.initializer = ChunkColumns.layout columns fresh

theorem StageCall.Built.pos {c : StageCall} (h : c.Built) : 0 < c.initializer.totalSize.toNat := by
  obtain ⟨columns, fresh, hfits, hc⟩ := h
  have hheader := hfits.typed.header_le
  rw [hc, hfits.toNat_totalSize]
  omega

namespace StagingContext

/-- The records lie in the segment, apart from each other, and each keeps the bytes with which it
was staged. -/
def StagesApart (t : StagingContext) (calls : List StageCall) : Prop :=
  ∃ t' records, t.run calls = .ok (t', records) ∧
    let staged := List.zipWith StagedRecord.mk calls records
    (∀ r ∈ staged, r.Inside) ∧ staged.Pairwise StagedRecord.Apart ∧
      ∀ k r tk before, staged[k]? = some r → t.run (calls.take (k + 1)) = .ok (tk, before) →
        r.bytes t' = r.bytes tk

/-- Bytes that the records of these calls have. -/
def recordBytes (calls : List StageCall) : Nat :=
  (calls.map fun c => RedoRecord.headersSize + c.initializer.totalSize.toNat).sum

variable {t t' : StagingContext} {c d : StageCall} {calls : List StageCall}
  {records : List SegmentPtr}

/-- The segment, as it is. -/
def used (t : StagingContext) : Nat := (t.redoBuffer.arenas t.redoBuffer.segment).size

/-- One call takes the bytes of two headers, whatever the chunk. -/
theorem stageWrite_eq (c : StageCall)
    (hspace : t.used + RedoRecord.headersSize ≤ FixedBumpArena.allocatorBlockSize) :
    ∃ t', t.stageWrite c = .ok (t', ⟨t.redoBuffer.segment, t.used + logRecordSize⟩) ∧
      t'.redoBuffer.segment = t.redoBuffer.segment ∧ t'.used = t.used + RedoRecord.headersSize := by
  have havailable : (t.redoBuffer.arenas t.redoBuffer.segment).hasAvailableSpace
      RedoRecord.headersSize = true :=
    decide_eq_true hspace
  have hentry : t.redoBuffer.newEntry RedoRecord.headersSize t.durabilityPolicy =
      .ok ({ t.redoBuffer with
          arenas := update t.redoBuffer.arenas t.redoBuffer.segment
            { t.redoBuffer.arenas t.redoBuffer.segment with size :=
              t.used + RedoRecord.headersSize }
          lastRecord := some ⟨t.redoBuffer.segment, t.used⟩ }, ⟨t.redoBuffer.segment, t.used⟩) := by
    have hensure : t.redoBuffer.ensureSegment RedoRecord.headersSize t.durabilityPolicy =
        t.redoBuffer := if_pos havailable
    unfold RedoBuffer.newEntry
    rw [hensure, if_pos havailable]
    unfold FixedBumpArena.allocate
    rw [if_pos havailable]
    rfl
  unfold stageWrite
  rw [hentry]
  refine ⟨_, rfl, rfl, ?_⟩
  show (RedoBuffer.arenas (RedoBuffer.setData _ _ _) t.redoBuffer.segment).size = _
  rw [RedoBuffer.size_setData]
  show (update t.redoBuffer.arenas t.redoBuffer.segment _ t.redoBuffer.segment).size = _
  rw [update_self]

theorem run_cons (c : StageCall)
    (hspace : t.used + RedoRecord.headersSize ≤ FixedBumpArena.allocatorBlockSize)
    (hrun : t.run (c :: calls) = .ok (t', records)) :
    ∃ (t₁ : StagingContext) (rest : List SegmentPtr), t₁.run calls = .ok (t', rest) ∧
      records = ⟨t.redoBuffer.segment, t.used + logRecordSize⟩ :: rest ∧
      t₁.redoBuffer.segment = t.redoBuffer.segment ∧ t₁.used = t.used + RedoRecord.headersSize := by
  obtain ⟨t₁, hstage, hsegment, hused⟩ := stageWrite_eq c hspace
  unfold run at hrun
  rw [hstage] at hrun
  change (t₁.run calls >>= fun r => Except.ok (r.1, _ :: r.2)) = _ at hrun
  cases hrest : t₁.run calls with
  | error fault =>
      rw [hrest] at hrun
      cases hrun
  | ok r =>
      rw [hrest] at hrun
      cases hrun
      exact ⟨t₁, r.2, hrest, rfl, hsegment, hused⟩

/-- The second record starts where the chunk of the first does. -/
theorem not_apart (hd : c.initializer.totalSize.toNat ≠ 0) {segment used : Nat} :
    ¬ StagedRecord.Apart ⟨c, ⟨segment, used + logRecordSize⟩⟩
      ⟨d, ⟨segment, used + RedoRecord.headersSize + logRecordSize⟩⟩ := by
  rintro (hsegment | hbefore | hafter)
  · exact hsegment rfl
  · have hends : used + 16 - 16 + (32 + c.initializer.totalSize.toNat) ≤ used + 32 + 16 - 16 :=
      hbefore
    omega
  · have hends : used + 32 + 16 - 16 + (32 + d.initializer.totalSize.toNat) ≤ used + 16 - 16 :=
      hafter
    omega

theorem not_stagesApart (hpos : c.initializer.totalSize.toNat ≠ 0)
    (hspace : t.used + RedoRecord.headersSize + RedoRecord.headersSize ≤
      FixedBumpArena.allocatorBlockSize) :
    ¬ t.StagesApart (c :: d :: calls) := by
  rintro ⟨t', records, hrun, -, hapart, -⟩
  obtain ⟨t₁, others, hrun₁, rfl, hsegment₁, hused₁⟩ :=
    run_cons c (Nat.le_trans (Nat.le_add_right _ _) hspace) hrun
  obtain ⟨t₂, others', -, rfl, -, -⟩ := run_cons d (by rw [hused₁]; exact hspace) hrun₁
  rw [hsegment₁, hused₁] at hapart
  exact not_apart hpos (List.rel_of_pairwise_cons hapart List.mem_cons_self)

theorem stagesApart_singleton
    (hspace : t.used + (RedoRecord.headersSize + c.initializer.totalSize.toNat) ≤
    FixedBumpArena.allocatorBlockSize) : t.StagesApart [c] := by
  obtain ⟨t', hstage, -, -⟩ :=
    stageWrite_eq (t := t) c (Nat.le_trans (Nat.add_le_add_left (Nat.le_add_right _ _) _) hspace)
  have hrun : t.run [c] = .ok (t', [⟨t.redoBuffer.segment, t.used + logRecordSize⟩]) := by
    unfold run
    rw [hstage]
    rfl
  refine ⟨t', _, hrun, ?_, List.pairwise_singleton .., ?_⟩
  · intro r hr
    obtain rfl := List.mem_singleton.mp hr
    refine ⟨Nat.le_add_left .., ?_⟩
    show t.used + logRecordSize - logRecordSize + _ ≤ _
    rw [Nat.add_sub_cancel]
    exact hspace
  · -- nothing is staged after it
    intro k r tk before _ hk
    rw [List.take_succ_cons, List.take_nil, hrun] at hk
    cases hk
    rfl

theorem stagesApart_nil (t : StagingContext) : t.StagesApart [] := by
  refine ⟨t, [], rfl, ?_, .nil, ?_⟩
  · intro r hr
    exact absurd hr List.not_mem_nil
  · intro k r tk before hr
    cases hr

/-- A transaction keeps its redo records apart exactly as long as it stages one write. -/
theorem stagesApart_iff (startTime : Nat) (policy : DurabilityPolicy) (hasLogManager : Bool)
    (arenas : Nat → FixedBumpArena)
    (segment : Nat) {calls : List StageCall} (hbuilt : ∀ c ∈ calls, c.Built)
    (hfit : (arenas segment).size + recordBytes calls ≤ FixedBumpArena.allocatorBlockSize) :
    (init startTime policy hasLogManager arenas segment).StagesApart calls ↔ calls.length ≤ 1 := by
  rcases calls with _ | ⟨c, _ | ⟨d, rest⟩⟩
  · exact iff_of_true (stagesApart_nil _) (Nat.zero_le 1)
  · exact iff_of_true (stagesApart_singleton hfit) (Nat.le_refl 1)
  · refine iff_of_false (not_stagesApart ?_ ?_) (by simp only [List.length_cons]; omega)
    · exact Nat.pos_iff_ne_zero.mp (hbuilt c List.mem_cons_self).pos
    · change (arenas segment).size +
        (32 + c.initializer.totalSize.toNat + (32 + d.initializer.totalSize.toNat + _)) ≤
        4096 at hfit
      show (arenas segment).size + 32 + 32 ≤ 4096
      omega

/-- A write to a table with one `INTEGER` column. -/
def integerWrite (idx : UInt32) : StageCall :=
  ⟨1, 1, idx, ChunkColumns.layout [(1, 4)] fun _ => byte 0⟩

/-- One segment, empty. -/
def emptyArenas : Nat → FixedBumpArena := fun _ => ⟨fun _ => byte 0, 0⟩

theorem integerWrite_built (idx : UInt32) : (integerWrite idx).Built := by
  refine ⟨[(1, 4)], fun _ => byte 0, ⟨?_, by decide⟩, rfl⟩
  intro column hcolumn
  obtain rfl := List.mem_singleton.mp hcolumn
  simp [PaxLayout.TypeSize]

theorem stagesApart_one_write : (init 7 .sync false emptyArenas 0).StagesApart
      [integerWrite 5] := by
  refine (stagesApart_iff 7 .sync false emptyArenas 0 ?_ (by decide)).mpr (Nat.le_refl 1)
  intro c hc
  obtain rfl := List.mem_singleton.mp hc
  exact integerWrite_built 5

/-- The record of the second write lies on the chunk of the first, which has no column any more. -/
theorem second_write_breaks_first :
    (emptyArenas 0).size + recordBytes [integerWrite 5, integerWrite 6] ≤
      FixedBumpArena.allocatorBlockSize ∧
    ¬ (init 7 .sync false emptyArenas 0).StagesApart [integerWrite 5, integerWrite 6] ∧
    ((init 7 .sync false emptyArenas 0).run [integerWrite 5]).map
      (fun r =>
        (r.2, RawChunk.columnCount (r.1.redoBuffer.dataAt ⟨0, 16⟩) (RedoRecord.getDelta 16))) =
        .ok ([⟨0, 16⟩], 1) ∧
    ((init 7 .sync false emptyArenas 0).run [integerWrite 5, integerWrite 6]).map
      (fun r => (r.2, RawChunk.columnCount (r.1.redoBuffer.dataAt ⟨0,
        16⟩) (RedoRecord.getDelta 16))) =
        .ok ([⟨0, 16⟩, ⟨0, 48⟩], 0) := by
  refine ⟨by decide, not_stagesApart (by decide) (by decide), by decide, by decide⟩

end StagingContext

end Db7
