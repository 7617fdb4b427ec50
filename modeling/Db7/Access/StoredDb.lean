import Db7.Access.ConcurrentReads
import Db7.Access.PageChunks

/-!
# The database in bytes

Rows, delete bits and row counts are in pages, the chunks of the callers and the before-images of
the undo records in memory. The steps of transactions are those of `Db.step`, on what the pages show
(`view`); what a step writes, the functions of `ChunkUtils` and `PaxLayout` write to the bytes.

* **chunks** (`ChunkName`): those in memory, each at a place of its own;
* **steps** (`StoredDb.step`): what callers, transactions and readers do to the bytes;
* **reads** (`selectIntoChunkBytes_eq`): `SelectIntoChunk` on bytes answers what it answers on the
  rows that they show.
-/

namespace Db7

open Lib Function

/-! ## Reading a tuple -/

/-- The loop of `SelectIntoChunk`, over the records and the addresses of their deltas. -/
def selectWalkBytes (schema : PageSchema) (start : Nat) (isDeleted : Bool) (chunk : Nat) :
    List (UndoRecord × Nat) → Mem → Except String (RowStatus × Mem)
  | [], m => .ok (rowStatus isDeleted, m)
  | version :: rest, m =>
      if isNewerThan version.1.timestamp start then
        match version.1.type with
        | .update => do
            let m ← ChunkUtils.merge schema m chunk version.2
            selectWalkBytes schema start isDeleted chunk rest m
        | .insert => .ok (.notVisible, m)
        | .delete | .invalid => selectWalkBytes schema start isDeleted chunk rest m
      else .ok (rowStatus isDeleted, m)

/-- `Table::SelectIntoChunk`, with the records that are reached from `versions[idx]`. -/
def selectIntoChunkBytes (schema : PageSchema) (page m : Mem) (start finish : Nat)
    (versions : List (UndoRecord × Nat))
    (chunk : Nat) (idx : UInt32) : Except String (RowStatus × Mem) := do
  let m ← ChunkUtils.readSingleIntoChunk schema page m chunk idx
  if idx < schema.layout.maxRowCount then
    match versions with
    | [] => .ok (rowStatus (PaxLayout.isDeleted page idx), m)
    | head :: rest =>
        if head.1.timestamp = finish then .ok (rowStatus head.1.isDeleted, m)
        else selectWalkBytes schema start head.1.isDeleted chunk (head :: rest) m
  else .error "Out of range index"

/-- The delta of an update is a chunk that does not overlap the reader's, and has the before-image
of the record. -/
def DeltaAt (schema : PageSchema) (c : PlacedChunk) (m : Mem) (version : UndoRecord × Nat) : Prop :=
  version.1.type = .update → ∃ d : PlacedChunk, d.address = version.2 ∧ d.Of schema ∧
    d.In m ∧ c.Apart d ∧
    d.contents m = version.1.delta

section Select

variable {schema : PageSchema} {c : PlacedChunk} {m m' : Mem} {start : Nat}

theorem DeltaAt.keeps {version : UndoRecord × Nat} (h : DeltaAt schema c m version)
    (hkeeps : c.Keeps m m') :
    DeltaAt schema c m' version := by
  intro htype
  obtain ⟨d, haddress, hof, hin, hapart, hcontents⟩ := h htype
  exact ⟨d, haddress, hof, hapart.in_congr hin hkeeps.within, hapart,
    (hapart.contents_eq hkeeps.within).trans hcontents⟩

theorem selectWalkBytes_eq (hof : c.Of schema) {isDeleted : Bool}
    (versions : List (UndoRecord × Nat)) (hin : c.In m)
    (hdeltas : ∀ version ∈ versions, DeltaAt schema c m version) :
    ∃ m', selectWalkBytes schema start isDeleted c.address versions m =
        .ok ((selectWalk start isDeleted (versions.map Prod.fst) (c.contents m)).1, m') ∧
      c.Becomes m m' (selectWalk start isDeleted (versions.map Prod.fst) (c.contents m)).2 := by
  induction versions generalizing m with
  | nil => exact ⟨m, rfl, hin.becomes⟩
  | cons version rest ih =>
      have hrest : ∀ version ∈ rest, DeltaAt schema c m version :=
        fun v hv => hdeltas v (List.mem_cons_of_mem _ hv)
      unfold selectWalkBytes
      rw [List.map_cons, selectWalk]
      by_cases hnewer : isNewerThan version.1.timestamp start = true
      · rw [if_pos hnewer, if_pos hnewer]
        cases htype : version.1.type with
        | update =>
            obtain ⟨d, haddress, hofD, hinD, hapart, hcontents⟩ :=
              hdeltas version List.mem_cons_self htype
            obtain ⟨m₁, hmerge, hmerged⟩ := ChunkUtils.merge_eq hof hofD hapart hin hinD
            obtain ⟨m', hwalk, hbecomes⟩ :=
              ih hmerged.isIn fun v hv => (hrest v hv).keeps hmerged.keeps
            rw [hmerged.contents, hcontents] at hwalk hbecomes
            refine ⟨m', ?_, hmerged.trans hbecomes⟩
            show (ChunkUtils.merge schema m c.address version.2).bind _ = _
            rw [← haddress, hmerge]
            exact hwalk
        | insert => exact ⟨m, rfl, hin.becomes⟩
        | delete => exact ih hin hrest
        | invalid => exact ih hin hrest
      · rw [if_neg hnewer, if_neg hnewer]
        exact ⟨m, rfl, hin.becomes⟩

/-- On bytes that show the row and the versions of a tuple, `SelectIntoChunk` answers what it
answers on those. -/
theorem selectIntoChunkBytes_eq {db : Db} {y : Txn} {x : Slot} {page : Mem} {idx : UInt32}
    {versions : List (UndoRecord × Nat)} (hof : c.Of schema) (hin : c.In m)
    (hidx : idx < schema.layout.maxRowCount) (hschema : db.schema x.tbl = schema.toSchema)
    (hrow : schema.rowAt page idx = db.rows x)
    (hbit : PaxLayout.isDeleted page idx = db.deletedBit x)
    (hchain : versions.map Prod.fst = db.chain x)
    (hdeltas : ∀ version ∈ versions, DeltaAt schema c m version) :
    ∃ m', selectIntoChunkBytes schema page m y.start y.finish versions c.address idx =
        .ok ((db.selectIntoChunk y x (c.contents m)).1, m') ∧
      c.Becomes m m' (db.selectIntoChunk y x (c.contents m)).2 := by
  obtain ⟨m₁, hread, hfilled⟩ := ChunkUtils.read_eq hof hin page idx
  rw [hrow] at hfilled
  simp only [Db.selectIntoChunk, hschema, ← hchain]
  unfold selectIntoChunkBytes
  rw [hread]
  show ∃ m', (if idx < schema.layout.maxRowCount then _ else _) = _ ∧ _
  rw [if_pos hidx]
  cases versions with
  | nil =>
      refine ⟨m₁, ?_, hfilled⟩
      rw [hbit]
      rfl
  | cons head rest =>
      by_cases hown : head.1.timestamp = y.finish
      · simp only [List.map_cons, if_pos hown]
        exact ⟨m₁, rfl, hfilled⟩
      · simp only [List.map_cons, if_neg hown]
        obtain ⟨m', hwalk, hbecomes⟩ :=
          selectWalkBytes_eq hof (head :: rest) hfilled.isIn fun v hv =>
          (hdeltas v hv).keeps hfilled.keeps
        rw [hfilled.contents] at hwalk hbecomes
        exact ⟨m', hwalk, hfilled.trans hbecomes⟩

end Select

/-! ## The system -/

/-- A chunk of a caller, by a number, or the delta of a record. -/
inductive ChunkName
  | caller (n : Nat)
  | delta (p : RecPtr)
  deriving DecidableEq

/-- The database with its pages and chunks in bytes. In `db`, rows, delete bits and row counts are
those that the pages showed before the last step; `held` is the chunk of the update that a
transaction is inside of, and `failed` the message of an exception or of an assertion. -/
structure StoredDb where
  db : Db
  page : Nat → Nat → Mem
  mem : Mem
  placed : ChunkName → Option PlacedChunk
  held : TxnId → Nat
  failed : Option String

/-- A caller makes a chunk, or writes a field of it; calls that take a chunk; any other step of a
transaction. -/
inductive StoredAction
  | make (n : Nat) (c : PlacedChunk)
  | fill (n : Nat) (oid : UInt32) (value : List Byte)
  | insert (t : TxnId) (tbl pid n : Nat)
  | update (t : TxnId) (slot : Slot) (n delta : Nat)
  | select (t : TxnId) (slot : Slot) (n : Nat)
  | other (a : Action)

/-- The step takes a chunk. -/
def Action.takesChunk : Action → Bool
  | .insert _ _ _ _ | .write _ (.update _) _ => true
  | .write _ .delete _ | .write _ .deleteRaw _ | .begin _ | .spin _ | .commit _ | .run _ => false

namespace StoredDb

section Defs

variable (schemas : Nat → PageSchema)

/-- What the pages show, for the rows that they have room for. -/
def view (s : StoredDb) : Db :=
  { s.db with
    count := fun tbl pid => (PaxLayout.headerCount (s.page tbl pid)).toNat
    rows := fun x =>
      if x.idx < (schemas x.tbl).layout.maxRowCount.toNat then
        (schemas x.tbl).rowAt (s.page x.tbl x.pid) (UInt32.ofNat x.idx)
      else s.db.rows x
    deletedBit := fun x =>
      if x.idx < (schemas x.tbl).layout.maxRowCount.toNat then
        PaxLayout.isDeleted (s.page x.tbl x.pid) (UInt32.ofNat x.idx)
      else s.db.deletedBit x }

def setPage (s : StoredDb) (tbl pid : Nat) (page : Mem) : Nat → Nat → Mem :=
  update s.page tbl (update (s.page tbl) pid page)

/-- `SelectIntoChunk` with the records that hang off the tuple, and where their deltas are. -/
def selectIntoChunk (s : StoredDb) (t : TxnId) (x : Slot) (chunk : Nat) :
    Except String (RowStatus × Mem) :=
  let versions := (s.db.versions x).filterMap fun p =>
    (s.db.record p).map fun r => (r, ((s.placed (.delta p)).map PlacedChunk.address).getD 0)
  selectIntoChunkBytes (schemas x.tbl) (s.page x.tbl x.pid) s.mem (s.db.txns t).start
    (s.db.txns t).finish versions chunk
    (UInt32.ofNat x.idx)

/-- What a step inside a call writes: an update that passed its test, the row and its delta; a
delete that has linked its record, the bit. -/
def writeBytes (s : StoredDb) : Action → Except String ((Nat → Nat → Mem) × Mem)
  | .run t =>
      match (s.db.txns t).ctl with
      | .writing (.update _) x rec (.apply _) =>
          match s.placed (.caller (s.held t)), s.placed (.delta ⟨t, rec⟩) with
          | some c, some d => do
              let written ← ChunkUtils.updateSingle (schemas x.tbl) (s.page x.tbl x.pid) s.mem
                  c.address d.address
                (UInt32.ofNat x.idx)
              pure (s.setPage x.tbl x.pid written.1, written.2)
          | _, _ => .error "no chunk"
      | .writing .delete x _ (.exit true) =>
          .ok (s.setPage x.tbl x.pid (PaxLayout.delete (s.page x.tbl x.pid) (UInt32.ofNat x.idx)),
            s.mem)
      | _ => .ok (s.page, s.mem)
  | _ => .ok (s.page, s.mem)

/-- The next state, or the failure. -/
def orFail (s : StoredDb) {α : Type} (r : Except String α) (next : α → StoredDb) : StoredDb :=
  match r with
  | .ok a => next a
  | .error e => { s with failed := some e }

def step (s : StoredDb) : StoredAction → Option StoredDb
  | .make n c =>
      if (s.placed (.caller n)).isNone then
        some { s with
          placed := update s.placed (.caller n) (some c)
          mem := (c.columns.layout s.mem).createDataChunk s.mem c.address }
      else none
  | .fill n oid value => (s.placed (.caller n)).map fun c =>
      { s with mem := RawChunk.write s.mem c.address oid value }
  | .insert t tbl pid n => do
      let c ← s.placed (.caller n)
      let db ← (s.view schemas).step (.insert t tbl pid (c.contents s.mem))
      some (s.orFail (ChunkUtils.insertBulk (schemas tbl) (s.page tbl pid) s.mem c.address 1)
        fun inserted =>
        { s with db := db, page := s.setPage tbl pid inserted.2 })
  | .update t x n delta =>
      if h : 8 ∣ delta then do
        let c ← s.placed (.caller n)
        let db ← (s.view schemas).step (.write t (.update (c.contents s.mem)) x)
        some { s with
          db := db
          held := update s.held t n
          placed := update s.placed (.delta ⟨t, (s.db.txns t).undo.length⟩) (some (c.moved delta h))
          mem :=
            s.mem.write delta (s.mem.read c.address (RawChunk.headerSize s.mem c.address).toNat) }
      else none
  | .select t x n =>
      if (s.db.txns t).ctl = .active ∧ s.db.latch x.tbl x.pid = none then
        (s.placed (.caller n)).map fun c =>
          s.orFail (s.selectIntoChunk schemas t x c.address) fun answer =>
            { s with mem := answer.2 }
      else none
  | .other a =>
      if a.takesChunk then none
      else ((s.view schemas).step a).map fun db =>
        s.orFail (s.writeBytes schemas a) fun written =>
          { s with db := db, page := written.1, mem := written.2 }

/-- Pages with no more rows than they have room for; no transaction, no chunk. -/
structure Init (s : StoredDb) : Prop where
  db : s.db.Init
  view : s.view schemas = s.db
  schema : ∀ tbl, s.db.schema tbl = (schemas tbl).toSchema
  room : ∀ tbl pid, s.db.count tbl pid ≤ (schemas tbl).layout.maxRowCount.toNat
  placed : ∀ name, s.placed name = none
  failed : s.failed = none

/-- The memory of a new chunk is that of no other. -/
def Fresh (s : StoredDb) (c : PlacedChunk) : Prop := ∀ name d, s.placed name = some d → c.Apart d

/-- The chunk is not that of an update under way. -/
def Unheld (s : StoredDb) (n : Nat) : Prop :=
  ∀ t chunk x rec pc, (s.db.txns t).ctl = .writing (.update chunk) x rec pc → s.held t ≠ n

/-- What callers and the allocator see to: chunks get memory of their own, with columns of the table
they are for, and values of the size of their column; nobody writes to the chunk of an update under
way; an insert finds room on its page. -/
def Regular (s : StoredDb) : StoredAction → Prop
  | .make _ c => s.Fresh c
  | .fill n oid value => s.Unheld n ∧ ∀ c, s.placed (.caller n) = some c → ∀ i : c.columns.Idx,
      (c.columns.field i).oid = oid → value.length = (c.columns.field i).size.toNat
  | .insert _ tbl pid n =>
      (PaxLayout.headerCount (s.page tbl pid)).toNat + 1 < (schemas tbl).layout.maxRowCount.toNat ∧
        ∀ c, s.placed (.caller n) = some c → c.Of (schemas tbl)
  | .update _ x n delta => ∀ c h, s.placed (.caller n) = some c → c.Of (schemas x.tbl) ∧
      s.Fresh (c.moved delta h)
  | .select _ x n => s.Unheld n ∧ x.idx < (schemas x.tbl).layout.maxRowCount.toNat ∧
      ∀ c, s.placed (.caller n) = some c → c.Of (schemas x.tbl)
  | .other a => Db.HandsOutBelow signBit s.db a

/-- The step of a transaction that the action is. Callers that make or fill a chunk, or read, take
none. -/
def dbAction (s : StoredDb) : StoredAction → Option Action
  | .make _ _ | .fill _ _ _ | .select _ _ _ => none
  | .insert t tbl pid n => (s.placed (.caller n)).map fun c => .insert t tbl pid (c.contents s.mem)
  | .update t x n _ => (s.placed (.caller n)).map fun c => .write t (.update (c.contents s.mem)) x
  | .other a => some a

/-- Regular, and the writes of a tuple keep to one path. -/
def Orderly (path : Slot → Bool) (s : StoredDb) (a : StoredAction) : Prop :=
  s.Regular schemas a ∧ ∀ b, s.dbAction a = some b → Db.OnePath path b

end Defs

end StoredDb

/-- Transactions on pages in bytes. -/
def storedSystem (schemas : Nat → PageSchema) : TSys StoredDb StoredAction :=
  ⟨StoredDb.Init schemas, StoredDb.step schemas⟩

end Db7
