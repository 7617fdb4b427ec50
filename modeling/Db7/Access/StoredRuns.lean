import Db7.Access.StoredDb

/-!
# Runs of the database in bytes

* **invariant** (`StoredInv`): the pages show what `db` says, every chunk has its memory, and the
  before-images of the linked updates are in their deltas;
* **steps** (`storedInv_step`): each step leaves in the bytes what `Db.step` computes;
* **result** (`stored_refines`): so every run in bytes is a run of `txnSystem`, no exception is
  thrown and no assertion fails, and `SelectIntoChunk` on the bytes answers what it answers there.
-/

namespace Db7

open Lib Function

namespace PlacedChunk

/-- The header that a chunk has in memory. -/
theorem In.read_header {c : PlacedChunk} {m : Mem} (hin : c.In m) :
    m.read c.address (RawChunk.headerSize m c.address).toNat = c.columns.header := by
  rw [hin.finds.headerSize]
  exact hin.trans (c.fits.header_eq _)

end PlacedChunk

/-! ## Writes under way -/

namespace Db

variable {s s' : Db} {a : Action} {t : TxnId} {op : WriteOp} {x : Slot} {rec : Nat} {pc : WritePc}

/-- A step of a write keeps the types of the records, unless it gives up. -/
theorem Stepped.kind_writing (hs : Stepped s a s')
    (h : ∀ pc, (s.txns a.txn).ctl = .writing op x rec pc → pc ≠ .exit false → s.kind ⟨a.txn, rec⟩ =
      some op.recordType)
    (hctl : (s'.txns a.txn).ctl = .writing op x rec pc) (hpc : pc ≠ .exit false) :
    s'.kind ⟨a.txn, rec⟩ = some op.recordType := by
  cases hs with
  | spin hold =>
      unfold tryLatch at hctl
      split at hctl <;> simp [Action.txn, hold] at hctl
  | insert hold _ => simp [Action.txn, insertTuple, hold] at hctl
  | @start t op' slot' _ _ _ =>
      obtain ⟨rfl, rfl, rfl, -⟩ : op' = op ∧ slot' = x ∧ (s.txns t).undo.length = rec ∧ _ := by
        simpa [Action.txn, startWrite] using hctl
      exact kind_startWrite s t op' slot'
  | @load t op' slot' rec' hold =>
      simp only [Action.txn, setPc, setTxn_txns, update_self, Ctl.writing.injEq] at hctl
      obtain ⟨rfl, rfl, rfl, -⟩ := hctl
      exact (kind_eq_of_types (s := s) (by simp [types, Action.txn, setPc]) _).trans
        (h _ hold (by simp))
  | @check t op' slot' rec' head hold =>
      simp only [checkHead] at hctl ⊢
      split at hctl <;> rename_i hb <;>
        simp only [Action.txn, setPc, setTxn_txns, update_self, Ctl.writing.injEq] at hctl
      · exact absurd hctl.2.2.2.symm hpc
      · obtain ⟨rfl, rfl, rfl, -⟩ := hctl
        rw [if_neg hb]
        exact (kind_eq_of_types (s := s) (by simp [types, Action.txn, setPc]) _).trans
          (h _ hold (by simp))
  | @apply t chunk slot' rec' head hold =>
      simp only [Action.txn, applyUpdate, setPc, setTxn_txns, update_self,
        Ctl.writing.injEq] at hctl
      obtain ⟨rfl, rfl, rfl, -⟩ := hctl
      refine (kind_eq_of_types (s := s) ?_ _).trans (h _ hold (by simp))
      simp only [Action.txn, types, applyUpdate, setPc, setTxn_txns, update_self]
      exact map_type_modify fun _ => rfl
  | @link t op' slot' rec' head hold =>
      obtain ⟨pc', hctl'⟩ := link_ctl s t op' slot' rec' head
      obtain ⟨rfl, rfl, rfl, -⟩ := Ctl.writing.inj (hctl'.symm.trans hctl)
      refine (kind_eq_of_types (s := s) ?_ _).trans (h _ hold (by simp))
      unfold Db.link
      split <;> simp [types, Action.txn, setPc]
  | _ => simp [Action.txn, finishWrite, restampOne] at hctl

/-- Until it gives up, a write has a record of its type. -/
theorem writing_kind {C : Db → Action → Prop} (hr : txnSystem.ReachableBy C s)
    (hctl : (s.txns t).ctl = .writing op x rec pc) (hpc : pc ≠ .exit false) :
    s.kind ⟨t, rec⟩ = some op.recordType := by
  refine hr.invariant (P := fun s => ∀ t op x rec pc, (s.txns t).ctl = .writing op x rec pc →
    pc ≠ .exit false →
    s.kind ⟨t, rec⟩ = some op.recordType) ?_ ?_ t op x rec pc hctl hpc
  · intro s hinit t op x rec pc hctl
    obtain ⟨-, -, htxns, -⟩ := id hinit
    simp [htxns] at hctl
  · intro s a s' h _ hstep t op x rec pc hctl hpc
    have hs := stepped_of_step hstep
    by_cases hown : t = a.txn
    · subst hown
      exact hs.kind_writing (fun pc => h _ _ _ _ pc) hctl hpc
    · rw [hs.txns_of_ne hown] at hctl
      refine (kind_eq_of_types (s := s) ?_ _).trans (h _ _ _ _ _ hctl hpc)
      unfold types
      rw [hs.txns_of_ne hown]

/-- An update under way has just been called, or was under way; it gets to its swap from its
write. -/
theorem Stepped.update_cases {chunk : DataChunk} (hs : Stepped s a s')
    (hctl : (s'.txns a.txn).ctl = .writing (.update chunk) x rec pc) :
    (a = .write a.txn (.update chunk) x ∧ rec = (s.txns a.txn).undo.length ∧ pc = .load) ∨
      ∃ pc', (s.txns a.txn).ctl = .writing (.update chunk) x rec pc' ∧ ∀ head, pc = .link head →
        pc' = .apply head := by
  cases hs with
  | spin hold =>
      unfold tryLatch at hctl
      split at hctl <;> simp [Action.txn, hold] at hctl
  | insert hold _ => simp [Action.txn, insertTuple, hold] at hctl
  | @start t op' slot' _ _ _ =>
      simp only [Action.txn, startWrite, setTxn_txns, update_self, Ctl.writing.injEq] at hctl
      obtain ⟨rfl, rfl, rfl, rfl⟩ := hctl
      exact .inl ⟨rfl, rfl, rfl⟩
  | @load t op' slot' rec' hold =>
      simp only [Action.txn, setPc, setTxn_txns, update_self, Ctl.writing.injEq] at hctl
      obtain ⟨rfl, rfl, rfl, rfl⟩ := hctl
      exact .inr ⟨_, hold, by simp⟩
  | @check t op' slot' rec' head hold =>
      simp only [checkHead] at hctl
      split at hctl <;> simp only [Action.txn, setPc, setTxn_txns, update_self,
        Ctl.writing.injEq] at hctl <;>
      · obtain ⟨rfl, rfl, rfl, rfl⟩ := hctl
        exact .inr ⟨_, hold, by simp [passed]⟩
  | @apply t chunk slot' rec' head hold =>
      simp only [Action.txn, applyUpdate, setPc, setTxn_txns, update_self,
        Ctl.writing.injEq] at hctl
      obtain ⟨heq, rfl, rfl, rfl⟩ := hctl
      exact .inr ⟨_, heq ▸ hold, fun head' heq' => by rw [WritePc.link.inj heq']⟩
  | @link t op' slot' rec' head hold =>
      unfold Db.link at hctl
      split at hctl <;> simp only [Action.txn, setPc, setTxn_txns, update_self,
        Ctl.writing.injEq] at hctl <;>
      · obtain ⟨rfl, rfl, rfl, rfl⟩ := hctl
        exact .inr ⟨_, hold, by simp⟩
  | _ => simp [Action.txn, finishWrite, restampOne] at hctl

end Db

/-! ## What the bytes show -/

namespace StoredDb

/-- The pages show the row counts, the rows and the delete bits. -/
structure Shows (schemas : Nat → PageSchema) (page : Nat → Nat → Mem) (db : Db) : Prop where
  count : ∀ tbl pid, (PaxLayout.headerCount (page tbl pid)).toNat = db.count tbl pid
  rows : ∀ x : Slot, x.idx < (schemas x.tbl).layout.maxRowCount.toNat →
    (schemas x.tbl).rowAt (page x.tbl x.pid) (UInt32.ofNat x.idx) = db.rows x
  bits : ∀ x : Slot, x.idx < (schemas x.tbl).layout.maxRowCount.toNat →
    PaxLayout.isDeleted (page x.tbl x.pid) (UInt32.ofNat x.idx) = db.deletedBit x

/-- The update under way has its chunk, and a delta that is filled when the record is about to be
linked. -/
structure HasChunks (schemas : Nat → PageSchema) (s : StoredDb) (t : TxnId) (chunk : DataChunk)
    (x : Slot) (rec : Nat)
    (pc : WritePc) (c : PlacedChunk) (address : Nat) (h : 8 ∣ address) : Prop where
  caller : s.placed (.caller (s.held t)) = some c
  delta : s.placed (.delta ⟨t, rec⟩) = some (c.moved address h)
  of : c.Of (schemas x.tbl)
  chunk : c.contents s.mem = chunk
  filled : ∀ head, pc = .link head → ∀ r, s.db.record ⟨t, rec⟩ = some r →
    (c.moved address h).contents s.mem = r.delta

/-- What runs in bytes keep. -/
structure StoredInv (schemas : Nat → PageSchema) (s : StoredDb) : Prop where
  run : txnSystem.ReachableBy (Db.HandsOutBelow signBit) s.db
  schema : ∀ tbl, s.db.schema tbl = (schemas tbl).toSchema
  shows : Shows schemas s.page s.db
  room : ∀ tbl pid, s.db.count tbl pid ≤ (schemas tbl).layout.maxRowCount.toNat
  isIn : ∀ name c, s.placed name = some c → c.In s.mem
  apart : ∀ name other c d, name ≠ other → s.placed name = some c →
    s.placed other = some d → c.Apart d
  calls : ∀ t chunk x rec pc, (s.db.txns t).ctl = .writing (.update chunk) x rec pc →
    ∃ c address h, HasChunks schemas s t chunk x rec pc c address h
  linked : ∀ x, ∀ p ∈ s.db.versions x, ∀ r, s.db.record p = some r → r.type = .update →
    ∃ d, s.placed (.delta p) = some d ∧ d.Of (schemas x.tbl) ∧ d.contents s.mem = r.delta
  failed : s.failed = none

variable {schemas : Nat → PageSchema} {s s' : StoredDb} {m : Mem} {db : Db} {x : Slot}
  {tbl pid : Nat} {page : Mem}

theorem setPage_apply (s : StoredDb) (tbl pid a b : Nat) (page : Mem) :
    s.setPage tbl pid page a b = if a = tbl ∧ b = pid then page else s.page a b := by
  unfold setPage
  by_cases ha : a = tbl
  · subst ha
    by_cases hb : b = pid
    · simp [hb]
    · simp [hb]
  · simp [ha]

theorem toNat_ofNat_idx {l : PaxLayout} (h : x.idx < l.maxRowCount.toNat) :
    (UInt32.ofNat x.idx).toNat = x.idx :=
  UInt32.toNat_ofNat_of_lt' (Nat.lt_trans h (UInt32.toNat_lt _))

theorem ofNat_idx_lt {l : PaxLayout} (h : x.idx < l.maxRowCount.toNat) :
    UInt32.ofNat x.idx < l.maxRowCount :=
  UInt32.lt_iff_toNat_lt.mpr (by rwa [toNat_ofNat_idx h])

/-- Rows of a page with different numbers in a slot have different indexes. -/
theorem ofNat_idx_ne {y : Slot} {l : PaxLayout} (hx : x.idx < l.maxRowCount.toNat)
    (hy : y.idx < l.maxRowCount.toNat)
    (hne : y.idx ≠ x.idx) : UInt32.ofNat y.idx ≠ UInt32.ofNat x.idx := by
  intro heq
  have hnat := congrArg UInt32.toNat heq
  rw [toNat_ofNat_idx hx, toNat_ofNat_idx hy] at hnat
  exact hne hnat

theorem slot_ext {y : Slot} (htbl : y.tbl = x.tbl) (hpid : y.pid = x.pid) (hidx : y.idx = x.idx) :
    y = x := by
  cases x
  cases y
  simp_all

theorem view_eq (h : Shows schemas s.page s.db) : s.view schemas = s.db := by
  unfold view
  refine Db.ext rfl rfl rfl rfl rfl ?_ ?_ ?_ rfl
  · funext tbl pid
    exact h.count tbl pid
  · funext x
    show (if _ then _ else _) = _
    split
    · exact h.rows x ‹_›
    · rfl
  · funext x
    show (if _ then _ else _) = _
    split
    · exact h.bits x ‹_›
    · rfl

theorem shows_of_view (h : s.view schemas = s.db) : Shows schemas s.page s.db where
  count tbl pid := congrFun (congrFun (congrArg Db.count h) tbl) pid
  rows x hx := by
    have hrow : (if _ then _ else _) = s.db.rows x := congrFun (congrArg Db.rows h) x
    rwa [if_pos hx] at hrow
  bits x hx := by
    have hbit : (if _ then _ else _) = s.db.deletedBit x := congrFun (congrArg Db.deletedBit h) x
    rwa [if_pos hx] at hbit

/-- A page on which a row has changed. -/
theorem Shows.setRow {row : Row} (h : Shows schemas s.page s.db)
    (hx : x.idx < (schemas x.tbl).layout.maxRowCount.toNat)
    (hrow : (schemas x.tbl).RowBecomes (UInt32.ofNat x.idx) (s.page x.tbl x.pid) page row)
    (hcount : db.count = s.db.count) (hrows : db.rows = update s.db.rows x row)
    (hbits : db.deletedBit = s.db.deletedBit) :
    Shows schemas (s.setPage x.tbl x.pid page) db where
  count tbl pid := by
    rw [hcount, ← h.count, setPage_apply]
    split
    · rename_i heq
      rw [heq.1, heq.2, PaxLayout.headerCount_congr hrow.header]
    · rfl
  rows y hy := by
    rw [hrows, setPage_apply]
    split
    · rename_i heq
      by_cases hyx : y = x
      · rw [hyx, update_self, hrow.row]
      · have hidx : y.idx ≠ x.idx := fun hidx => hyx (slot_ext heq.1 heq.2 hidx)
        rw [update_of_ne hyx, ← h.rows y hy]
        rw [heq.1] at hy ⊢
        rw [heq.2]
        exact hrow.others _ (ofNat_idx_lt hy) (ofNat_idx_ne hx hy hidx)
    · rename_i hne
      have hyx : y ≠ x := fun heq => hne ⟨by rw [heq], by rw [heq]⟩
      rw [update_of_ne hyx, h.rows y hy]
  bits y hy := by
    rw [hbits, ← h.bits y hy, setPage_apply]
    split
    · rename_i heq
      rw [heq.1] at hy ⊢
      rw [heq.2]
      exact hrow.bits _ (ofNat_idx_lt hy)
    · rfl

/-- A page on which a row has been deleted. -/
theorem Shows.setBit (h : Shows schemas s.page s.db)
    (hx : x.idx < (schemas x.tbl).layout.maxRowCount.toNat)
    (hcount : db.count = s.db.count) (hrows : db.rows = s.db.rows)
    (hbits : db.deletedBit = update s.db.deletedBit x true) :
    Shows schemas
      (s.setPage x.tbl x.pid (PaxLayout.delete (s.page x.tbl x.pid) (UInt32.ofNat x.idx))) db := by
  have hkeeps : (schemas x.tbl).layout.KeepsRows (s.page x.tbl x.pid) _ _ :=
    (schemas x.tbl).cellsFit.delete (ofNat_idx_lt hx)
  constructor
  case count =>
    intro tbl pid
    rw [hcount, ← h.count, setPage_apply]
    split
    · rename_i heq
      rw [heq.1, heq.2, PaxLayout.headerCount_congr hkeeps.header]
    · rfl
  case rows =>
    intro y hy
    rw [hrows, ← h.rows y hy, setPage_apply]
    split
    · rename_i heq
      rw [heq.1] at hy ⊢
      rw [heq.2]
      exact PageSchema.rowAt_congr fun column => hkeeps.cells _ column (ofNat_idx_lt hy)
    · rfl
  case bits =>
    intro y hy
    rw [hbits, setPage_apply]
    split
    · rename_i heq
      by_cases hyx : y = x
      · rw [hyx, update_self]
        exact PaxLayout.isDeleted_delete _ _
      · have hidx : y.idx ≠ x.idx := fun hidx => hyx (slot_ext heq.1 heq.2 hidx)
        rw [update_of_ne hyx, ← h.bits y hy]
        rw [heq.1] at hy ⊢
        rw [heq.2]
        exact hkeeps.bits _ (ofNat_idx_lt hy) (ofNat_idx_ne hx hy hidx)
    · rename_i hne
      have hyx : y ≠ x := fun heq => hne ⟨by rw [heq], by rw [heq]⟩
      rw [update_of_ne hyx, h.bits y hy]

/-! ## One chunk at a time -/

/-- The chunk is where it was, with the contents that it had. -/
structure KeepsChunk (s s' : StoredDb) (name : ChunkName) : Prop where
  placed : s'.placed name = s.placed name
  contents : ∀ c, s.placed name = some c → c.contents s'.mem = c.contents s.mem

/-- A step gives memory to one chunk, or writes to it; the others are where they were. -/
structure Moves (s s' : StoredDb) (name : ChunkName) : Prop where
  placed : ∀ other, other ≠ name → s'.placed other = s.placed other
  isIn : ∀ c, s'.placed name = some c → c.In s'.mem
  apart : ∀ c, s'.placed name = some c → ∀ other d, other ≠ name →
    s.placed other = some d → c.Apart d
  within : ∃ c, s'.placed name = some c ∧ c.Within s.mem s'.mem

section Moves

variable {name other : ChunkName} {c d : PlacedChunk}

/-- The other chunks have their headers and their contents. -/
theorem Moves.kept (hm : Moves s s' name) (h : StoredInv schemas s) (hne : other ≠ name)
    (hd : s.placed other = some d) :
    d.In s'.mem ∧ d.contents s'.mem = d.contents s.mem := by
  obtain ⟨c, hc, hwithin⟩ := hm.within
  have hapart := hm.apart c hc other d hne hd
  exact ⟨hapart.in_congr (h.isIn other d hd) hwithin, hapart.contents_eq hwithin⟩

theorem Moves.keeps (hm : Moves s s' name) (h : StoredInv schemas s) (hne : other ≠ name) :
    s.KeepsChunk s' other :=
  ⟨hm.placed other hne, fun _ hd => (hm.kept h hne hd).2⟩

theorem Moves.isIn_all (hm : Moves s s' name) (h : StoredInv schemas s)
    (hd : s'.placed other = some d) : d.In s'.mem := by
  by_cases hne : other = name
  · subst hne
    exact hm.isIn d hd
  · rw [hm.placed other hne] at hd
    exact (hm.kept h hne hd).1

theorem Moves.apart_all (hm : Moves s s' name) (h : StoredInv schemas s) {first second : ChunkName}
    (hne : first ≠ second)
    (hc : s'.placed first = some c) (hd : s'.placed second = some d) : c.Apart d := by
  by_cases hfirst : first = name
  · subst hfirst
    rw [hm.placed second (Ne.symm hne)] at hd
    exact hm.apart c hc second d (Ne.symm hne) hd
  · by_cases hsecond : second = name
    · subst hsecond
      rw [hm.placed first hne] at hc
      exact (hm.apart d hd first c hne hc).symm
    · rw [hm.placed first hfirst] at hc
      rw [hm.placed second hsecond] at hd
      exact h.apart first second c d hne hc hd

/-- A chunk that has its place is written to. -/
theorem moves_becomes {chunk : DataChunk} (h : StoredInv schemas s) (hplaced : s'.placed = s.placed)
    (hc : s.placed name = some c) (hbecomes : c.Becomes s.mem s'.mem chunk) : Moves s s' name where
  placed other _ := by rw [hplaced]
  isIn d hd := by
    obtain rfl := Option.some.inj (hc.symm.trans (hplaced ▸ hd))
    exact hbecomes.isIn
  apart d hd other e hne he := h.apart name other d e (Ne.symm hne) (hplaced ▸ hd) he
  within := ⟨c, hplaced ▸ hc, hbecomes.keeps.within⟩

/-- A chunk gets a place, and its header. -/
theorem moves_place (hplaced : s'.placed = update s.placed name (some c)) (hfresh : s.Fresh c)
    (hmem : s'.mem = s.mem.write c.address c.columns.header) : Moves s s' name where
  placed other hne := by rw [hplaced, update_of_ne hne]
  isIn d hd := by
    rw [hplaced, update_self] at hd
    obtain rfl := Option.some.inj hd
    rw [hmem]
    exact c.in_header s.mem
  apart d hd other e _ he := by
    rw [hplaced, update_self] at hd
    obtain rfl := Option.some.inj hd
    exact hfresh other e he
  within := by
    refine ⟨c, by rw [hplaced, update_self], fun a ha => ?_⟩
    rw [hmem]
    have hheader := c.fieldsStart_le
    have hlength := c.length_header
    unfold PlacedChunk.fieldsStart at hheader
    exact Mem.write_outside (by omega)

end Moves

/-! ## The chunks of the writes under way, and of the versions -/

section Frame

variable {a : Action} {t : TxnId} {chunk : DataChunk} {rec : Nat} {pc pc' : WritePc}

/-- The chunks of an update are as they were, and its record is not about to be linked unless it was
before. -/
theorem HasChunks.frame {c : PlacedChunk} {address : Nat} {hal : 8 ∣ address}
    (hc : HasChunks schemas s t chunk x rec pc c address hal)
    (hcaller : s.KeepsChunk s' (.caller (s.held t)))
    (hdelta : s.KeepsChunk s' (.delta ⟨t, rec⟩)) (hheld : s'.held t = s.held t)
    (hlink : ∀ head, pc' = .link head → pc = .link head ∧ s'.db.record ⟨t, rec⟩ =
      s.db.record ⟨t, rec⟩) :
    HasChunks schemas s' t chunk x rec pc' c address hal where
  caller := by rw [hheld, hcaller.placed, hc.caller]
  delta := by rw [hdelta.placed, hc.delta]
  of := hc.of
  chunk := by rw [hcaller.contents c hc.caller, hc.chunk]
  filled head hpc r hr := by
    obtain ⟨hpc', hrec⟩ := hlink head hpc
    rw [hdelta.contents _ hc.delta]
    exact hc.filled head hpc' r (hrec ▸ hr)

/-- The update of a transaction that does not act. -/
theorem calls_other (h : StoredInv schemas s) (hs : Db.Stepped s.db a s'.db) (hother : t ≠ a.txn)
    (hheld : s'.held t = s.held t) (hcaller : s.KeepsChunk s' (.caller (s.held t)))
    (hdelta : ∀ rec, s.KeepsChunk s' (.delta ⟨t, rec⟩))
    (hctl : (s'.db.txns t).ctl = .writing (.update chunk) x rec pc) :
    ∃ c address hal, HasChunks schemas s' t chunk x rec pc c address hal := by
  have hsame := hs.txns_of_ne hother
  rw [hsame] at hctl
  obtain ⟨c, address, hal, hc⟩ := h.calls _ _ _ _ _ hctl
  exact ⟨c, address, hal, hc.frame hcaller (hdelta rec) hheld fun head hpc =>
    ⟨hpc, by unfold Db.record; rw [hsame]⟩⟩

/-- The update of the transaction that acts, where it has been under way and does not write the
row. -/
theorem calls_own (h : StoredInv schemas s) (hs : Db.Stepped s.db a s'.db)
    (hstart : ∀ chunk x, a ≠ .write a.txn (.update chunk) x)
    (hwrite : ∀ chunk x rec head, (s.db.txns a.txn).ctl ≠ .writing (.update chunk) x
      rec (.apply head))
    (hheld : s'.held = s.held) (hkeeps : ∀ name, s.KeepsChunk s' name)
    (hctl : (s'.db.txns a.txn).ctl = .writing (.update chunk) x rec pc) :
    ∃ c address hal, HasChunks schemas s' a.txn chunk x rec pc c address hal := by
  rcases hs.update_cases hctl with ⟨hcalled, -⟩ | ⟨pc', hold, hlink⟩
  · exact absurd hcalled (hstart chunk x)
  · obtain ⟨c, address, hal, hc⟩ := h.calls _ _ _ _ _ hold
    exact ⟨c, address, hal, hc.frame (hkeeps _) (hkeeps _) (by rw [hheld]) fun head hpc =>
      absurd (hlink head hpc ▸ hold) (hwrite _ _ _ _)⟩

/-- The swap does not change the records. -/
theorem record_of_link {db db' : Db} {op : WriteOp} {head : Option RecPtr}
    (hs : Db.Stepped db a db')
    (hctl : (db.txns a.txn).ctl = .writing op x rec (.link head)) (p : RecPtr) :
    db'.record p = db.record p := by
  have hundo : ∀ {y : Txn}, y.undo = (db.txns a.txn).undo → (db.setTxn a.txn y).record p =
      db.record p := by
    intro y hy
    by_cases hp : p.owner = a.txn
    · simp [Db.record, hp, hy]
    · simp [Db.record, hp]
  cases hs with
  | link _ =>
      unfold Db.link
      split
      · exact hundo rfl
      · exact hundo rfl
  | _ => simp_all [Action.txn]

/-- A version in a chain keeps its before-image in its delta, and one that is linked brings its
own. -/
theorem linked_step (h : StoredInv schemas s) (hs : Db.Stepped s.db a s'.db)
    (hversions : ∀ x, ∀ p ∈ s.db.versions x, s.KeepsChunk s' (.delta p))
    (hwriting : ∀ chunk x rec head, (s.db.txns a.txn).ctl = .writing (.update chunk) x
      rec (.link head) →
      s.KeepsChunk s' (.delta ⟨a.txn, rec⟩)) :
    ∀ x, ∀ p ∈ s'.db.versions x, ∀ r, s'.db.record p = some r → r.type = .update →
      ∃ d, s'.placed (.delta p) = some d ∧ d.Of (schemas x.tbl) ∧ d.contents s'.mem = r.delta := by
  have hcommit := Db.commitInv_reachable (by decide) h.run
  have hchain := Db.chainInv_reachable h.run
  have hold : ∀ x, ∀ p ∈ s.db.versions x, ∀ r, s'.db.record p = some r → r.type = .update →
      ∃ d, s'.placed (.delta p) = some d ∧ d.Of (schemas x.tbl) ∧ d.contents s'.mem = r.delta := by
    intro x p hp r hr htype
    have hcontent := hs.content_eq hcommit hchain hp
    simp only [Db.content, hr, Option.map_some] at hcontent
    obtain ⟨r₀, hr₀, heq⟩ := Option.map_eq_some_iff.mp hcontent.symm
    obtain ⟨htype₀, hdelta₀⟩ := Prod.mk.inj heq
    obtain ⟨d, hd, hof, hcontents⟩ := h.linked x p hp r₀ hr₀ (htype₀.trans htype)
    have hkeeps := hversions x p hp
    exact ⟨d, hkeeps.placed.trans hd, hof, (hkeeps.contents d hd).trans (hcontents.trans hdelta₀)⟩
  intro x p hp r hr htype
  rcases hs.chain_cases x with hsame | ⟨-, hinsert, hkind⟩ | ⟨op, rec, hctl, hcons, hctl'⟩
  · exact hold x p (hsame ▸ hp) r hr htype
  · rw [hinsert, List.mem_singleton] at hp
    subst hp
    simp [Db.kind, hr, htype] at hkind
  · rw [hcons] at hp
    rcases List.mem_cons.mp hp with rfl | hp
    · have hkind :=
        hs.kind_writing (fun pc hctl hpc => Db.writing_kind h.run hctl hpc) hctl' (by simp)
      simp only [Db.kind, hr, Option.map_some, htype] at hkind
      cases op with
      | update chunk =>
          have hkeeps := hwriting _ _ _ _ hctl
          obtain ⟨c, address, hal, hc⟩ := h.calls _ _ _ _ _ hctl
          exact ⟨_, hkeeps.placed.trans hc.delta, hc.of,
            (hkeeps.contents _ hc.delta).trans (hc.filled _ rfl r (record_of_link hs hctl _ ▸ hr))⟩
      | delete => cases hkind
      | deleteRaw => cases hkind
    · exact hold x p hp r hr htype

end Frame

/-! ## Steps that write no page -/

section Callers

variable {n : Nat} {c : PlacedChunk}

/-- A caller's chunk that no update holds may change. -/
theorem storedInv_caller (h : StoredInv schemas s) (hm : Moves s s' (.caller n))
    (hdb : s'.db = s.db)
    (hpage : s'.page = s.page) (hheld : s'.held = s.held) (hfailed : s'.failed = none)
    (hunheld : s.Unheld n) :
    StoredInv schemas s' where
  run := by rw [hdb]; exact h.run
  schema := by rw [hdb]; exact h.schema
  shows := by rw [hdb, hpage]; exact h.shows
  room := by rw [hdb]; exact h.room
  isIn _ _ hc := hm.isIn_all h hc
  apart _ _ _ _ hne hc hd := hm.apart_all h hne hc hd
  calls t chunk x rec pc hctl := by
    rw [hdb] at hctl
    obtain ⟨c, address, hal, hc⟩ := h.calls t chunk x rec pc hctl
    have hcaller : ChunkName.caller (s.held t) ≠ .caller n := fun heq =>
      hunheld t chunk x rec pc hctl (ChunkName.caller.inj heq)
    exact ⟨c, address, hal, hc.frame (hm.keeps h hcaller) (hm.keeps h (by simp)) (by rw [hheld])
      fun head hpc =>
      ⟨hpc, by rw [hdb]⟩⟩
  linked x p hp r hr htype := by
    rw [hdb] at hp hr
    obtain ⟨d, hd, hof, hcontents⟩ := h.linked x p hp r hr htype
    exact ⟨d, by rw [hm.placed _ (by simp), hd], hof, by rw [(hm.kept h (by simp) hd).2, hcontents]⟩
  failed := hfailed

/-- A caller makes a chunk. -/
theorem storedInv_make (h : StoredInv schemas s) (hfresh : s.Fresh c)
    (hstep : s.step schemas (.make n c) = some s') :
    StoredInv schemas s' := by
  simp only [step] at hstep
  split at hstep
  · rename_i hnone
    obtain rfl := Option.some.inj hstep
    have hmem : (c.columns.layout s.mem).createDataChunk s.mem c.address = s.mem.write c.address
        c.columns.header := by
      unfold RawLayout.createDataChunk
      rw [c.fits.header_eq]
    refine storedInv_caller h (moves_place rfl hfresh hmem) rfl rfl rfl h.failed ?_
    -- an update under way has a chunk already
    intro t chunk x rec pc hctl heq
    obtain ⟨c', address, hal, hc⟩ := h.calls t chunk x rec pc hctl
    rw [← heq, hc.caller] at hnone
    cases hnone
  · cases hstep

/-- A caller writes a field. -/
theorem storedInv_fill {oid : UInt32} {value : List Byte} (h : StoredInv schemas s)
    (hunheld : s.Unheld n) (hsize : ∀ c, s.placed (.caller n) = some c → ∀ i : c.columns.Idx,
      (c.columns.field i).oid = oid → value.length = (c.columns.field i).size.toNat)
    (hstep : s.step schemas (.fill n oid value) = some s') : StoredInv schemas s' := by
  simp only [step] at hstep
  obtain ⟨c, hc, rfl⟩ := Option.map_eq_some_iff.mp hstep
  obtain ⟨chunk, hbecomes⟩ := (h.isIn _ c hc).write (hsize c hc)
  exact storedInv_caller h (moves_becomes h rfl hc hbecomes) rfl rfl rfl h.failed hunheld

/-- `SelectIntoChunk` on the bytes answers what it answers on the rows and the versions, and writes
to its chunk only. -/
theorem selectIntoChunk_eq (h : StoredInv schemas s) (t : TxnId)
    (hc : s.placed (.caller n) = some c)
    (hof : c.Of (schemas x.tbl)) (hx : x.idx < (schemas x.tbl).layout.maxRowCount.toNat) :
    ∃ m', s.selectIntoChunk schemas t x c.address =
        .ok ((s.db.selectIntoChunk (s.db.txns t) x (c.contents s.mem)).1, m') ∧
      c.Becomes s.mem m' (s.db.selectIntoChunk (s.db.txns t) x (c.contents s.mem)).2 := by
  refine selectIntoChunkBytes_eq hof (h.isIn _ c hc) (ofNat_idx_lt hx) (h.schema x.tbl)
    (h.shows.rows x hx)
    (h.shows.bits x hx) ?_ ?_
  · unfold Db.chain
    rw [List.map_filterMap]
    refine List.filterMap_congr fun p _ => ?_
    rw [Option.map_map]
    exact Option.map_id'
  · intro version hversion htype
    obtain ⟨p, hp, hmap⟩ := List.mem_filterMap.mp hversion
    obtain ⟨r, hr, rfl⟩ := Option.map_eq_some_iff.mp hmap
    obtain ⟨d, hd, hofD, hcontents⟩ := h.linked x p hp r hr htype
    exact ⟨d, by rw [hd]; rfl, hofD, h.isIn _ d hd, h.apart _ _ _ _ (by simp) hc hd, hcontents⟩

/-- A read fills its chunk. -/
theorem storedInv_select {t : TxnId} (h : StoredInv schemas s) (hunheld : s.Unheld n)
    (hx : x.idx < (schemas x.tbl).layout.maxRowCount.toNat)
    (hof : ∀ c, s.placed (.caller n) = some c → c.Of (schemas x.tbl))
    (hstep : s.step schemas (.select t x n) = some s') :
    StoredInv schemas s' := by
  simp only [step] at hstep
  split at hstep
  · obtain ⟨c, hc, rfl⟩ := Option.map_eq_some_iff.mp hstep
    obtain ⟨m', hread, hbecomes⟩ := selectIntoChunk_eq h t hc (hof c hc) hx
    rw [hread]
    exact storedInv_caller h (moves_becomes h rfl hc hbecomes) rfl rfl rfl h.failed hunheld
  · cases hstep

end Callers

/-! ## Steps of transactions -/

section Transactions

variable {a : Action} {t : TxnId}

/-- A step of a transaction that starts no update and writes no row by one. -/
theorem storedInv_unmoved (h : StoredInv schemas s) (hs : Db.Stepped s.db a s'.db)
    (hrun : txnSystem.ReachableBy (Db.HandsOutBelow signBit) s'.db)
    (hshows : Shows schemas s'.page s'.db)
    (hroom : ∀ tbl pid, s'.db.count tbl pid ≤ (schemas tbl).layout.maxRowCount.toNat)
    (hplaced : s'.placed = s.placed) (hmem : s'.mem = s.mem) (hheld : s'.held = s.held)
    (hfailed : s'.failed = none) (hstart : ∀ chunk x, a ≠ .write a.txn (.update chunk) x)
    (hwrite : ∀ chunk x rec head, (s.db.txns a.txn).ctl ≠ .writing (.update chunk) x rec
      (.apply head)) :
    StoredInv schemas s' := by
  have hkeeps : ∀ name, s.KeepsChunk s' name :=
    fun name => ⟨by rw [hplaced], fun c _ => by rw [hmem]⟩
  refine ⟨hrun, ?_, hshows, hroom, ?_, ?_, ?_,
    linked_step h hs (fun _ _ _ => hkeeps _) fun _ _ _ _ _ => hkeeps _,
    hfailed⟩
  · rw [hs.schema_eq]
    exact h.schema
  · rw [hplaced, hmem]
    exact h.isIn
  · rw [hplaced]
    exact h.apart
  · intro t chunk x rec pc hctl
    by_cases hown : t = a.txn
    · subst hown
      exact calls_own h hs hstart hwrite hheld hkeeps hctl
    · exact calls_other h hs hown (by rw [hheld]) (hkeeps _) (fun _ => hkeeps _) hctl

/-- The run of the transactions goes on. -/
theorem StoredInv.run_step {db : Db} (h : StoredInv schemas s)
    (hc : Db.HandsOutBelow signBit s.db a) (hstep : s.db.step a = some db) :
    txnSystem.ReachableBy (Db.HandsOutBelow signBit) db := by
  obtain ⟨s₀, hinit, hsteps⟩ := h.run
  exact ⟨s₀, hinit, hsteps.tail hc hstep⟩

theorem Shows.congr {db' : Db} (h : Shows schemas s.page db) (hcount : db'.count = db.count)
    (hrows : db'.rows = db.rows)
    (hbits : db'.deletedBit = db.deletedBit) : Shows schemas s.page db' :=
  ⟨by rw [hcount]; exact h.count, by rw [hrows]; exact h.rows, by rw [hbits]; exact h.bits⟩

/-- A page on which a row has been inserted. -/
theorem Shows.insert {row : Row} (h : Shows schemas s.page s.db)
    (hroom : (PaxLayout.headerCount (s.page tbl pid)).toNat + 1 <
      (schemas tbl).layout.maxRowCount.toNat)
    (hheader : PaxLayout.headerCount page = PaxLayout.headerCount (s.page tbl pid) + 1)
    (hrow : (schemas tbl).rowAt page (PaxLayout.headerCount (s.page tbl pid)) = row)
    (hothers : ∀ idx < (schemas tbl).layout.maxRowCount,
      idx ≠ PaxLayout.headerCount (s.page tbl pid) →
      (schemas tbl).rowAt page idx = (schemas tbl).rowAt (s.page tbl pid) idx)
    (hbits : ∀ idx < (schemas tbl).layout.maxRowCount,
      PaxLayout.isDeleted page idx = PaxLayout.isDeleted (s.page tbl pid) idx)
    (hcount' : db.count =
      update s.db.count tbl (update (s.db.count tbl) pid (s.db.count tbl pid + 1)))
    (hrows' : db.rows = update s.db.rows ⟨tbl, pid, s.db.count tbl pid⟩ row)
    (hbits' : db.deletedBit = s.db.deletedBit) :
    Shows schemas (s.setPage tbl pid page) db where
  count a b := by
    rw [hcount', setPage_apply]
    by_cases hpage : a = tbl ∧ b = pid
    · obtain ⟨rfl, rfl⟩ := hpage
      have hmax := (schemas a).layout.maxRowCount.toNat_lt
      rw [if_pos ⟨rfl, rfl⟩, hheader, update_self, update_self, ← h.count, UInt32.toNat_add]
      exact Nat.mod_eq_of_lt (by show _ + 1 < 4294967296; omega)
    · rw [if_neg hpage, h.count]
      by_cases ha : a = tbl
      · subst ha
        rw [update_self, update_of_ne fun hb => hpage ⟨rfl, hb⟩]
      · rw [update_of_ne ha]
  rows y hy := by
    rw [hrows', setPage_apply]
    by_cases hpage : y.tbl = tbl ∧ y.pid = pid
    · obtain ⟨rfl, rfl⟩ := hpage
      rw [if_pos ⟨rfl, rfl⟩]
      by_cases hidx : y.idx = s.db.count y.tbl y.pid
      · have hslot : (⟨y.tbl, y.pid, s.db.count y.tbl y.pid⟩ : Slot) = y := by rw [← hidx]
        rw [hslot, update_self, ← hrow, hidx, ← h.count, UInt32.ofNat_toNat]
      · have hne : y ≠ ⟨y.tbl, y.pid, s.db.count y.tbl y.pid⟩ :=
          fun heq => hidx (congrArg Slot.idx heq)
        rw [update_of_ne hne, ← h.rows y hy]
        refine hothers _ (ofNat_idx_lt hy) fun heq => hidx ?_
        rw [← h.count, ← heq, toNat_ofNat_idx hy]
    · have hne : y ≠ ⟨tbl, pid, s.db.count tbl pid⟩ := fun heq =>
        hpage ⟨congrArg Slot.tbl heq, congrArg Slot.pid heq⟩
      rw [if_neg hpage, update_of_ne hne, h.rows y hy]
  bits y hy := by
    rw [hbits', ← h.bits y hy, setPage_apply]
    by_cases hpage : y.tbl = tbl ∧ y.pid = pid
    · obtain ⟨rfl, rfl⟩ := hpage
      rw [if_pos ⟨rfl, rfl⟩]
      exact hbits _ (ofNat_idx_lt hy)
    · rw [if_neg hpage]

/-- `Insert` of a caller's chunk into a page with room: the next row of the page is that of the
chunk. -/
theorem insert_step {n : Nat} {c : PlacedChunk} (h : StoredInv schemas s)
    (hc : s.placed (.caller n) = some c) (hof : c.Of (schemas tbl))
    (hroom : (PaxLayout.headerCount (s.page tbl pid)).toNat + 1 <
      (schemas tbl).layout.maxRowCount.toNat)
    (hactive : (s.db.txns t).ctl = .active) (hlatch : s.db.latch tbl pid = none) :
    ∃ page, s.step schemas (.insert t tbl pid n) =
        some { s with
          db := s.db.insertTuple t tbl pid (c.contents s.mem)
          page := s.setPage tbl pid page } ∧
      Shows schemas (s.setPage tbl pid page) (s.db.insertTuple t tbl pid (c.contents s.mem)) := by
  obtain ⟨page, hinsert, hheader, hrow, hothers, hbits⟩ :=
    ChunkUtils.insert_eq hof (h.isIn _ c hc) (s.page tbl pid) hroom
  have hidx : s.db.count tbl pid < (schemas tbl).layout.maxRowCount.toNat := by
    rw [← h.shows.count]
    omega
  have hold : (schemas tbl).rowAt (s.page tbl pid) (PaxLayout.headerCount (s.page tbl pid)) =
      s.db.rows ⟨tbl, pid, s.db.count tbl pid⟩ := by
    rw [← h.shows.rows ⟨tbl, pid, s.db.count tbl pid⟩ hidx, ← h.shows.count, UInt32.ofNat_toNat]
  rw [hold, ← h.schema tbl] at hrow
  refine ⟨page, ?_, h.shows.insert hroom hheader hrow hothers hbits rfl rfl rfl⟩
  simp only [step, hc, view_eq h.shows, Db.step, hactive, hlatch, and_self, if_true,
    Option.bind_eq_bind, Option.bind_some]
  rw [hinsert]
  rfl

theorem storedInv_insert {n : Nat} (h : StoredInv schemas s)
    (hroom : (PaxLayout.headerCount (s.page tbl pid)).toNat + 1 <
      (schemas tbl).layout.maxRowCount.toNat)
    (hof : ∀ c, s.placed (.caller n) = some c → c.Of (schemas tbl))
    (hstep : s.step schemas (.insert t tbl pid n) = some s') : StoredInv schemas s' := by
  have hcopy := hstep
  simp only [step, Option.bind_eq_bind] at hcopy
  obtain ⟨c, hc, hrest⟩ := Option.bind_eq_some_iff.mp hcopy
  obtain ⟨db, hdb, -⟩ := Option.bind_eq_some_iff.mp hrest
  rw [view_eq h.shows] at hdb
  have hs := Db.stepped_of_step hdb
  have hrun := h.run_step (fun hout => by simp [Db.checksOut] at hout) hdb
  obtain ⟨hactive, hlatch, rfl⟩ : (s.db.txns t).ctl = .active ∧ s.db.latch tbl pid = none ∧
      db = s.db.insertTuple t tbl pid (c.contents s.mem) := by
    cases hs with
    | insert hactive hlatch => exact ⟨hactive, hlatch, rfl⟩
  obtain ⟨page, heq, hshows⟩ := insert_step h hc (hof c hc) hroom hactive hlatch
  obtain rfl := Option.some.inj (heq.symm.trans hstep)
  refine storedInv_unmoved h hs hrun hshows ?_ rfl rfl rfl h.failed (by simp) ?_
  · intro a b
    show update s.db.count tbl (update (s.db.count tbl) pid (s.db.count tbl pid + 1)) a b ≤ _
    by_cases ha : a = tbl
    · subst ha
      rw [update_self]
      by_cases hb : b = pid
      · subst hb
        rw [update_self, ← h.shows.count]
        exact Nat.le_of_lt hroom
      · rw [update_of_ne hb]
        exact h.room _ _
    · rw [update_of_ne ha]
      exact h.room _ _
  · intro chunk y rec head hctl
    rw [Action.txn, hactive] at hctl
    cases hctl

/-- An update starts: its record gets a delta with the header of the chunk. -/
theorem storedInv_update {n delta : Nat} (h : StoredInv schemas s)
    (hregular : ∀ c hal, s.placed (.caller n) = some c → c.Of (schemas x.tbl) ∧
      s.Fresh (c.moved delta hal))
    (hstep : s.step schemas (.update t x n delta) = some s') : StoredInv schemas s' := by
  simp only [step, Option.bind_eq_bind] at hstep
  split at hstep
  case isFalse => cases hstep
  case isTrue hal =>
    obtain ⟨c, hc, hstep⟩ := Option.bind_eq_some_iff.mp hstep
    obtain ⟨db, hdb, hstep⟩ := Option.bind_eq_some_iff.mp hstep
    rw [view_eq h.shows] at hdb
    obtain ⟨hof, hfresh⟩ := hregular c hal hc
    have hs := Db.stepped_of_step hdb
    have hrun := h.run_step (fun hout => by simp [Db.checksOut] at hout) hdb
    have hchain := Db.chainInv_reachable h.run
    obtain ⟨hactive, rfl⟩ :
        (s.db.txns t).ctl = .active ∧ db = s.db.startWrite t (.update (c.contents s.mem)) x := by
      cases hs with
      | start hactive _ _ => exact ⟨hactive, rfl⟩
    rw [(h.isIn _ c hc).read_header] at hstep
    have hm : Moves s s' (.delta ⟨t, (s.db.txns t).undo.length⟩) := by
      obtain rfl := Option.some.inj hstep
      exact moves_place (c := c.moved delta hal) rfl hfresh rfl
    obtain rfl := Option.some.inj hstep
    refine ⟨hrun, h.schema, h.shows.congr rfl rfl rfl, h.room, fun _ _ hd => hm.isIn_all h hd,
      fun _ _ _ _ hne hd he => hm.apart_all h hne hd he, ?_, ?_, h.failed⟩
    · intro u chunk y rec pc hctl
      by_cases hown : u = t
      · subst hown
        simp only [Db.startWrite, Db.setTxn_txns, update_self, Ctl.writing.injEq,
          WriteOp.update.injEq] at hctl
        obtain ⟨rfl, rfl, rfl, rfl⟩ := hctl
        refine ⟨c, delta, hal, ?_, ?_, hof, (hm.kept h (by simp) hc).2, by simp⟩
        · show update s.placed (.delta ⟨u, (s.db.txns u).undo.length⟩) (some (c.moved delta hal))
            (.caller (update s.held u n u)) = some c
          rw [update_self, update_of_ne (by simp), hc]
        · exact update_self ..
      · have hdelta : ∀ rec, ChunkName.delta ⟨u, rec⟩ ≠ .delta ⟨t, (s.db.txns t).undo.length⟩ :=
          fun rec heq =>
          hown (congrArg RecPtr.owner (ChunkName.delta.inj heq))
        exact calls_other h hs hown (update_of_ne hown ..) (hm.keeps h (by simp))
          (fun rec => hm.keeps h (hdelta rec)) hctl
    · refine linked_step h hs ?_ ?_
      · intro y p hp
        refine hm.keeps h fun heq => ?_
        have hvalid := hchain.valid y p hp
        rw [ChunkName.delta.inj heq] at hvalid
        exact Nat.lt_irrefl _ hvalid
      · intro chunk y rec head hctl
        rw [Action.txn, hactive] at hctl
        cases hctl

/-- An update that has passed its test writes the row and its delta. -/
theorem storedInv_apply {chunk : DataChunk} {rec : Nat} {head : Option RecPtr}
    (h : StoredInv schemas s)
    (hctl : (s.db.txns t).ctl = .writing (.update chunk) x rec (.apply head))
    (hstep : s.step schemas (.other (.run t)) = some s') : StoredInv schemas s' := by
  have hchain := Db.chainInv_reachable h.run
  have hloop := hchain.loop _ _ _ _ _ hctl
  have hx : x.idx < (schemas x.tbl).layout.maxRowCount.toNat :=
    Nat.lt_of_lt_of_le hloop.allocated (h.room x.tbl x.pid)
  have hdb : s.db.step (.run t) = some (s.db.applyUpdate t chunk x rec head) := by
    show s.db.runTxn t = _
    unfold Db.runTxn
    rw [hctl]
    rfl
  have hs := Db.stepped_of_step hdb
  have hrun := h.run_step (fun hout => by simp [Db.checksOut, hctl] at hout) hdb
  obtain ⟨c, address, hal, hc⟩ := h.calls _ _ _ _ _ hctl
  obtain ⟨page', m', hupdate, hrow, hbecomes⟩ :=
    ChunkUtils.update_eq hc.of (ofNat_idx_lt hx) (h.isIn _ _ hc.caller)
    (h.isIn _ _ hc.delta) (h.apart _ _ _ _ (by simp) hc.delta hc.caller) (s.page x.tbl x.pid)
  have hwrites : s.writeBytes schemas (.run t) = .ok (s.setPage x.tbl x.pid page', m') := by
    simp only [writeBytes, hctl, hc.caller, hc.delta]
    exact congrArg (fun r : Except String (Mem × Mem) => r.bind fun written =>
      .ok (s.setPage x.tbl x.pid written.1, written.2)) hupdate
  simp only [step, Action.takesChunk, Bool.false_eq_true, if_false, view_eq h.shows, hdb,
    Option.map_some, hwrites, orFail,
    Option.some.injEq] at hstep
  rw [h.shows.rows x hx, hc.chunk, ← h.schema x.tbl] at hrow hbecomes
  have hm : Moves s s' (.delta ⟨t, rec⟩) := by
    obtain rfl := hstep
    exact moves_becomes h rfl hc.delta hbecomes
  obtain rfl := hstep
  refine ⟨hrun, h.schema, h.shows.setRow hx hrow rfl rfl rfl, h.room,
    fun _ _ hd => hm.isIn_all h hd,
    fun _ _ _ _ hne hd he => hm.apart_all h hne hd he, ?_, ?_, h.failed⟩
  · intro u chunk' y rec' pc hctl'
    by_cases hown : u = t
    · subst hown
      simp only [Db.applyUpdate, Db.setPc, Db.setTxn_txns, update_self, Ctl.writing.injEq,
        WriteOp.update.injEq] at hctl'
      obtain ⟨rfl, rfl, rfl, rfl⟩ := hctl'
      refine ⟨c, address, hal, hc.caller, hc.delta, hc.of, ?_, ?_⟩
      · rw [(hm.kept h (by simp) hc.caller).2, hc.chunk]
      · intro head' _ r hr
        rw [hbecomes.contents]
        simp only [Db.record, Db.applyUpdate, Db.setPc, Db.setTxn_txns, update_self,
          List.getElem?_modify, if_true] at hr
        obtain ⟨r₀, -, rfl⟩ := Option.map_eq_some_iff.mp hr
        rfl
    · have hdelta : ∀ rec', ChunkName.delta ⟨u, rec'⟩ ≠ .delta ⟨t, rec⟩ := fun rec' heq =>
        hown (congrArg RecPtr.owner (ChunkName.delta.inj heq))
      exact calls_other h hs hown rfl (hm.keeps h (by simp))
        (fun rec' => hm.keeps h (hdelta rec')) hctl'
  · refine linked_step h hs ?_ ?_
    · intro y p hp
      refine hm.keeps h fun heq => ?_
      rw [ChunkName.delta.inj heq] at hp
      exact hloop.fresh (by simp) y hp
    · intro chunk' y rec' head' hctl'
      rw [Action.txn, hctl] at hctl'
      cases hctl'

/-- `Delete` that has linked its record sets the bit. -/
theorem storedInv_delete {rec : Nat} (h : StoredInv schemas s)
    (hctl : (s.db.txns t).ctl = .writing .delete x rec (.exit true))
    (hstep : s.step schemas (.other (.run t)) = some s') : StoredInv schemas s' := by
  have hchain := Db.chainInv_reachable h.run
  have hx : x.idx < (schemas x.tbl).layout.maxRowCount.toNat :=
    Nat.lt_of_lt_of_le (hchain.loop _ _ _ _ _ hctl).allocated (h.room x.tbl x.pid)
  have hdb : s.db.step (.run t) = some (s.db.finishWrite t .delete x true) := by
    show s.db.runTxn t = _
    unfold Db.runTxn
    rw [hctl]
    rfl
  have hrun := h.run_step (fun hout => by simp [Db.checksOut, hctl] at hout) hdb
  have hwrites : s.writeBytes schemas (.run t) =
      .ok (s.setPage x.tbl x.pid (PaxLayout.delete (s.page x.tbl x.pid) (UInt32.ofNat x.idx)),
        s.mem) := by
    simp only [writeBytes, hctl]
  simp only [step, Action.takesChunk, Bool.false_eq_true, if_false, view_eq h.shows, hdb,
    Option.map_some, hwrites, orFail,
    Option.some.injEq] at hstep
  obtain rfl := hstep
  refine storedInv_unmoved h (Db.stepped_of_step hdb) hrun (h.shows.setBit hx rfl rfl ?_) h.room rfl
    rfl rfl h.failed
    (by simp) ?_
  · simp [Db.finishWrite]
  · intro chunk y rec' head hctl'
    rw [Action.txn, hctl] at hctl'
    cases hctl'

/-- A step inside a call is the write of a row, or that of a delete bit, or writes no byte. -/
theorem write_cases (schemas : Nat → PageSchema) (hs : Db.Stepped s.db a db)
    (ha : a.takesChunk = false) :
    (∃ t chunk x rec head, a = .run t ∧
      (s.db.txns t).ctl = .writing (.update chunk) x rec (.apply head)) ∨
      (∃ t x rec, a = .run t ∧ (s.db.txns t).ctl = .writing .delete x rec (.exit true)) ∨
      (s.writeBytes schemas a = .ok (s.page, s.mem) ∧
        (db.count = s.db.count ∧ db.rows = s.db.rows ∧ db.deletedBit = s.db.deletedBit) ∧
        ∀ chunk x rec head, (s.db.txns a.txn).ctl ≠ .writing (.update chunk) x rec
          (.apply head)) := by
  cases hs with
  | begin hctl => exact .inr (.inr ⟨rfl, ⟨rfl, rfl, rfl⟩, by simp [Action.txn, hctl]⟩)
  | spin hctl =>
      refine .inr (.inr ⟨rfl, ?_, by simp [Action.txn, hctl]⟩)
      unfold Db.tryLatch
      split
      · exact ⟨rfl, rfl, rfl⟩
      · exact ⟨rfl, rfl, rfl⟩
  | insert _ _ => cases ha
  | start hctl _ _ => exact .inr (.inr ⟨rfl, ⟨rfl, rfl, rfl⟩, by simp [Action.txn, hctl]⟩)
  | lock hctl => exact .inr (.inr ⟨rfl, ⟨rfl, rfl, rfl⟩, by simp [Action.txn, hctl]⟩)
  | checkOut hctl =>
      exact .inr (.inr ⟨by simp [writeBytes, hctl], ⟨rfl, rfl, rfl⟩, by simp [Action.txn, hctl]⟩)
  | restamp hctl _ =>
      exact .inr (.inr ⟨by simp [writeBytes, hctl], ⟨rfl, rfl, rfl⟩, by simp [Action.txn, hctl]⟩)
  | unlock hctl _ =>
      exact .inr (.inr ⟨by simp [writeBytes, hctl], ⟨rfl, rfl, rfl⟩, by simp [Action.txn, hctl]⟩)
  | load hctl =>
      exact .inr (.inr ⟨by simp [writeBytes, hctl], ⟨rfl, rfl, rfl⟩, by simp [Action.txn, hctl]⟩)
  | check hctl =>
      refine .inr (.inr ⟨by simp [writeBytes, hctl], ?_, by simp [Action.txn, hctl]⟩)
      simp only [Db.checkHead]
      split
      · exact ⟨rfl, rfl, rfl⟩
      · exact ⟨rfl, rfl, rfl⟩
  | apply hctl => exact .inl ⟨_, _, _, _, _, rfl, hctl⟩
  | link hctl =>
      refine .inr (.inr ⟨by simp [writeBytes, hctl], ?_, by simp [Action.txn, hctl]⟩)
      unfold Db.link
      split
      · exact ⟨rfl, rfl, rfl⟩
      · exact ⟨rfl, rfl, rfl⟩
  | @exit t op x rec ok hctl =>
      by_cases hdelete : op = .delete ∧ ok
      · obtain ⟨rfl, rfl⟩ := hdelete
        exact .inr (.inl ⟨_, _, _, rfl, hctl⟩)
      · refine .inr (.inr ⟨?_, ⟨rfl, rfl, if_neg hdelete⟩, by simp [Action.txn, hctl]⟩)
        cases op with
        | update chunk => simp only [writeBytes, hctl]
        | deleteRaw => simp only [writeBytes, hctl]
        | delete =>
            cases ok with
            | true => exact absurd ⟨rfl, rfl⟩ hdelete
            | false => simp only [writeBytes, hctl]

theorem storedInv_other (h : StoredInv schemas s) (hc : Db.HandsOutBelow signBit s.db a)
    (hstep : s.step schemas (.other a) = some s') : StoredInv schemas s' := by
  have hcopy := hstep
  simp only [step, view_eq h.shows] at hcopy
  split at hcopy
  case isTrue => cases hcopy
  case isFalse ha =>
    obtain ⟨db, hdb, rfl⟩ := Option.map_eq_some_iff.mp hcopy
    have hs := Db.stepped_of_step hdb
    rcases write_cases schemas hs (Bool.eq_false_iff.mpr ha) with ⟨t, chunk, x, rec,
      head, rfl, hctl⟩ |
      ⟨t, x, rec, rfl, hctl⟩ | ⟨hwrites, ⟨hcount, hrows, hbits⟩, hwrite⟩
    · exact storedInv_apply h hctl hstep
    · exact storedInv_delete h hctl hstep
    · rw [hwrites]
      refine storedInv_unmoved h hs (h.run_step hc hdb) (h.shows.congr hcount hrows hbits) ?_ rfl
        rfl rfl h.failed ?_ hwrite
      · intro tbl pid
        show db.count tbl pid ≤ _
        rw [hcount]
        exact h.room tbl pid
      · rintro chunk x heq
        rw [heq] at ha
        exact ha rfl

end Transactions

/-! ## Runs -/

theorem storedInv_init (h : s.Init schemas) : StoredInv schemas s := by
  obtain ⟨-, -, htxns, hversions, -⟩ := id h.db
  refine ⟨⟨s.db, h.db, .refl⟩, h.schema, shows_of_view h.view, h.room, ?_, ?_, ?_, ?_, h.failed⟩
  · intro name c hc
    rw [h.placed] at hc
    cases hc
  · intro name other c d _ hc
    rw [h.placed] at hc
    cases hc
  · intro t chunk x rec pc hctl
    rw [htxns] at hctl
    cases hctl
  · intro x p hp
    rw [hversions] at hp
    cases hp

theorem storedInv_step {a : StoredAction} (h : StoredInv schemas s) (hc : s.Regular schemas a)
    (hstep : s.step schemas a = some s') : StoredInv schemas s' := by
  cases a with
  | make n c => exact storedInv_make h hc hstep
  | fill n oid value => exact storedInv_fill h hc.1 hc.2 hstep
  | insert t tbl pid n => exact storedInv_insert h hc.1 hc.2 hstep
  | update t x n delta => exact storedInv_update h hc hstep
  | select t x n => exact storedInv_select h hc.1 hc.2.1 hc.2.2 hstep
  | other a => exact storedInv_other h hc hstep

theorem storedInv_reachable (hr : (storedSystem schemas).ReachableBy (Regular schemas) s) :
    StoredInv schemas s :=
  hr.invariant (fun _ => storedInv_init) fun _ _ _ h hc hstep => storedInv_step h hc hstep

end StoredDb

/-- A run in bytes is a run of the transactions on rows: no exception and no failed assertion, and
pages, chunks and before-images hold what is there. `SelectIntoChunk` on the bytes answers what it
answers there. -/
theorem stored_refines {schemas : Nat → PageSchema} {s : StoredDb}
    (hr : (storedSystem schemas).ReachableBy (StoredDb.Regular schemas) s) :
    txnSystem.ReachableBy (Db.HandsOutBelow signBit) s.db ∧ s.view schemas = s.db ∧
      s.failed = none ∧
      ∀ t x n c, s.placed (.caller n) = some c → c.Of (schemas x.tbl) →
        x.idx < (schemas x.tbl).layout.maxRowCount.toNat →
        ∃ m', s.selectIntoChunk schemas t x c.address =
            .ok ((s.db.selectIntoChunk (s.db.txns t) x (c.contents s.mem)).1, m') ∧
          c.Becomes s.mem m' (s.db.selectIntoChunk (s.db.txns t) x (c.contents s.mem)).2 := by
  have h := StoredDb.storedInv_reachable hr
  exact ⟨h.run, StoredDb.view_eq h.shows, h.failed, fun t x n c hc hof hx =>
    StoredDb.selectIntoChunk_eq h t hc hof hx⟩

namespace StoredDb

/-! ## The steps of the transactions, in bytes -/

section Lift

variable {schemas : Nat → PageSchema} {s s' : StoredDb} {db : Db} {path : Slot → Bool}
  {t : TxnId} {x : Slot}

theorem ok_of_orFail {α : Type} {r : Except String α} {next : α → StoredDb}
    (h : (s.orFail r next).failed = none) :
    ∃ v, s.orFail r next = next v := by
  cases r with
  | ok v => exact ⟨v, rfl⟩
  | error e => cases h

theorem StoredInv.steps (h : StoredInv schemas s)
    (hr : (storedSystem schemas).Steps (Orderly schemas path) s s') :
    StoredInv schemas s' :=
  hr.invariant (fun _ _ _ h hc hstep => storedInv_step h hc.1 hstep) h

/-- A step that takes no chunk. -/
def Chunkless (path : Slot → Bool) (s : Db) (a : Action) : Prop :=
  Db.HandsOutBelow signBit s a ∧ Db.OnePath path a ∧ a.takesChunk = false

instance (path : Slot → Bool) (s : Db) (a : Action) : Decidable (Chunkless path s a) :=
  inferInstanceAs (Decidable (_ ∧ _))

theorem Chunkless.orderly {a : Action} (hc : Chunkless path s.db a) :
    s.Orderly schemas path (.other a) :=
  ⟨hc.1, fun _ hb => Option.some.inj hb ▸ hc.2.1⟩

theorem other_step {a : Action} (h : StoredInv schemas s) (hc : Chunkless path s.db a)
    (hdb : s.db.step a = some db) :
    ∃ s', s.step schemas (.other a) = some s' ∧ s'.db = db ∧ s'.placed = s.placed := by
  have hstep : s.step schemas (.other a) = some (s.orFail (s.writeBytes schemas a) fun written =>
      { s with db := db, page := written.1, mem := written.2 }) := by
    simp only [step, hc.2.2, Bool.false_eq_true, if_false, view_eq h.shows, hdb, Option.map_some]
  obtain ⟨v, hok⟩ := ok_of_orFail (storedInv_other h hc.1 hstep).failed
  rw [hok] at hstep
  exact ⟨_, hstep, rfl, rfl⟩

/-- Every run of the transactions without chunks is one in bytes. -/
theorem others_run {as : List Action} (h : StoredInv schemas s)
    (hexec : txnSystem.exec (Chunkless path) s.db as = some db) :
    ∃ s', (storedSystem schemas).Steps (Orderly schemas path) s s' ∧ s'.db = db ∧
      s'.placed = s.placed := by
  induction as generalizing s with
  | nil => exact ⟨s, .refl, Option.some.inj hexec, rfl⟩
  | cons a as ih =>
      simp only [TSys.exec, Option.ite_none_right_eq_some] at hexec
      obtain ⟨hc, hexec⟩ := hexec
      obtain ⟨db₁, hdb, hrest⟩ := Option.bind_eq_some_iff.mp hexec
      obtain ⟨s₁, hstep, rfl, hplaced⟩ := other_step h hc hdb
      obtain ⟨s', hsteps, hdb', hplaced'⟩ := ih (storedInv_other h hc.1 hstep) hrest
      exact ⟨s', (TSys.Steps.single hc.orderly hstep).trans hsteps, hdb', hplaced'.trans hplaced⟩

/-- A transaction begins. -/
theorem begin_steps (h : StoredInv schemas s) (hidle : (s.db.txns t).ctl = .idle)
    (htime : s.db.time < signBit) :
    (storedSystem schemas).Steps (Orderly schemas path) s { s with db := s.db.beginAlone t } := by
  have hbegin :
      s.step schemas (.other (.begin t)) = some { s with db := s.db.beginTransaction t } := by
    simp only [step, Action.takesChunk, Bool.false_eq_true, if_false, view_eq h.shows, Db.step,
      hidle, if_true,
      Option.map_some]
    rfl
  have hfirst :
      (storedSystem schemas).Steps (Orderly schemas path) s
      { s with db := s.db.beginTransaction t } :=
    .single (a := .other (.begin t)) (Chunkless.orderly ⟨fun _ => htime, trivial, rfl⟩) hbegin
  refine hfirst.tail (a := .other (.spin t))
    (Chunkless.orderly ⟨fun hout => (by cases hout), trivial, rfl⟩) ?_
  have hctl : ((s.db.beginTransaction t).txns t).ctl = .spinning := by simp
  simp only [storedSystem, step, Action.takesChunk, Bool.false_eq_true, if_false,
    view_eq (h.steps hfirst).shows, Db.step,
    hctl, if_true, Option.map_some]
  rfl

/-- An update is called: its record gets a delta. -/
theorem update_step {n delta : Nat} {c : PlacedChunk} (h : StoredInv schemas s)
    (hc : s.placed (.caller n) = some c) (hal : 8 ∣ delta) (hactive : (s.db.txns t).ctl = .active)
    (halloc : x.idx < s.db.count x.tbl x.pid)
    (hlatch : s.db.latch x.tbl x.pid = none) :
    ∃ held mem, s.step schemas (.update t x n delta) = some { s with
      db := s.db.startWrite t (.update (c.contents s.mem)) x
      held := held
      placed := update s.placed (.delta ⟨t, (s.db.txns t).undo.length⟩) (some (c.moved delta hal))
      mem := mem } := by
  refine ⟨update s.held t n,
    s.mem.write delta (s.mem.read c.address (RawChunk.headerSize s.mem c.address).toNat), ?_⟩
  simp only [step, hal, dite_true, hc, view_eq h.shows, Db.step, hactive, halloc, hlatch,
    implies_true, and_self, if_true,
    Option.bind_eq_bind, Option.bind_some]

end Lift

end StoredDb

/-! ## A run with an insert, an update and a delete -/

section Sample

/-- A table with one `INTEGER` column. -/
def PageSchema.integers : PageSchema where
  columns := [1]
  nodup := List.nodup_singleton 1
  sizes := [4]
  length_sizes := rfl
  typed := by simp [PaxLayout.TypeSize]
  padding := by decide
  small := by decide

/-- A chunk with its column. -/
def PlacedChunk.integer : PlacedChunk where
  address := 64
  columns := [(1, 4)]
  fits := ⟨by simp [ChunkColumns.Typed, PaxLayout.TypeSize], by decide⟩
  nodup := by decide
  aligned := by decide

theorem PlacedChunk.integer_of : PlacedChunk.integer.Of PageSchema.integers := by
  intro f hf
  obtain rfl := List.mem_singleton.mp hf
  exact ⟨_, rfl, rfl⟩

namespace StoredDb

/-- Two rows on every page, and a memory that holds nines. -/
def twoRows : StoredDb where
  db := {
    time := initialTxnTimestamp
    commitLatch := 0
    txns := fun _ => ⟨.idle, 0, 0, [], []⟩
    versions := fun _ => []
    schema := fun _ => PageSchema.integers.toSchema
    count := fun _ _ => 2
    rows := fun x => PageSchema.integers.rowAt (fun a => byte (if a = 0 then 2 else 0))
      (UInt32.ofNat x.idx)
    deletedBit :=
      fun x => PaxLayout.isDeleted (fun a => byte (if a = 0 then 2 else 0)) (UInt32.ofNat x.idx)
    latch := fun _ _ => none }
  page := fun _ _ a => byte (if a = 0 then 2 else 0)
  mem := fun _ => byte 9
  placed := fun _ => none
  held := fun _ => 0
  failed := none

theorem init_twoRows : twoRows.Init fun _ => PageSchema.integers where
  db := ⟨rfl, rfl, fun _ => rfl, fun _ => rfl, fun _ _ => rfl⟩
  view := by
    refine Db.ext rfl rfl rfl rfl rfl ?_ ?_ ?_ rfl
    · funext tbl pid
      rfl
    · funext x
      exact ite_self _
    · funext x
      exact ite_self _
  schema _ := rfl
  room _ _ := (by decide : 2 ≤ PageSchema.integers.layout.maxRowCount.toNat)
  placed _ := rfl
  failed := rfl

/-- A caller has made a chunk. -/
def withChunk : StoredDb :=
  { twoRows with
    placed := update twoRows.placed (.caller 0) (some PlacedChunk.integer)
    mem := (PlacedChunk.integer.columns.layout twoRows.mem).createDataChunk twoRows.mem
      PlacedChunk.integer.address }

/-- Transactions 0 and 1 have begun. -/
def begun : StoredDb := { withChunk with db := (withChunk.db.beginAlone 0).beginAlone 1 }

/-- Transaction 1 has inserted a row, and has called the update of the first one. -/
def updating : Db :=
  (begun.db.insertTuple 1 0 1 (PlacedChunk.integer.contents begun.mem)).startWrite 1
    (.update (PlacedChunk.integer.contents begun.mem)) ⟨0, 1, 0⟩

/-- It updates the row, deletes the second one and commits. -/
def updateDeleteCommit : List Action :=
  List.replicate 5 (.run 1) ++ [.write 1 .delete ⟨0, 1, 1⟩] ++ List.replicate 4
    (.run 1) ++ [.commit 1] ++
    List.replicate 5 (.run 1)

theorem updateDeleteCommit_isSome :
    (txnSystem.exec (Chunkless fun _ => true) updating updateDeleteCommit).isSome = true := by
  decide +kernel

/-- The database then. -/
def written : Db :=
  (txnSystem.exec (Chunkless fun _ => true) updating updateDeleteCommit).get
    updateDeleteCommit_isSome

theorem begun_steps : (storedSystem fun _ => PageSchema.integers).Steps
    (Orderly (fun _ => PageSchema.integers) fun _ => true) twoRows begun := by
  have hfresh : twoRows.Fresh PlacedChunk.integer := fun _ _ hd => by cases hd
  have hmade : (storedSystem fun _ => PageSchema.integers).Steps
      (Orderly (fun _ => PageSchema.integers) fun _ => true) twoRows withChunk :=
    .single (a := .make 0 PlacedChunk.integer) ⟨hfresh, fun b hb => by cases hb⟩ rfl
  have hinv := (storedInv_init init_twoRows).steps hmade
  have hfirst := hmade.trans (begin_steps (t := 0) hinv rfl (by decide))
  exact hfirst.trans (begin_steps (t := 1) ((storedInv_init init_twoRows).steps hfirst)
    rfl (by decide))

/-- A chunk that is apart from the new one and those before. -/
theorem fresh_update {s : StoredDb} {placed : ChunkName → Option PlacedChunk} {name : ChunkName}
    {c d : PlacedChunk} (hplaced : s.placed = update placed name (some d)) (hd : c.Apart d)
    (hothers : ∀ name d, placed name = some d → c.Apart d) : s.Fresh c := by
  intro other e he
  rw [hplaced] at he
  by_cases hother : other = name
  · rw [hother, update_self] at he
    exact Option.some.inj he ▸ hd
  · rw [update_of_ne hother] at he
    exact hothers other e he

theorem inserted_steps : ∃ s, (storedSystem fun _ => PageSchema.integers).Steps
    (Orderly (fun _ => PageSchema.integers) fun _ => true) twoRows s ∧
      s.db = begun.db.insertTuple 1 0 1 (PlacedChunk.integer.contents begun.mem) ∧
        s.mem = begun.mem ∧
      s.placed = begun.placed := by
  have hinv := (storedInv_init init_twoRows).steps begun_steps
  have hplaced : begun.placed (.caller 0) = some PlacedChunk.integer := rfl
  have hroom : (PaxLayout.headerCount (begun.page 0 1)).toNat + 1 <
      PageSchema.integers.layout.maxRowCount.toNat := by
    decide
  obtain ⟨page, hinsert, -⟩ :=
    insert_step (t := 1) hinv hplaced PlacedChunk.integer_of hroom rfl rfl
  refine ⟨_, begun_steps.tail (a := .insert 1 0 1 0) ⟨⟨hroom, fun c hc => ?_⟩, fun b hb => ?_⟩
    hinsert, rfl, rfl, rfl⟩
  · exact Option.some.inj (hplaced.symm.trans hc) ▸ PlacedChunk.integer_of
  · obtain rfl := Option.some.inj hb
    trivial

theorem updating_steps : ∃ s, (storedSystem fun _ => PageSchema.integers).Steps
    (Orderly (fun _ => PageSchema.integers) fun _ => true) twoRows s ∧ s.db = updating ∧
      s.placed = update begun.placed (.delta ⟨1, 1⟩)
      (some (PlacedChunk.integer.moved 128 (by decide))) := by
  obtain ⟨s, hsteps, hdb, hmem, hplaced⟩ := inserted_steps
  have hchunk : s.placed (.caller 0) = some PlacedChunk.integer := by rw [hplaced]; rfl
  have hapart : (PlacedChunk.integer.moved 128 (by decide)).Apart PlacedChunk.integer :=
    .inr (by decide)
  have hfresh : s.Fresh (PlacedChunk.integer.moved 128 (by decide)) :=
    fresh_update hplaced hapart fun _ _ hd => by cases hd
  have halloc :
      0 < (begun.db.insertTuple 1 0 1 (PlacedChunk.integer.contents begun.mem)).count 0 1 := by
      decide
  obtain ⟨held, mem, hupdate⟩ := update_step (t := 1) (x := ⟨0, 1, 0⟩)
    ((storedInv_init init_twoRows).steps hsteps) hchunk (by decide : 8 ∣ 128) (by rw [hdb]; rfl)
    (by rw [hdb]; exact halloc) (by rw [hdb]; rfl)
  refine ⟨_, hsteps.tail (a := .update 1 ⟨0, 1, 0⟩ 0 128) ⟨fun c hal hc => ?_, fun b hb => ?_⟩
    hupdate, ?_, ?_⟩
  · obtain rfl := Option.some.inj (hchunk.symm.trans hc)
    exact ⟨PlacedChunk.integer_of, hfresh⟩
  · simp only [dbAction, hchunk, Option.map_some, Option.some.injEq] at hb
    subst hb
    rfl
  · show s.db.startWrite 1 (.update (PlacedChunk.integer.contents s.mem)) ⟨0, 1, 0⟩ = updating
    rw [hdb, hmem]
    rfl
  · show update s.placed (.delta ⟨1, (s.db.txns 1).undo.length⟩) _ = _
    rw [hdb, hplaced]
    rfl

/-- In bytes, with a chunk for a reader. -/
theorem written_steps : ∃ s, (storedSystem fun _ => PageSchema.integers).Steps
    (Orderly (fun _ => PageSchema.integers) fun _ => true) twoRows s ∧ s.db = written ∧
      s.placed (.caller 1) = some (PlacedChunk.integer.moved 192 (by decide)) := by
  obtain ⟨s, hsteps, hdb, hplaced⟩ := updating_steps
  have hexec : txnSystem.exec (Chunkless fun _ => true) s.db updateDeleteCommit = some written := by
    rw [hdb]
    exact (Option.some_get _).symm
  obtain ⟨s', hrest, hdb', hplaced'⟩ :=
    others_run ((storedInv_init init_twoRows).steps hsteps) hexec
  have hfresh : s'.Fresh (PlacedChunk.integer.moved 192 (by decide)) := by
    refine fresh_update (hplaced'.trans hplaced) (.inr (by decide)) fun name d hd => ?_
    by_cases hname : name = .caller 0
    · rw [hname] at hd
      obtain rfl : PlacedChunk.integer = d := Option.some.inj hd
      exact .inr (by decide)
    · have hnone : begun.placed name = none := update_of_ne hname ..
      rw [hnone] at hd
      cases hd
  have hfree : (s'.placed (.caller 1)).isNone := by
    rw [hplaced', hplaced]
    rfl
  refine ⟨_, (hsteps.trans hrest).tail (a := .make 1 (PlacedChunk.integer.moved 192 (by decide)))
    ⟨hfresh, fun b hb => by cases hb⟩ (if_pos hfree), hdb', ?_⟩
  show update s'.placed (.caller 1) _ (.caller 1) = _
  exact update_self ..

/-- Transaction 0 is to be told what was there before the update. -/
theorem written_select (v : Value) :
    written.selectIntoChunk (written.txns 0) ⟨0, 1, 0⟩ [(1, v)] = (.visible, [(1, [0, 0, 0, 0])]) :=
  rfl

theorem written_rows : written.rows ⟨0, 1, 0⟩ 0 = [9, 9, 9, 9] ∧
      written.deletedBit ⟨0, 1, 1⟩ = true ∧
    (written.txns 1).ctl = .committed 2 := by
  decide +kernel

end StoredDb

end Sample

/-- Transaction 0 reads the old value of a row from the bytes of page and delta: another transaction
has inserted a row, updated this one, deleted a third and committed. -/
theorem stored_refines_merged : ∃ (s : StoredDb) (m : Mem), s.db.count 0 1 = 3 ∧
      s.db.rows ⟨0, 1, 0⟩ 0 = [9, 9, 9, 9] ∧
    s.db.deletedBit ⟨0, 1, 1⟩ = true ∧
    s.selectIntoChunk (fun _ => PageSchema.integers) 0 ⟨0, 1, 0⟩ 192 = .ok (.visible, m) ∧
    (PlacedChunk.integer.moved 192 (by decide)).contents m = [(1, [0, 0, 0, 0])] := by
  obtain ⟨s, hsteps, hdb, hplaced⟩ := StoredDb.written_steps
  have hcount : StoredDb.written.count 0 1 = 3 := by decide +kernel
  obtain ⟨hrow, hbit, -⟩ := StoredDb.written_rows
  obtain ⟨-, -, -, hreads⟩ :=
    stored_refines ⟨_, StoredDb.init_twoRows, hsteps.mono fun _ _ hc => hc.1⟩
  obtain ⟨m, hread, hbecomes⟩ := hreads 0 ⟨0, 1, 0⟩ 1 _ hplaced PlacedChunk.integer_of (by decide)
  obtain ⟨v, hv⟩ : ∃ v, (PlacedChunk.integer.moved 192 (by decide)).contents s.mem = [(1, v)] :=
    ⟨_, rfl⟩
  rw [hdb, hv, StoredDb.written_select] at hread hbecomes
  exact ⟨s, m, by rw [hdb, hcount], by rw [hdb, hrow], by rw [hdb, hbit], hread, hbecomes.contents⟩

end Db7
