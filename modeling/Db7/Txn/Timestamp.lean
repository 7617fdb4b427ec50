import Mathlib.Logic.Function.Basic
import Mathlib.Algebra.Group.Nat.Defs

/-!
# Timestamps

`timestamp_t` is a `u64` drawn from one atomic counter. The top bit marks a
version that is not committed: a transaction stamps its records with its start
time plus `INT64_MIN`, and with a plain counter value once it commits. The
counter is kept as a natural number and every increment wraps explicitly.
-/

namespace Db7

/-- Unsigned 64-bit wrap-around. -/
def u64 (n : Nat) : Nat := n % 2 ^ 64

/-- `x--` on a `u64`. -/
def u64Pred (n : Nat) : Nat := if n = 0 then 2 ^ 64 - 1 else n - 1

/-- `INT64_MIN` read as a `u64`, which is also `INVALID_TXN_TIMESTAMP`. -/
def signBit : Nat := 2 ^ 63

/-- `INITIAL_TXN_TIMESTAMP`. -/
def initialTxnTimestamp : Nat := 0

/-- `TimestampManager::CheckOutTimestamp`, `time_++`: the value handed out and
the new value of the counter. -/
def checkOutTimestamp (time : Nat) : Nat × Nat := (time, u64 (time + 1))

/-- The finish time `BeginTransaction` gives a context, `start_time + INT64_MIN`. -/
def finishTimeOf (start : Nat) : Nat := u64 (start + signBit)

/-! ## `TransactionUtil` -/

/-- `static_cast<i64>(timestamp) >= 0`: the top bit is clear. -/
def isCommitted (timestamp : Nat) : Bool := timestamp < signBit

/-- `IsNewerThan`. -/
def isNewerThan (a b : Nat) : Bool := a > b

/-- `TransactionUtil::HasConflict`: the version belongs to another transaction
that has not committed, or was committed after we started. -/
def hasConflictTs (versionTimestamp txnId startTime : Nat) : Bool :=
  let ownedByOtherTxn := !isCommitted versionTimestamp && versionTimestamp != txnId
  let newerCommittedVersion :=
    isCommitted versionTimestamp && isNewerThan versionTimestamp startTime
  ownedByOtherTxn || newerCommittedVersion

theorem u64_of_lt {n : Nat} (h : n < 2 ^ 64) : u64 n = n := Nat.mod_eq_of_lt h

theorem isCommitted_of_lt {ts : Nat} (h : ts < signBit) : isCommitted ts = true := by
  simpa [isCommitted] using h

theorem finishTimeOf_eq {start : Nat} (h : start < signBit) :
    finishTimeOf start = start + signBit := by
  simp only [signBit] at h
  exact u64_of_lt (by simp only [signBit]; omega)

/-- Below the top bit, a finish time is never read as committed. -/
theorem isCommitted_finishTimeOf {start : Nat} (h : start < signBit) :
    isCommitted (finishTimeOf start) = false := by
  rw [finishTimeOf_eq h]
  simp [isCommitted]

theorem finishTimeOf_inj {a b : Nat} (ha : a < signBit) (hb : b < signBit)
    (h : finishTimeOf a = finishTimeOf b) : a = b := by
  rw [finishTimeOf_eq ha, finishTimeOf_eq hb] at h
  omega

/-- A version without conflict is the transaction's own or was committed at or
before its start. -/
theorem hasConflictTs_eq_false {ts txnId start : Nat} :
    hasConflictTs ts txnId start = false ↔
      (isCommitted ts = false → ts = txnId) ∧ (isCommitted ts = true → ts ≤ start) := by
  cases h : isCommitted ts <;> simp [hasConflictTs, isNewerThan, h]

/-- A transaction does not conflict with itself. -/
theorem hasConflictTs_own {start : Nat} (h : start < 2 ^ 64) :
    hasConflictTs (finishTimeOf start) (finishTimeOf start) start = false := by
  rw [hasConflictTs_eq_false]
  refine ⟨fun _ => rfl, fun hcommitted => ?_⟩
  -- the counter has passed the top bit
  have hlt : (start + 2 ^ 63) % 2 ^ 64 < 2 ^ 63 := of_decide_eq_true hcommitted
  show (start + 2 ^ 63) % 2 ^ 64 ≤ start
  omega

end Db7
