import Mathlib.Data.Finset.Card
import Mathlib.Logic.Function.Basic
import Mathlib.Tactic.Common

/-! The data a `Metadata` object and a `Reservation` handle hold. Arrays are functions of the
index: an access outside the array is undefined behaviour and is excluded where it is made. -/
namespace PStress.Metadata

/-- `limits::maximum_table_count`. -/
def maximumTableCount : Nat := 200

/-- `Metadata::npos`, the largest 64-bit `std::size_t`. -/
def npos : Nat := 18446744073709551615

/-- `n - 1` of `std::size_t`, which wraps around at zero. Counters are never so large that `n + 1`
wraps: a counter exceeds the capacity by at most one for each handle in memory. -/
def decrement (n : Nat) : Nat := if n = 0 then npos else n - 1

@[simp] theorem decrement_succ (n : Nat) : decrement (n + 1) = n := by simp [decrement]

theorem decrement_of_pos {n : Nat} (h : 0 < n) : decrement n = n - 1 := if_neg h.ne'

theorem decrement_ne (n : Nat) : decrement n ≠ n := by
  cases n with
  | zero => decide
  | succ n => simp

theorem maximumTableCount_lt_npos : maximumTableCount < npos := by decide

/-- A `shared_ptr<Table>`. The identity tells tables apart: `make_shared<Table>()` takes a new
one, and a copy of a table made for an ALTER keeps it. -/
structure TablePtr (V : Type) where
  id : Nat
  value : V
  deriving DecidableEq, Repr

/-- A `std::shared_mutex`: the handle that owns it, and those that share it. -/
structure SharedMutex (ι : Type) where
  writer : Option ι
  readers : Finset ι

variable {ι V : Type}

def SharedMutex.free (m : SharedMutex ι) : Bool := m.writer.isNone && m.readers.card == 0

/-- `Metadata::InternalData`; `nextTable` is the identity of the next table made. -/
structure InternalData (ι V : Type) where
  tables : Nat → Option (TablePtr V)
  tableLocks : Nat → SharedMutex ι
  movedToMap : Nat → Nat
  tableCount : Nat
  reservedSize : Nat
  nextTable : Nat

namespace InternalData

@[simps -fullyApplied]
def store (d : InternalData ι V) (k : Nat) (p : Option (TablePtr V)) : InternalData ι V :=
  { d with tables := Function.update d.tables k p }

/-- Handle `i` takes `tableLocks[k]` for itself. -/
@[simps -fullyApplied]
def lock (d : InternalData ι V) (k : Nat) (i : ι) : InternalData ι V :=
  { d with tableLocks := Function.update d.tableLocks k ⟨some i, (d.tableLocks k).readers⟩ }

@[simps -fullyApplied]
def unlock (d : InternalData ι V) (k : Nat) : InternalData ι V :=
  { d with tableLocks := Function.update d.tableLocks k ⟨none, (d.tableLocks k).readers⟩ }

@[simps -fullyApplied]
def lockShared [DecidableEq ι] (d : InternalData ι V) (k : Nat) (i : ι) : InternalData ι V :=
  { d with
    tableLocks := Function.update d.tableLocks k
      ⟨(d.tableLocks k).writer, insert i (d.tableLocks k).readers⟩ }

@[simps -fullyApplied]
def unlockShared [DecidableEq ι] (d : InternalData ι V) (k : Nat) (i : ι) : InternalData ι V :=
  { d with
    tableLocks := Function.update d.tableLocks k
      ⟨(d.tableLocks k).writer, (d.tableLocks k).readers.erase i⟩ }

/-- `movedToMap[k] = v`. -/
@[simps -fullyApplied]
def setMoved (d : InternalData ι V) (k v : Nat) : InternalData ι V :=
  { d with movedToMap := Function.update d.movedToMap k v }

@[simps -fullyApplied]
def setTableCount (d : InternalData ι V) (n : Nat) : InternalData ι V :=
  { d with tableCount := n }

@[simps -fullyApplied]
def setReservedSize (d : InternalData ι V) (n : Nat) : InternalData ι V :=
  { d with reservedSize := n }

/-- The state after `++reservedSize` was granted and `make_shared<Table>()` made the table. -/
@[simps -fullyApplied]
def grant (d : InternalData ι V) (n : Nat) : InternalData ι V :=
  { d with reservedSize := n, nextTable := d.nextTable + 1 }

/-- A mutex passes to another handle together with the `unique_lock` that owns it. -/
def handOver (d : InternalData ι V) : Option Nat → ι → InternalData ι V
  | none, _ => d
  | some k, j => d.lock k j

theorem unlock_lock (d : InternalData ι V) (k : Nat) (i : ι) :
    (d.lock k i).unlock k = d.unlock k := by
  simp [lock, unlock]

theorem unlock_free {d : InternalData ι V} {k : Nat} (h : (d.tableLocks k).writer = none) :
    d.unlock k = d := by
  have hsame : (⟨none, (d.tableLocks k).readers⟩ : SharedMutex ι) = d.tableLocks k := by rw [← h]
  simp [unlock, hsame]

theorem unlock_lock_of_ne (d : InternalData ι V) {k l : Nat} (hkl : k ≠ l) (i : ι) :
    (d.lock l i).unlock k = (d.unlock k).lock l i := by
  simp [lock, unlock, hkl, hkl.symm, Function.update_comm hkl]

/-- `Metadata::Metadata()`: no tables, no locks, and every entry of `movedToMap` is `npos`. -/
def initial : InternalData ι V := ⟨fun _ => none, fun _ => ⟨none, ∅⟩, fun _ => npos, 0, 0, 0⟩

end InternalData

/-- A container without gaps: distinct tables in slots `0..length-1`, room for all of them, and
any entries in `movedToMap`. -/
structure GapFree (V : Type) where
  tables : List (TablePtr V)
  movedToMap : Nat → Nat
  nextTable : Nat
  fits : tables.length ≤ maximumTableCount
  distinct : (tables.map TablePtr.id).Nodup
  older : ∀ p ∈ tables, p.id < nextTable

namespace GapFree

/-- The object's data while no reservation is open. -/
def data (g : GapFree V) : InternalData ι V :=
  ⟨fun k => g.tables[k]?, fun _ => ⟨none, ∅⟩, g.movedToMap, g.tables.length, g.tables.length,
    g.nextTable⟩

def empty : GapFree V := ⟨[], fun _ => npos, 0, Nat.zero_le _, .nil, by simp⟩

private theorem empty_data :
    (empty : GapFree V).data = (InternalData.initial : InternalData ι V) := by
  simp [data, empty, InternalData.initial]

end GapFree

def pair : GapFree Nat where
  tables := [⟨0, 10⟩, ⟨1, 11⟩]
  movedToMap _ := npos
  nextTable := 2
  fits := by decide
  distinct := by decide
  older := by decide

/-- `Metadata::Reservation`: `storage` says whether `storage_` is set, `lock` is the slot whose
mutex `lock_` owns. -/
structure Reservation (V : Type) where
  storage : Bool
  table : Option (TablePtr V)
  drop : Bool
  index : Nat
  lock : Option Nat
  deriving DecidableEq, Repr

namespace Reservation

def closed : Reservation V := ⟨false, none, false, npos, none⟩

/-- `Reservation::open()`. -/
def isOpen (r : Reservation V) : Bool := r.storage && (r.lock.isSome || r.index == npos)

def movedFrom (r : Reservation V) : Reservation V := ⟨false, none, r.drop, npos, none⟩

def cancelled (r : Reservation V) : Reservation V :=
  { r with storage := false, table := none, index := npos, lock := none }

/-- An edit through `table()`; the handle owns the table it edits. -/
@[simps -fullyApplied]
def edit (r : Reservation V) (f : V → V) : Reservation V :=
  { r with table := r.table.map fun p => ⟨p.id, f p.value⟩ }

/-- A handle that owns nothing: never granted, completed, cancelled or moved from. -/
def Settled (r : Reservation V) : Prop := r.lock = none ∧ (r.storage = false ∨ r.index ≠ npos)

/-- An open CREATE: a place is reserved, no slot is chosen yet. -/
def Creating (r : Reservation V) : Prop :=
  r.storage = true ∧ r.drop = false ∧ r.index = npos ∧ r.lock = none ∧ r.table.isSome

/-- An open ALTER or DROP: the handle owns the mutex of its slot. -/
def Holding (drop : Bool) (r : Reservation V) : Prop :=
  r.storage = true ∧ r.drop = drop ∧ r.lock = some r.index ∧ r.index < maximumTableCount ∧
    r.table.isSome

theorem settled_closed : (closed : Reservation V).Settled := ⟨rfl, .inl rfl⟩

theorem settled_cancelled (r : Reservation V) : r.cancelled.Settled := ⟨rfl, .inl rfl⟩

theorem settled_movedFrom (r : Reservation V) : r.movedFrom.Settled := ⟨rfl, .inl rfl⟩

theorem Settled.not_open {r : Reservation V} (h : r.Settled) : r.isOpen = false := by
  obtain ⟨hl, hs | hi⟩ := h <;> simp [isOpen, *]

theorem Settled.not_holding {r : Reservation V} (h : r.Settled) {b : Bool} : ¬ r.Holding b := by
  intro hb
  cases hb.2.2.1.symm.trans h.1

theorem Creating.isOpen {r : Reservation V} (h : r.Creating) : r.isOpen = true := by
  obtain ⟨hs, _, hi, _, _⟩ := h
  simp [Reservation.isOpen, hs, hi]

theorem Holding.isOpen {r : Reservation V} {b : Bool} (h : r.Holding b) : r.isOpen = true := by
  obtain ⟨hs, _, hl, _, _⟩ := h
  simp [Reservation.isOpen, hs, hl]

theorem Holding.index_ne {r : Reservation V} {b : Bool} (h : r.Holding b) : r.index ≠ npos :=
  (h.2.2.2.1.trans maximumTableCount_lt_npos).ne

end Reservation
end PStress.Metadata
