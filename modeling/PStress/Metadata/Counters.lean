import PStress.Interleaving.Totals
import PStress.Metadata.Handles

/-! What one step of a handle does to the two counters and to the number of filled slots. -/
namespace PStress.Metadata
open Interleaving
variable {ι V : Type}

def Thread.creates (t : Thread V) : Nat :=
  if t.res.storage = true ∧ t.res.index = npos then 1 else 0

/-- `createTable` incremented `reservedSize` past the maximum and has yet to undo it. -/
@[simp] def Thread.refused (t : Thread V) : Nat := match t.pc with | .unreserve => 1 | _ => 0

/-- DROP decremented `tableCount` and has yet to decrement `reservedSize`. -/
@[simp] def Thread.halfDropped (t : Thread V) : Nat :=
  match t.pc with | .dropReserved | .moveReserved _ => 1 | _ => 0

/-- DROP removed its table from the slots and has yet to decrement `tableCount`. -/
@[simp] def Thread.removing (t : Thread V) : Nat :=
  match t.pc with | .dropCount | .moveUnlock _ | .moveCount _ => 1 | _ => 0

/-- A slot is filled that `tableCount` does not stand for: by a CREATE before its increment, or
by the item a DROP moved away and has yet to clear. -/
@[simp] def Thread.unaccounted (t : Thread V) : Nat :=
  match t.pc with
  | .innerCount .. | .moveUnlock _ | .moveCount _ | .moveReserved _ | .moveClear _ => 1
  | _ => 0

/-- What a handle has put on `reservedSize` beyond `tableCount`. -/
@[simp] def Thread.owes (t : Thread V) : Nat := t.creates + t.refused + t.halfDropped

def filled (p : Option (TablePtr V)) : Nat := if p.isSome then 1 else 0

def InternalData.occupied (d : InternalData ι V) : Nat :=
  total (Finset.range maximumTableCount) filled d.tables

private theorem occupied_store (d : InternalData ι V) {k : Nat} (hk : k < maximumTableCount)
    (p : Option (TablePtr V)) :
    (d.store k p).occupied + filled (d.tables k) = d.occupied + filled p :=
  total_update filled d.tables (Finset.mem_range.mpr hk) p

/-- The balance of one step of one handle. -/
structure Balanced (d d' : InternalData ι V) (t t' : Thread V) : Prop where
  reserved : d'.reservedSize + d.tableCount + t.owes = d.reservedSize + d'.tableCount + t'.owes
  bound : d'.tableCount + t'.creates ≤ d.tableCount + t.creates ∨
    d'.tableCount = d.tableCount ∧ d'.reservedSize ≤ maximumTableCount
  slots : d'.occupied + t'.removing + d.tableCount + t.unaccounted ≤
    d.occupied + t.removing + d'.tableCount + t'.unaccounted

theorem creates_settled {r : Reservation V} {pc : Pc V} (h : r.Settled) :
    Thread.creates ⟨r, pc⟩ = 0 := by
  obtain ⟨_, hs | hi⟩ := h <;> simp [Thread.creates, *]

theorem creates_creating {r : Reservation V} {pc : Pc V} (h : r.Creating) :
    Thread.creates ⟨r, pc⟩ = 1 := by
  simp [Thread.creates, h.1, h.2.2.1]

theorem creates_holding {r : Reservation V} {pc : Pc V} {k : Bool} (h : r.Holding k) :
    Thread.creates ⟨r, pc⟩ = 0 := by
  simp [Thread.creates, h.index_ne]

theorem Backed.filled {d : InternalData ι V} {r : Reservation V} (h : Backed d r) :
    filled (d.tables r.index) = 1 := by
  obtain ⟨_, q, _, hq, _⟩ := h
  simp [Metadata.filled, hq]

variable [DecidableEq ι] [Inhabited V]

private theorem tick_balanced {i : ι} {d d' : InternalData ι V} {r : Reservation V} {pc : Pc V}
    {t' : Thread V} (h : tick i d r pc = some (d', t')) (ho : PcOk d r pc)
    (hr : Thread.owes ⟨r, pc⟩ ≤ d.reservedSize) (hc : Thread.removing ⟨r, pc⟩ ≤ d.tableCount) :
    Balanced d d' ⟨r, pc⟩ t' := by
  cases pc with
  | idle | undefined => cases h
  | reserve =>
    have hs (pc) : Thread.creates ⟨r, pc⟩ = 0 := creates_settled ho
    simp only [tick] at h
    split at h <;> cases h
    · constructor <;> simp [InternalData.occupied, hs]
      omega
    · have hnew : Thread.creates (V := V)
          ⟨⟨true, some ⟨d.nextTable, default⟩, false, npos, none⟩, .idle⟩ = 1 := by
        simp [Thread.creates]
      constructor <;> simp [InternalData.occupied, hs, hnew] <;> omega
  | unreserve =>
    have hs (pc) : Thread.creates ⟨r, pc⟩ = 0 := creates_settled ho
    have hs' (pc) : Thread.creates (V := V) ⟨.closed, pc⟩ = 0 :=
      creates_settled Reservation.settled_closed
    cases h
    simp only [Thread.owes, Thread.refused, Thread.halfDropped, hs] at hr
    constructor <;> simp [InternalData.occupied, hs, hs',
      decrement_of_pos (Nat.lt_of_succ_le hr)]
    omega
  | abandon =>
    have hs (pc) : Thread.creates ⟨r, pc⟩ = 0 := creates_settled ho.1
    have hs' (pc) : Thread.creates (V := V) ⟨.closed, pc⟩ = 0 :=
      creates_settled Reservation.settled_closed
    cases h
    constructor <;> simp [InternalData.occupied, hs, hs']
  | load k idx =>
    have hs (pc) : Thread.creates ⟨r, pc⟩ = 0 := creates_settled ho.1
    have hs' (p pc) : Thread.creates (V := V) ⟨⟨true, some p, k, idx, some idx⟩, pc⟩ = 0 :=
      creates_holding ⟨rfl, rfl, rfl, ho.2, rfl⟩
    simp only [tick] at h
    split at h <;> cases h <;> constructor <;>
      simp [InternalData.occupied, hs, hs']
  | alterStore =>
    cases h
    have hst := occupied_store d ho.1.2.2.2.1 r.table
    have hk := ho.2.filled
    have hf : filled r.table = 1 := by simp [filled, ho.1.2.2.2.2]
    constructor <;> simp [Thread.creates]
    omega
  | dropClear =>
    cases h
    have hst := occupied_store d ho.1.2.2.2.1 none
    have hk := ho.2.filled
    have hf : filled (none : Option (TablePtr V)) = 0 := rfl
    constructor <;> simp [Thread.creates]
    omega
  | dropCount | moveCount =>
    cases h
    have hp : 0 < d.tableCount := hc
    constructor <;> simp [InternalData.occupied, Thread.creates,
      decrement_of_pos hp] <;> omega
  | dropReserved | moveReserved =>
    cases h
    have hp : 0 < d.reservedSize := by simp at hr; omega
    constructor <;> simp [InternalData.occupied, Thread.creates, decrement_of_pos hp]
    omega
  | moveStore k p =>
    cases h
    have hst := occupied_store d ho.1.2.2.2.1 p
    have hk := ho.2.1.filled
    have hf : filled p = 1 := by simp [filled, ho.2.2.2.2]
    constructor <;> simp [Thread.creates]
    omega
  | moveClear k =>
    cases h
    have hst := occupied_store d ho.2.1 none
    have hk : filled (d.tables k) = 1 := by simp [filled, ho.2.2]
    have hf : filled (none : Option (TablePtr V)) = 0 := rfl
    constructor <;> simp [Thread.creates]
    omega
  | innerStore n o =>
    cases h
    have hst := occupied_store d ho.2.1 r.table
    have hf : filled r.table ≤ 1 := by simp only [filled]; split <;> omega
    constructor <;> simp [Thread.creates]
    omega
  | innerCount n o =>
    have hs (pc) : Thread.creates ⟨r, pc⟩ = 1 := creates_creating ho.1
    have hs' (pc) : Thread.creates (V := V) ⟨{ r with index := n }, pc⟩ = 0 :=
      creates_settled ⟨ho.1.2.2.2.1, .inr (ho.2.1.trans maximumTableCount_lt_npos).ne⟩
    cases h
    constructor <;> simp [InternalData.occupied, hs, hs']
    all_goals omega
  | _ =>
    simp only [tick] at h
    (repeat' split at h) <;> cases h <;> constructor <;>
      simp [Thread.creates, InternalData.occupied]

omit [DecidableEq ι] [Inhabited V] in
private theorem call_balanced {d d' : InternalData ι V} {r : Reservation V} {a : Act V}
    {t' : Thread V} (h : Called d r a d' t') (hr : Thread.owes ⟨r, .idle⟩ ≤ d.reservedSize) :
    Balanced d d' ⟨r, .idle⟩ t' := by
  cases h with
  | refuse hs =>
    have hs' : Thread.creates (V := V) ⟨.closed, .idle⟩ = 0 :=
      creates_settled Reservation.settled_closed
    constructor <;> simp [InternalData.occupied, creates_settled hs, hs']
  | giveBack hc =>
    have hp : 0 < d.reservedSize := by
      simp [creates_creating hc] at hr
      omega
    have hs : Thread.creates ⟨r.cancelled, .idle⟩ = 0 :=
      creates_settled (Reservation.settled_cancelled r)
    constructor <;> simp [InternalData.occupied, creates_creating hc, hs, decrement_of_pos hp]
    omega
  | release k hb =>
    have hs : Thread.creates ⟨r.cancelled, .idle⟩ = 0 :=
      creates_settled (Reservation.settled_cancelled r)
    constructor <;> simp [InternalData.occupied, creates_holding hb, hs]
  | _ =>
    constructor <;> simp [Thread.creates, InternalData.occupied]

theorem act_balanced {i : ι} {a : Act V} {d d' : InternalData ι V} {t t' : Thread V}
    (h : act i a d t = some (d', t')) (ho : PcOk d t.res t.pc) (hr : t.owes ≤ d.reservedSize)
    (hc : t.removing ≤ d.tableCount) : Balanced d d' t t' := by
  obtain ⟨r, pc⟩ := t
  obtain ⟨rfl, ht⟩ | ⟨rfl, hc⟩ := act_eq_some h
  · exact tick_balanced ht ho hr hc
  · exact call_balanced (called_of_call hc ho) hr

end PStress.Metadata
