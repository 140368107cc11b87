import PStress.Metadata.Counters

/-! What the callers know of the capacity: which of their calls were granted, completed and
cancelled. The counters follow at steps of their own. -/
namespace PStress.Metadata
open Interleaving
variable {ι V : Type}

/-- How often `createTable()` has returned an open reservation, and how often `complete()` was
called on a CREATE, `cancel()` on a CREATE and `complete()` on a DROP. -/
structure Ledger where
  granted : Nat
  created : Nat
  cancelled : Nat
  dropped : Nat
  deriving DecidableEq

/-- What the ledger notes of a handle's step from `t` to `t'`. -/
def Ledger.note (b : Ledger) (t : Thread V) (a : Act V) (t' : Thread V) : Ledger :=
  match a, t.pc with
  -- While `createTable()` runs the handle is not open.
  | .createTable, _ | .tick, .reserve | .tick, .unreserve =>
    if t'.res.isOpen then { b with granted := b.granted + 1 } else b
  | .complete, .idle =>
    if t.res.index = npos then { b with created := b.created + 1 }
    else if t.res.drop then { b with dropped := b.dropped + 1 } else b
  | .cancel, .idle => if t.res.index = npos then { b with cancelled := b.cancelled + 1 } else b
  | _, _ => b

@[simp] def Thread.storing (t : Thread V) : Nat := if t.pc.completing then t.creates else 0

/-- A DROP whose `complete()` has been called and that has yet to decrement `tableCount`. -/
@[simp] def Thread.leaving (t : Thread V) : Nat :=
  match t.pc with
  | .dropTest | .dropClear | .dropCount | .lastRead | .lastLock _ | .lastLoad _ | .lastTest _
  | .lastRetry _ | .moveLoad _ | .moveStore .. | .moveUnlock _ | .moveCount _ => 1
  | .undefined _ => 1 - t.creates
  | _ => 0

/-- A step from `t` to `t'` accounts for what the ledger notes of it. -/
structure Ledger.Settles (b b' : Ledger) (n n' : Nat) (t t' : Thread V) : Prop where
  granted : t'.creates + b'.created + b'.cancelled + b.granted + t.storing =
    t.creates + b.created + b.cancelled + b'.granted + t'.storing
  stored : n' + b'.dropped + t'.storing + b.created + t.leaving =
    n + b.dropped + t.storing + b'.created + t'.leaving

section Steps
variable [DecidableEq ι] [Inhabited V] {d d' : InternalData ι V} {r : Reservation V} {pc : Pc V}
  {t t' : Thread V} {a : Act V} {i : ι}

private theorem tick_settles (b : Ledger) (h : tick i d r pc = some (d', t')) (ho : PcOk d r pc)
    (hc : Thread.removing ⟨r, pc⟩ ≤ d.tableCount) :
    b.Settles (b.note ⟨r, pc⟩ .tick t') d.tableCount d'.tableCount ⟨r, pc⟩ t' := by
  cases pc with
  | idle | undefined => cases h
  | reserve =>
    have hs (pc) : Thread.creates ⟨r, pc⟩ = 0 := creates_settled ho
    simp only [tick] at h
    split at h <;> cases h
    · constructor <;> simp [Ledger.note, Pc.completing, ho.not_open, hs]
    · have hnew : Thread.creates (V := V)
          ⟨⟨true, some ⟨d.nextTable, default⟩, false, npos, none⟩, .idle⟩ = 1 := by
        simp [Thread.creates]
      constructor <;> simp [Ledger.note, Pc.completing, Reservation.isOpen, hs, hnew]
      omega
  | unreserve =>
    have hs (pc) : Thread.creates ⟨r, pc⟩ = 0 := creates_settled ho
    have hs' (pc) : Thread.creates (V := V) ⟨.closed, pc⟩ = 0 :=
      creates_settled Reservation.settled_closed
    cases h
    constructor <;>
      simp [Ledger.note, Pc.completing, Reservation.settled_closed.not_open, hs, hs']
  | abandon =>
    have hs (pc) : Thread.creates ⟨r, pc⟩ = 0 := creates_settled ho.1
    have hs' (pc) : Thread.creates (V := V) ⟨.closed, pc⟩ = 0 :=
      creates_settled Reservation.settled_closed
    cases h
    constructor <;> simp [Ledger.note, Pc.completing, hs, hs']
  | load k idx =>
    have hs (pc) : Thread.creates ⟨r, pc⟩ = 0 := creates_settled ho.1
    have hs' (p pc) : Thread.creates (V := V) ⟨⟨true, some p, k, idx, some idx⟩, pc⟩ = 0 :=
      creates_holding ⟨rfl, rfl, rfl, ho.2, rfl⟩
    simp only [tick] at h
    split at h <;> cases h <;> constructor <;> simp [Ledger.note, Pc.completing, hs, hs']
  | alterUnlock | dropUnlock =>
    have hs (pc) : Thread.creates ⟨r, pc⟩ = 0 := creates_holding ho.1
    have hs' (pc) : Thread.creates ⟨{ r with lock := none }, pc⟩ = 0 :=
      creates_settled ⟨rfl, .inr ho.1.index_ne⟩
    cases h
    constructor <;> simp [Ledger.note, Pc.completing, hs, hs']
  | dropCount | moveCount =>
    have hp : 0 < d.tableCount := hc
    cases h
    constructor <;> simp [Ledger.note, Pc.completing, Thread.creates, decrement_of_pos hp]
    omega
  | moveRelease | outerUnlock =>
    have hs (pc) : Thread.creates ⟨r, pc⟩ = 0 := creates_settled ho.1
    cases h
    constructor <;> simp [Ledger.note, Pc.completing, hs]
  | innerUnlock n o =>
    have hs (pc) : Thread.creates ⟨r, pc⟩ = 0 := creates_settled ho.1
    cases h
    cases o <;> constructor <;> simp [Ledger.note, Pc.completing, hs]
  | lastLock k =>
    have hs (pc) : Thread.creates ⟨r, pc⟩ = 0 := creates_holding ho.1
    simp only [tick] at h
    (repeat' split at h) <;> cases h <;> constructor <;> simp [Ledger.note, Pc.completing, hs]
  | outerLock k =>
    have hs (pc) : Thread.creates ⟨r, pc⟩ = 1 := creates_creating ho
    simp only [tick] at h
    (repeat' split at h) <;> cases h <;> constructor <;> simp [Ledger.note, Pc.completing, hs]
  | innerLock k o =>
    have hs (pc) : Thread.creates ⟨r, pc⟩ = 1 := creates_creating ho.1
    simp only [tick] at h
    (repeat' split at h) <;> cases h <;> constructor <;> simp [Ledger.note, Pc.completing, hs]
  | innerCount n o =>
    have hs (pc) : Thread.creates ⟨r, pc⟩ = 1 := creates_creating ho.1
    have hs' (pc) : Thread.creates (V := V) ⟨{ r with index := n }, pc⟩ = 0 :=
      creates_settled ⟨ho.1.2.2.2.1, .inr (ho.2.1.trans maximumTableCount_lt_npos).ne⟩
    cases h
    constructor <;> simp [Ledger.note, Pc.completing, hs, hs']
    all_goals omega
  | _ =>
    simp only [tick] at h
    (repeat' split at h) <;> cases h <;> constructor <;>
      simp [Ledger.note, Pc.completing, Thread.creates]

omit [DecidableEq ι] [Inhabited V] in
private theorem call_settles (b : Ledger) (h : Called d r a d' t') :
    b.Settles (b.note ⟨r, .idle⟩ a t') d.tableCount d'.tableCount ⟨r, .idle⟩ t' := by
  cases h with
  | reserve hs =>
    constructor <;> simp [Ledger.note, Pc.completing, Thread.creates, hs.not_open]
  | refuse hs =>
    have hs' : Thread.creates (V := V) ⟨.closed, .idle⟩ = 0 :=
      creates_settled Reservation.settled_closed
    constructor <;> simp [Ledger.note, Pc.completing, creates_settled hs, hs',
      Reservation.settled_closed.not_open]
  | create hc =>
    constructor <;> simp [Ledger.note, Pc.completing, creates_creating hc, hc.2.2.1]
    all_goals omega
  | store hb =>
    constructor <;> simp [Ledger.note, Pc.completing, creates_holding hb, hb.index_ne, hb.2.1]
  | remove hb =>
    constructor <;> simp [Ledger.note, Pc.completing, creates_holding hb, hb.index_ne, hb.2.1]
    omega
  | giveBack hc =>
    have hs : Thread.creates ⟨r.cancelled, .idle⟩ = 0 :=
      creates_settled (Reservation.settled_cancelled r)
    constructor <;> simp [Ledger.note, Pc.completing, creates_creating hc, hc.2.2.1, hs]
    omega
  | release k hb =>
    have hs : Thread.creates ⟨r.cancelled, .idle⟩ = 0 :=
      creates_settled (Reservation.settled_cancelled r)
    constructor <;> simp [Ledger.note, Pc.completing, creates_holding hb, hb.index_ne, hs]
  | _ => constructor <;> simp [Ledger.note, Pc.completing, Thread.creates]

theorem act_settles (b : Ledger) (h : act i a d t = some (d', t')) (ho : PcOk d t.res t.pc)
    (hc : t.removing ≤ d.tableCount) :
    b.Settles (b.note t a t') d.tableCount d'.tableCount t t' := by
  obtain ⟨r, pc⟩ := t
  obtain ⟨rfl, ht⟩ | ⟨rfl, hcall⟩ := act_eq_some h
  · exact tick_settles b ht ho hc
  · exact call_settles b (called_of_call hcall ho)

end Steps
end PStress.Metadata
