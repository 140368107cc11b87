import Mathlib.Data.List.Perm.Basic
import PStress.Metadata.Protocol

/-! What a handle knows about itself and its slots at each step of an operation. This holds in
every run, also in those where concurrent completions have left a gap or a count that does not
fit. -/
namespace PStress.Metadata
variable {ι V : Type}

/-- Slots whose mutex `mtx`, `innerLock` and `outerLock` own. -/
def Pc.held : Pc V → List Nat
  | .load _ k | .abandon k => [k]
  | .lastLoad k | .lastTest k | .lastRetry k | .moveLoad k | .moveStore k _ | .moveUnlock k
  | .moveCount k | .moveReserved k | .moveClear k | .moveMoved k | .moveRelease k => [k]
  | .outerLoad n | .outerTest n | .outerRetry n | .outerUnlock n => [decrement n]
  | .innerLock n o => if o then [decrement n] else []
  | .innerStore n o | .innerCount n o | .innerUnlock n o => n :: if o then [decrement n] else []
  | .undefined ks => ks
  | _ => []

/-- Slots whose mutex the operation shares. -/
def Pc.shared : Pc V → List Nat
  | .lookupLoad k | .lookupUnlock k => [k]
  | _ => []

def Thread.held (t : Thread V) : List Nat := t.res.lock.toList ++ t.pc.held

/-- The slot of an open ALTER or DROP still stores the table the handle was given. -/
def Backed (d : InternalData ι V) (r : Reservation V) : Prop :=
  ∃ p q, r.table = some p ∧ d.tables r.index = some q ∧ q.id = p.id ∧ (r.drop = true → q = p)

def Resting (d : InternalData ι V) (r : Reservation V) : Prop :=
  r.Settled ∨ r.Creating ∨ (∃ b, r.Holding b) ∧ Backed d r

/-- What the handle knows at each step: its own state, and the slots it owns. -/
def PcOk (d : InternalData ι V) (r : Reservation V) : Pc V → Prop
  | .idle => Resting d r
  | .reserve | .unreserve => r.Settled
  | .acquire _ k | .load _ k | .abandon k => r.Settled ∧ k < maximumTableCount
  | .lookupLock k | .lookupLoad k | .lookupUnlock k => Resting d r ∧ k < maximumTableCount
  | .alterStore => r.Holding false ∧ Backed d r
  | .alterUnlock => r.Holding false ∧ d.tables r.index = r.table
  | .dropTest | .dropClear | .lastRead | .lastLock _ => r.Holding true ∧ Backed d r
  | .dropCount | .dropReserved | .dropMoved | .dropUnlock =>
    r.Holding true ∧ d.tables r.index = none
  | .lastLoad k | .lastRetry k => r.Holding true ∧ Backed d r ∧ k < maximumTableCount
  | .lastTest k | .moveLoad k =>
    r.Holding true ∧ Backed d r ∧ k < maximumTableCount ∧ (d.tables k).isSome
  | .moveStore k p =>
    r.Holding true ∧ Backed d r ∧ k < maximumTableCount ∧ d.tables k = p ∧ p.isSome
  | .moveUnlock k =>
    r.Holding true ∧ k < maximumTableCount ∧ d.tables r.index = d.tables k ∧ (d.tables k).isSome
  | .moveCount k | .moveReserved k | .moveClear k =>
    r.Settled ∧ k < maximumTableCount ∧ (d.tables k).isSome
  | .moveMoved k | .moveRelease k => r.Settled ∧ k < maximumTableCount ∧ d.tables k = none
  | .createRead | .createTest _ | .outerLock _ => r.Creating
  | .outerLoad n | .outerRetry n => r.Creating ∧ decrement n < maximumTableCount
  | .outerTest n =>
    r.Creating ∧ decrement n < maximumTableCount ∧ (d.tables (decrement n)).isSome
  | .innerLock n o =>
    r.Creating ∧ (o = true → decrement n < maximumTableCount ∧ (d.tables (decrement n)).isSome)
  | .innerStore n o =>
    r.Creating ∧ n < maximumTableCount ∧ (o = true → (d.tables (decrement n)).isSome)
  | .innerCount n o =>
    r.Creating ∧ n < maximumTableCount ∧ d.tables n = r.table ∧
      (o = true → (d.tables (decrement n)).isSome)
  | .innerUnlock n o =>
    r.Settled ∧ n < maximumTableCount ∧ (d.tables n).isSome ∧
      (o = true → (d.tables (decrement n)).isSome)
  | .outerUnlock n => r.Settled ∧ (d.tables (decrement n)).isSome
  | .undefined _ => True

theorem Reservation.Holding.index_mem {r : Reservation V} {b : Bool} (h : r.Holding b) (pc : Pc V) :
    r.index ∈ Thread.held ⟨r, pc⟩ := by
  simp [Thread.held, h.2.2.1]

namespace Resting
variable {d : InternalData ι V} {r : Reservation V}

theorem settled (h : Resting d r) (ho : r.isOpen = false) : r.Settled := by
  obtain h | h | ⟨⟨_, h⟩, _⟩ := h
  · exact h
  · simp [h.isOpen] at ho
  · simp [h.isOpen] at ho

theorem of_open (h : Resting d r) (ho : r.isOpen = true) :
    r.Creating ∨ ∃ b, r.Holding b ∧ Backed d r := by
  obtain h | h | ⟨⟨b, h⟩, hb⟩ := h
  · simp [h.not_open] at ho
  · exact .inl h
  · exact .inr ⟨b, h, hb⟩

end Resting

section Calls
variable {d d' : InternalData ι V} {r : Reservation V} {t' : Thread V} {a : Act V}

/-- Everything a call can do to a handle at rest. -/
inductive Called (d : InternalData ι V) (r : Reservation V) :
    Act V → InternalData ι V → Thread V → Prop where
  | reserve : r.Settled → d.reservedSize < maximumTableCount →
      Called d r .createTable d ⟨r, .reserve⟩
  | refuse : r.Settled → ¬ d.reservedSize < maximumTableCount →
      Called d r .createTable d ⟨.closed, .idle⟩
  | alter (idx : Nat) : r.Settled → idx < maximumTableCount →
      Called d r (.alterTable idx) d ⟨r, .acquire false idx⟩
  | drop (idx : Nat) : r.Settled → idx < maximumTableCount →
      Called d r (.dropTable idx) d ⟨r, .acquire true idx⟩
  | lookup (idx : Nat) : idx < maximumTableCount →
      Called d r (.lookup idx) d ⟨r, .lookupLock idx⟩
  | editCreate (f : V → V) : r.Creating → Called d r (.edit f) d ⟨r.edit f, .idle⟩
  | editAlter (f : V → V) : r.Holding false → Backed d r →
      Called d r (.edit f) d ⟨r.edit f, .idle⟩
  | create : r.Creating → Called d r .complete d ⟨r, .createRead⟩
  | store : r.Holding false → Backed d r → Called d r .complete d ⟨r, .alterStore⟩
  | remove : r.Holding true → Backed d r → Called d r .complete d ⟨r, .dropTest⟩
  | giveBack : r.Creating → Called d r .cancel
      (d.setReservedSize (decrement d.reservedSize)) ⟨r.cancelled, .idle⟩
  | release (b : Bool) : r.Holding b → Backed d r →
      Called d r .cancel (d.unlock r.index) ⟨r.cancelled, .idle⟩

theorem called_of_call (h : call d r a = some (d', t')) (hr : Resting d r) :
    Called d r a d' t' := by
  cases a with
  | tick => cases h
  | createTable =>
    simp only [call] at h
    split at h
    · cases h
    · rename_i ho
      have hs := hr.settled (by simpa using ho)
      split at h <;> cases h
      · exact .reserve hs (by assumption)
      · exact .refuse hs (by assumption)
  | alterTable idx =>
    simp only [call] at h
    split at h <;> cases h
    rename_i ho
    obtain ⟨ho, hk⟩ : r.isOpen = false ∧ idx < maximumTableCount := by simpa using ho
    exact .alter idx (hr.settled ho) hk
  | dropTable idx =>
    simp only [call] at h
    split at h <;> cases h
    rename_i ho
    obtain ⟨ho, hk⟩ : r.isOpen = false ∧ idx < maximumTableCount := by simpa using ho
    exact .drop idx (hr.settled ho) hk
  | lookup idx =>
    simp only [call] at h
    split at h <;> cases h
    exact .lookup idx (by omega)
  | edit f =>
    simp only [call] at h
    split at h <;> cases h
    rename_i ho
    obtain ⟨ho, hd⟩ : r.isOpen = true ∧ r.drop = false := by simpa using ho
    obtain hc | ⟨b, hb, hk⟩ := hr.of_open ho
    · exact .editCreate f hc
    · cases hd.symm.trans hb.2.1
      exact .editAlter f hb hk
  | complete =>
    simp only [call] at h
    split at h <;> cases h
    rename_i ho
    obtain hc | ⟨b, hb, hk⟩ := hr.of_open ho
    · rw [hc.branch]
      exact .create hc
    · rw [hb.branch]
      cases b
      · exact .store hb hk
      · exact .remove hb hk
  | cancel =>
    simp only [call] at h
    split at h <;> cases h
    rename_i ho
    obtain hc | ⟨b, hb, hk⟩ := hr.of_open ho
    · simp only [cancel, hc.1, hc.2.2.1, hc.2.2.2.1]
      exact .giveBack hc
    · simp only [cancel, hb.index_ne, hb.2.2.1, false_and, if_false]
      exact .release b hb hk

end Calls
/-- What a handle knows about slots concerns the slots it owns. -/
theorem PcOk.stable {d d' : InternalData ι V} {r : Reservation V} {pc : Pc V}
    (h : PcOk d r pc) (ht : ∀ k ∈ Thread.held ⟨r, pc⟩, d'.tables k = d.tables k) :
    PcOk d' r pc := by
  have backed {b} (hb : r.Holding b) (hk : Backed d r) : Backed d' r := by
    simpa only [Backed, ht r.index (by simp [Thread.held, hb.2.2.1])] using hk
  have resting (hr : Resting d r) : Resting d' r :=
    hr.imp_right (Or.imp_right fun ⟨⟨b, hb⟩, hk⟩ => ⟨⟨b, hb⟩, backed hb hk⟩)
  cases pc with
  | idle => exact resting h
  | reserve | unreserve | acquire | load | abandon | createRead | createTest | outerLock
  | outerLoad | outerRetry | undefined => exact h
  | lookupLock | lookupLoad | lookupUnlock => exact ⟨resting h.1, h.2⟩
  | alterStore | dropTest | dropClear | lastRead | lastLock => exact ⟨h.1, backed h.1 h.2⟩
  | alterUnlock | dropCount | dropReserved | dropMoved | dropUnlock =>
    exact ⟨h.1, (ht _ (by simp [Thread.held, h.1.2.2.1])).trans h.2⟩
  | lastLoad | lastRetry => exact ⟨h.1, backed h.1 h.2.1, h.2.2⟩
  | lastTest k | moveLoad k | moveStore k =>
    have hk := ht k (by simp [Thread.held, Pc.held])
    simpa only [PcOk, hk] using ⟨h.1, backed h.1 h.2.1, h.2.2⟩
  | moveUnlock k =>
    have hk := ht k (by simp [Thread.held, Pc.held])
    have hi := ht r.index (by simp [Thread.held, h.1.2.2.1])
    simpa only [PcOk, hk, hi] using h
  | moveCount k | moveReserved k | moveClear k | moveMoved k | moveRelease k =>
    have hk := ht k (by simp [Thread.held, Pc.held])
    simpa only [PcOk, hk] using h
  | outerTest n | outerUnlock n =>
    have hk := ht (decrement n) (by simp [Thread.held, Pc.held])
    simpa only [PcOk, hk] using h
  | innerLock n o =>
    refine ⟨h.1, fun ho => ?_⟩
    rw [ht (decrement n) (by simp [Thread.held, Pc.held, ho])]
    exact h.2 ho
  | innerStore n o =>
    refine ⟨h.1, h.2.1, fun ho => ?_⟩
    rw [ht (decrement n) (by simp [Thread.held, Pc.held, ho])]
    exact h.2.2 ho
  | innerCount n o | innerUnlock n o =>
    refine ⟨h.1, h.2.1, ?_, fun ho => ?_⟩
    · rw [ht n (by simp [Thread.held, Pc.held])]
      exact h.2.2.1
    · rw [ht (decrement n) (by simp [Thread.held, Pc.held, ho])]
      exact h.2.2.2 ho

/-- A handle's own step leads to what it must know at the next one. -/
theorem tick_ok [DecidableEq ι] [Inhabited V] {i : ι} {d d' : InternalData ι V}
    {r : Reservation V} {pc : Pc V}
    {t' : Thread V} (h : tick i d r pc = some (d', t')) (ho : PcOk d r pc) :
    PcOk d' t'.res t'.pc := by
  have unlocked {b} (hb : r.Holding b) : Reservation.Settled { r with lock := none } :=
    ⟨rfl, .inr hb.index_ne⟩
  cases pc with
  | idle | undefined => cases h
  | reserve =>
    simp only [tick] at h
    split at h <;> cases h
    · exact ho
    · exact .inr (.inl ⟨rfl, rfl, rfl, rfl, rfl⟩)
  | unreserve | abandon =>
    cases h
    exact .inl Reservation.settled_closed
  | acquire =>
    simp only [tick] at h
    split at h <;> cases h
    exact ho
  | load b k =>
    simp only [tick] at h
    split at h <;> cases h
    · exact ho
    · rename_i p hp
      exact .inr (.inr ⟨⟨b, rfl, rfl, rfl, ho.2, rfl⟩, p, p, rfl, hp, rfl, fun _ => rfl⟩)
  | lookupLock =>
    simp only [tick] at h
    split at h <;> cases h
    exact ho
  | lookupLoad =>
    cases h
    exact ho
  | lookupUnlock =>
    cases h
    exact ho.1
  | alterStore =>
    cases h
    exact ⟨ho.1, by simp⟩
  | alterUnlock | dropUnlock =>
    cases h
    exact .inl (unlocked ho.1)
  | dropTest =>
    simp only [tick] at h
    split at h <;> cases h <;> exact ho
  | dropClear =>
    cases h
    exact ⟨ho.1, by simp⟩
  | dropCount | dropReserved | dropMoved | lastRead =>
    cases h
    exact ho
  | lastLock =>
    simp only [tick] at h
    (repeat' split at h) <;> cases h
    · exact ⟨ho.1, ho.2, by assumption⟩
    · trivial
  | lastLoad =>
    simp only [tick] at h
    split at h <;> cases h
    · exact ⟨ho.1, ho.2.1, ho.2.2, by assumption⟩
    · exact ho
  | lastTest =>
    simp only [tick] at h
    split at h <;> cases h
    · exact ho
    · exact ⟨ho.1, ho.2.1, ho.2.2.1⟩
  | lastRetry =>
    cases h
    exact ⟨ho.1, ho.2.1⟩
  | moveLoad =>
    cases h
    exact ⟨ho.1, ho.2.1, ho.2.2.1, rfl, ho.2.2.2⟩
  | moveStore k p =>
    cases h
    have hk : (d.store r.index p).tables k = p := by
      by_cases hk : k = r.index <;> simp [hk, ← ho.2.2.2.1]
    exact ⟨ho.1, ho.2.2.1, by rw [hk]; simp, by rw [hk]; exact ho.2.2.2.2⟩
  | moveUnlock =>
    cases h
    exact ⟨unlocked ho.1, ho.2.1, ho.2.2.2⟩
  | moveCount | moveReserved | moveMoved =>
    cases h
    exact ho
  | moveClear =>
    cases h
    exact ⟨ho.1, ho.2.1, by simp⟩
  | moveRelease =>
    cases h
    exact .inl ho.1
  | createRead =>
    cases h
    exact ho
  | createTest =>
    simp only [tick] at h
    split at h <;> cases h
    · exact ⟨ho, by simp⟩
    · exact ho
  | outerLock =>
    simp only [tick] at h
    (repeat' split at h) <;> cases h
    · exact ⟨ho, by assumption⟩
    · trivial
  | outerLoad =>
    simp only [tick] at h
    split at h <;> cases h
    · exact ⟨ho.1, ho.2, by assumption⟩
    · exact ho
  | outerTest =>
    simp only [tick] at h
    split at h <;> cases h
    · exact ⟨ho.1, fun _ => ho.2⟩
    · exact ⟨ho.1, ho.2.1⟩
  | outerRetry =>
    cases h
    exact ho.1
  | innerLock =>
    simp only [tick] at h
    (repeat' split at h) <;> cases h
    · exact ⟨ho.1, by assumption, fun h => (ho.2 h).2⟩
    all_goals trivial
  | innerStore n o =>
    cases h
    refine ⟨ho.1, ho.2.1, by simp, fun h => ?_⟩
    by_cases hn : decrement n = n
    · simpa [hn] using ho.1.2.2.2.2
    · simpa [hn] using ho.2.2 h
  | innerCount n o =>
    cases h
    have hn : (d.tables n).isSome := by rw [ho.2.2.1]; exact ho.1.2.2.2.2
    exact ⟨⟨ho.1.2.2.2.1, .inr (ho.2.1.trans maximumTableCount_lt_npos).ne⟩, ho.2.1, hn,
      ho.2.2.2⟩
  | innerUnlock n o =>
    cases h
    cases o
    · exact .inl ho.1
    · exact ⟨ho.1, ho.2.2.2 rfl⟩
  | outerUnlock =>
    cases h
    exact .inl ho.1

theorem call_ok {d d' : InternalData ι V} {r : Reservation V} {a : Act V} {t' : Thread V}
    (h : Called d r a d' t') (hr : Resting d r) : PcOk d' t'.res t'.pc := by
  cases h with
  | reserve hs | create hs => exact hs
  | refuse => exact .inl Reservation.settled_closed
  | alter idx hs hk | drop idx hs hk => exact ⟨hs, hk⟩
  | lookup idx hk => exact ⟨hr, hk⟩
  | editCreate f hc => exact .inr (.inl (by simpa [Reservation.Creating] using hc))
  | editAlter f hb hk =>
    obtain ⟨p, q, hp, hq, hid, _⟩ := hk
    refine .inr (.inr ⟨⟨false, by simpa [Reservation.Holding] using hb⟩,
      ⟨p.id, f p.value⟩, q, by simp [hp], hq, hid, ?_⟩)
    intro hd
    cases hd.symm.trans hb.2.1
  | store hb hk | remove hb hk => exact ⟨hb, hk⟩
  | giveBack | release => exact .inl (Reservation.settled_cancelled r)

end PStress.Metadata
