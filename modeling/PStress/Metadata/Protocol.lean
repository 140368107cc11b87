import PStress.Interleaving.Reach
import PStress.Metadata.Data

/-! The operations of `Metadata` and `Reservation` as atomic steps. Every lock operation, every
read or update of a counter and every read or write of a slot is a step of its own; what the
code does with its local variables in between belongs to the step before. A thread that uses
several handles appears as several of them, so its schedules are among those of the handles. -/
namespace PStress.Metadata
open Interleaving

/-- Where a handle is in an operation, with the operation's local variables: `idx` of
`alterTable`, `dropTable` and `operator[]`, `last` and `next` for `lastIndex` and `nextIndex`,
and whether `outerLock` owns a mutex. -/
inductive Pc (V : Type) where
  | idle
  -- createTable
  | reserve
  | unreserve
  -- alterTable and dropTable
  | acquire (drop : Bool) (idx : Nat)
  | load (drop : Bool) (idx : Nat)
  | abandon (idx : Nat)
  -- operator[]
  | lookupLock (idx : Nat)
  | lookupLoad (idx : Nat)
  | lookupUnlock (idx : Nat)
  -- complete, ALTER
  | alterStore
  | alterUnlock
  -- complete, DROP of the last item
  | dropTest
  | dropClear
  | dropCount
  | dropReserved
  | dropMoved
  | dropUnlock
  -- complete, DROP of another item
  | lastRead
  | lastLock (last : Nat)
  | lastLoad (last : Nat)
  | lastTest (last : Nat)
  | lastRetry (last : Nat)
  | moveLoad (last : Nat)
  | moveStore (last : Nat) (p : Option (TablePtr V))
  | moveUnlock (last : Nat)
  | moveCount (last : Nat)
  | moveReserved (last : Nat)
  | moveClear (last : Nat)
  | moveMoved (last : Nat)
  | moveRelease (last : Nat)
  -- complete, CREATE
  | createRead
  | createTest (next : Nat)
  | outerLock (next : Nat)
  | outerLoad (next : Nat)
  | outerTest (next : Nat)
  | outerRetry (next : Nat)
  | innerLock (next : Nat) (outer : Bool)
  | innerStore (next : Nat) (outer : Bool)
  | innerCount (next : Nat) (outer : Bool)
  | innerUnlock (next : Nat) (outer : Bool)
  | outerUnlock (next : Nat)
  -- an array was subscripted outside its bounds, while a lock may have been held
  | undefined (held : List Nat)
  deriving DecidableEq

/-- A handle and the operation in progress on it. -/
structure Thread (V : Type) where
  res : Reservation V
  pc : Pc V

/-- What a caller may do next: begin an operation, edit the reserved table, or let the operation
in progress take its next step. -/
inductive Act (V : Type) where
  | createTable
  | alterTable (idx : Nat)
  | dropTable (idx : Nat)
  | lookup (idx : Nat)
  | edit (f : V → V)
  | complete
  | cancel
  | tick

variable {ι V : Type} [DecidableEq ι]

/-- The branch of `complete()` a handle takes. -/
def Reservation.branch (r : Reservation V) : Pc V :=
  if r.index ≠ npos then if r.drop then .dropTest else .alterStore else .createRead

/-- The next step of the operation in progress; `none` while it has to wait for a mutex. -/
def tick [Inhabited V] (i : ι) (d : InternalData ι V) (r : Reservation V) :
    Pc V → Option (InternalData ι V × Thread V)
  | .idle | .undefined _ => none
  | .reserve =>
    let res := d.reservedSize + 1
    if maximumTableCount < res then some (d.setReservedSize res, ⟨r, .unreserve⟩)
    else some (d.grant res, ⟨⟨true, some ⟨d.nextTable, default⟩, false, npos, none⟩, .idle⟩)
  | .unreserve => some (d.setReservedSize (decrement d.reservedSize), ⟨.closed, .idle⟩)
  | .acquire drop idx =>
    if (d.tableLocks idx).free then some (d.lock idx i, ⟨r, .load drop idx⟩) else none
  | .load drop idx =>
    match d.tables idx with
    | none => some (d, ⟨r, .abandon idx⟩)
    | some p => some (d, ⟨⟨true, some p, drop, idx, some idx⟩, .idle⟩)
  | .abandon idx => some (d.unlock idx, ⟨.closed, .idle⟩)
  | .lookupLock idx =>
    if (d.tableLocks idx).writer.isNone then some (d.lockShared idx i, ⟨r, .lookupLoad idx⟩)
    else none
  | .lookupLoad idx => some (d, ⟨r, .lookupUnlock idx⟩)
  | .lookupUnlock idx => some (d.unlockShared idx i, ⟨r, .idle⟩)
  | .alterStore => some (d.store r.index r.table, ⟨r, .alterUnlock⟩)
  | .alterUnlock => some (d.unlock r.index, ⟨{ r with lock := none }, .idle⟩)
  | .dropTest =>
    some (d, ⟨r, if r.index = decrement d.tableCount then .dropClear else .lastRead⟩)
  | .dropClear => some (d.store r.index none, ⟨r, .dropCount⟩)
  | .dropCount => some (d.setTableCount (decrement d.tableCount), ⟨r, .dropReserved⟩)
  | .dropReserved => some (d.setReservedSize (decrement d.reservedSize), ⟨r, .dropMoved⟩)
  | .dropMoved => some (d.setMoved r.index npos, ⟨r, .dropUnlock⟩)
  | .dropUnlock => some (d.unlock r.index, ⟨{ r with lock := none }, .idle⟩)
  | .lastRead => some (d, ⟨r, .lastLock (decrement d.tableCount)⟩)
  | .lastLock last =>
    if last < maximumTableCount then
      if (d.tableLocks last).free then some (d.lock last i, ⟨r, .lastLoad last⟩) else none
    else some (d, ⟨r, .undefined []⟩)
  | .lastLoad last =>
    some (d, ⟨r, if (d.tables last).isSome then .lastTest last else .lastRetry last⟩)
  | .lastTest last =>
    some (d, ⟨r, if last = decrement d.tableCount then .moveLoad last else .lastRetry last⟩)
  | .lastRetry last => some (d.unlock last, ⟨r, .dropTest⟩)
  | .moveLoad last => some (d, ⟨r, .moveStore last (d.tables last)⟩)
  | .moveStore last p => some (d.store r.index p, ⟨r, .moveUnlock last⟩)
  | .moveUnlock last => some (d.unlock r.index, ⟨{ r with lock := none }, .moveCount last⟩)
  | .moveCount last => some (d.setTableCount (decrement d.tableCount), ⟨r, .moveReserved last⟩)
  | .moveReserved last => some (d.setReservedSize (decrement d.reservedSize), ⟨r, .moveClear last⟩)
  | .moveClear last => some (d.store last none, ⟨r, .moveMoved last⟩)
  | .moveMoved last => some (d.setMoved last r.index, ⟨r, .moveRelease last⟩)
  | .moveRelease last => some (d.unlock last, ⟨r, .idle⟩)
  | .createRead => some (d, ⟨r, .createTest d.tableCount⟩)
  | .createTest next =>
    some (d, ⟨r, if d.tableCount = 0 then .innerLock next false else .outerLock next⟩)
  | .outerLock next =>
    -- lastIndex = nextIndex - 1
    if decrement next < maximumTableCount then
      if (d.tableLocks (decrement next)).free then
        some (d.lock (decrement next) i, ⟨r, .outerLoad next⟩)
      else none
    else some (d, ⟨r, .undefined []⟩)
  | .outerLoad next =>
    some (d, ⟨r, if (d.tables (decrement next)).isSome then .outerTest next
      else .outerRetry next⟩)
  | .outerTest next =>
    some (d, ⟨r, if next = d.tableCount then .innerLock next true else .outerRetry next⟩)
  | .outerRetry next => some (d.unlock (decrement next), ⟨r, .createRead⟩)
  | .innerLock next outer =>
    if next < maximumTableCount then
      if (d.tableLocks next).free then some (d.lock next i, ⟨r, .innerStore next outer⟩) else none
    else some (d, ⟨r, .undefined (if outer then [decrement next] else [])⟩)
  | .innerStore next outer => some (d.store next r.table, ⟨r, .innerCount next outer⟩)
  | .innerCount next outer =>
    some (d.setTableCount (d.tableCount + 1),
      ⟨{ r with index := next }, .innerUnlock next outer⟩)
  | .innerUnlock next outer =>
    some (d.unlock next, ⟨r, if outer then .outerUnlock next else .idle⟩)
  | .outerUnlock next => some (d.unlock (decrement next), ⟨r, .idle⟩)

def cancel (d : InternalData ι V) (r : Reservation V) : InternalData ι V × Reservation V :=
  let freed := if r.index = npos ∧ r.storage = true then
    d.setReservedSize (decrement d.reservedSize) else d
  (match r.lock with | some k => freed.unlock k | none => freed, r.cancelled)

/-- Calls. A granted handle is not overwritten, and only an index inside the arrays may be
passed, as the comments in `alterTable`, `dropTable` and `operator[]` ask. `complete()` on a
handle that is not open throws and `cancel()` on one does nothing, so neither is a step. -/
def call (d : InternalData ι V) (r : Reservation V) :
    Act V → Option (InternalData ι V × Thread V)
  | .createTable =>
    if r.isOpen then none
    else if d.reservedSize < maximumTableCount then some (d, ⟨r, .reserve⟩)
    else some (d, ⟨.closed, .idle⟩)
  | .alterTable idx =>
    if r.isOpen || maximumTableCount ≤ idx then none else some (d, ⟨r, .acquire false idx⟩)
  | .dropTable idx =>
    if r.isOpen || maximumTableCount ≤ idx then none else some (d, ⟨r, .acquire true idx⟩)
  | .lookup idx => if maximumTableCount ≤ idx then none else some (d, ⟨r, .lookupLock idx⟩)
  | .edit f => if r.isOpen && !r.drop then some (d, ⟨r.edit f, .idle⟩) else none
  | .complete => if r.isOpen then some (d, ⟨r, r.branch⟩) else none
  | .cancel => if r.isOpen then some ((cancel d r).1, ⟨(cancel d r).2, .idle⟩) else none
  | .tick => none

def act [Inhabited V] (i : ι) (a : Act V) (d : InternalData ι V) (t : Thread V) :
    Option (InternalData ι V × Thread V) :=
  match a, t.pc with
  | .tick, pc => tick i d t.res pc
  | a, .idle => call d t.res a
  | _, _ => none

/-- The shared data and every handle. -/
structure State (ι V : Type) where
  data : InternalData ι V
  threads : ι → Thread V

/-- A step of one handle, or the construction of handle `j` from handle `i` by a move. -/
inductive Label (ι V : Type) where
  | run (i : ι) (a : Act V)
  | move (i j : ι)

def ticks (i : ι) (n : Nat) : List (Label ι V) := List.replicate n (.run i .tick)

def calls (i : ι) (a : Act V) (n : Nat) : List (Label ι V) := .run i a :: ticks i n

def step [Inhabited V] (s : State ι V) : Label ι V → Option (State ι V)
  | .run i a =>
    (act i a s.data (s.threads i)).map fun x => ⟨x.1, Function.update s.threads i x.2⟩
  | .move i j =>
    match s.threads i, s.threads j with
    | ⟨r, .idle⟩, ⟨r', .idle⟩ =>
      if i ≠ j ∧ r.isOpen ∧ ¬ r'.isOpen then
        some ⟨s.data.handOver r.lock j, Function.update
          (Function.update s.threads i ⟨r.movedFrom, .idle⟩) j ⟨r, .idle⟩⟩
      else none
    | _, _ => none

def Pc.completing : Pc V → Bool
  | .idle | .reserve | .unreserve | .acquire .. | .load .. | .abandon _ | .lookupLock _
  | .lookupLoad _ | .lookupUnlock _ => false
  | _ => true

def State.at (d : InternalData ι V) : State ι V := ⟨d, fun _ => ⟨.closed, .idle⟩⟩

def GapFree.start (g : GapFree V) : State ι V := State.at g.data

/-- No operation is in progress; reservations may be open. -/
def State.Quiet (s : State ι V) : Prop := ∀ i, (s.threads i).pc = .idle

section Steps
variable [Inhabited V]

theorem act_eq_some {i : ι} {a : Act V} {d d' : InternalData ι V} {t t' : Thread V}
    (h : act i a d t = some (d', t')) :
    (a = .tick ∧ tick i d t.res t.pc = some (d', t')) ∨
      (t.pc = .idle ∧ call d t.res a = some (d', t')) := by
  unfold act at h
  split at h
  · exact .inl ⟨rfl, h⟩
  · exact .inr ⟨by assumption, h⟩
  · cases h

theorem step_run {s s' : State ι V} {i : ι} {a : Act V} :
    step s (.run i a) = some s' ↔ ∃ d' t', act i a s.data (s.threads i) = some (d', t') ∧
      s' = ⟨d', Function.update s.threads i t'⟩ := by
  simp only [step, Option.map_eq_some_iff, Prod.exists]
  exact exists_congr fun _ => exists_congr fun _ => and_congr_right fun _ => eq_comm

theorem step_move {s s' : State ι V} {i j : ι} (h : step s (.move i j) = some s') :
    ∃ r r', s.threads i = ⟨r, .idle⟩ ∧ s.threads j = ⟨r', .idle⟩ ∧ i ≠ j ∧ r.isOpen = true ∧
      r'.isOpen = false ∧ s' = ⟨s.data.handOver r.lock j, Function.update
        (Function.update s.threads i ⟨r.movedFrom, .idle⟩) j ⟨r, .idle⟩⟩ := by
  simp only [step] at h
  split at h
  · rename_i r r' hi hj
    split at h
    · rename_i hc
      exact ⟨r, r', hi, hj, hc.1, hc.2.1, by simpa using hc.2.2, (Option.some.inj h).symm⟩
    · cases h
  · cases h

omit [DecidableEq ι] [Inhabited V] in
theorem Reservation.branch_cases (r : Reservation V) :
    r.branch = .dropTest ∨ r.branch = .alterStore ∨ r.branch = .createRead := by
  simp only [branch]
  split
  · split <;> simp
  · simp

omit [DecidableEq ι] [Inhabited V] in
theorem Reservation.Creating.branch {r : Reservation V} (h : r.Creating) :
    r.branch = .createRead := by
  simp [Reservation.branch, h.2.2.1]

omit [DecidableEq ι] [Inhabited V] in
theorem Reservation.Holding.branch {r : Reservation V} {b : Bool} (h : r.Holding b) :
    r.branch = if b then .dropTest else .alterStore := by
  simp [Reservation.branch, h.index_ne, h.2.1]

/-- A CREATE reaches its test for emptiness with the size it has just read. -/
theorem act_createTest {i : ι} {a : Act V} {d d' : InternalData ι V} {t t' : Thread V} {n : Nat}
    (h : act i a d t = some (d', t')) (hpc : t'.pc = .createTest n) : d.tableCount = n := by
  obtain ⟨r, pc⟩ := t
  obtain ⟨rfl, ht⟩ | ⟨rfl, hc⟩ := act_eq_some h
  · cases pc <;> simp only [tick] at ht <;> (repeat' split at ht) <;> cases ht <;> simp at hpc
    exact hpc
  · have hb := r.branch_cases
    cases a <;> simp only [call] at hc <;> (repeat' split at hc) <;> cases hc <;> simp at hpc
    simp [hpc] at hb

/-- A CREATE goes for the first slot when it finds the container empty. -/
theorem act_innerLock {i : ι} {a : Act V} {d d' : InternalData ι V} {t t' : Thread V} {n : Nat}
    (h : act i a d t = some (d', t')) (hpc : t'.pc = .innerLock n false) : d.tableCount = 0 := by
  obtain ⟨r, pc⟩ := t
  obtain ⟨rfl, ht⟩ | ⟨rfl, hc⟩ := act_eq_some h
  · cases pc <;> simp only [tick] at ht <;> (repeat' split at ht) <;> cases ht <;> simp at hpc
    assumption
  · have hb := r.branch_cases
    cases a <;> simp only [call] at hc <;> (repeat' split at hc) <;> cases hc <;> simp at hpc
    simp [hpc] at hb

/-- What each handle's own steps keep, and what a move leaves behind, holds of every handle. -/
theorem step_threads {P : Thread V → Prop} {s s' : State ι V} {l : Label ι V}
    (h : step s l = some s') (hmoved : ∀ r, P ⟨r, .idle⟩ → P ⟨r.movedFrom, .idle⟩)
    (hact : ∀ i a d' t', l = .run i a → act i a s.data (s.threads i) = some (d', t') → P t')
    (hp : ∀ i, P (s.threads i)) (i : ι) : P (s'.threads i) := by
  cases l with
  | run j a =>
    obtain ⟨d', t', ha, rfl⟩ := step_run.mp h
    by_cases hi : i = j
    · simpa [hi] using hact j a d' t' rfl ha
    · simpa [hi] using hp i
  | move j k =>
    obtain ⟨r, r', hj, _, _, _, _, rfl⟩ := step_move h
    have hr : P ⟨r, .idle⟩ := hj ▸ hp j
    simp only [Function.update_apply]
    split
    · exact hr
    · split
      · exact hmoved r hr
      · exact hp i

end Steps
end PStress.Metadata
