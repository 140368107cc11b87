import PStress.Metadata.Alone

/-! `Reservation` objects on one `Metadata`: they are made, moved, completed, cancelled and
destroyed, one operation after the other. -/
namespace PStress.Metadata
variable {ι V : Type}

/-- `MetadataException`. -/
structure MetadataException where
  message : String
  deriving DecidableEq, Repr

/-- What `complete()` checks before it changes anything. -/
def Reservation.check (r : Reservation V) : Except MetadataException Unit :=
  if r.storage = false then .error ⟨"Complete on invalid reservation"⟩
  else if r.lock.isNone && r.index != npos then .error ⟨"Double complete not allowed"⟩
  else .ok ()

/-- A `unique_lock` that is destroyed or overwritten releases the mutex it owns. -/
def InternalData.release (d : InternalData ι V) : Option Nat → InternalData ι V
  | none => d
  | some k => d.unlock k

/-- The data and the objects; there is none where an object is not constructed yet or already
destroyed. -/
structure Objects (ι V : Type) where
  data : InternalData ι V
  handles : ι → Option (Reservation V)

/-- The operations on the objects; a move takes from the second one. `edit` is an edit through
`table()`. -/
inductive Op (ι V : Type) where
  | construct (j : ι)
  | createTable (j : ι)
  | alterTable (j : ι) (idx : Nat)
  | dropTable (j : ι) (idx : Nat)
  | edit (i : ι) (f : V → V)
  | moveConstruct (j i : ι)
  | moveAssign (j i : ι)
  | complete (i : ι)
  | cancel (i : ι)
  | destroy (i : ι)

variable [DecidableEq ι]

def Objects.put (s : Objects ι V) (d : InternalData ι V) (i : ι) (x : Option (Reservation V)) :
    Objects ι V :=
  ⟨d, Function.update s.handles i x⟩

def Objects.take (s : Objects ι V) (d : InternalData ι V) (j i : ι) (r : Reservation V) :
    Objects ι V :=
  ⟨d.handOver r.lock j, Function.update (Function.update s.handles i (some r.movedFrom)) j (some r)⟩

variable [Inhabited V]

/-- An object made from what `createTable`, `alterTable` or `dropTable` returns. -/
def Objects.make (s : Objects ι V) (steps : Nat) (j : ι) (a : Act V) : Option (Objects ι V) :=
  if (s.handles j).isNone then
    (invoke j steps a s.data .closed).map fun y => s.put y.1 j (some y.2)
  else none

/-- One operation, in at most the given number of steps; `none` if there is no such object, or if
the operation waits for a slot another object owns. -/
def operate (steps : Nat) (s : Objects ι V) :
    Op ι V → Option (Except MetadataException Unit × Objects ι V)
  | .construct j =>
    if (s.handles j).isNone then some (.ok (), s.put s.data j (some .closed)) else none
  | .createTable j => (s.make steps j .createTable).map fun s' => (.ok (), s')
  | .alterTable j idx => (s.make steps j (.alterTable idx)).map fun s' => (.ok (), s')
  | .dropTable j idx => (s.make steps j (.dropTable idx)).map fun s' => (.ok (), s')
  | .edit i f => (s.handles i).bind fun r =>
    (invoke i steps (.edit f) s.data r).map fun y => (.ok (), s.put y.1 i (some y.2))
  | .moveConstruct j i =>
    match s.handles i, s.handles j with
    | some r, none => some (.ok (), s.take s.data j i r)
    | _, _ => none
  | .moveAssign j i =>
    match s.handles i, s.handles j with
    | some r, some r' =>
      -- an object moved to itself has released its mutex before it takes it over
      some (.ok (), if i = j then s.put (s.data.release r.lock) i (some r.movedFrom)
        else s.take (s.data.release r'.lock) j i r)
    | _, _ => none
  | .complete i => (s.handles i).bind fun r =>
    match r.check with
    | .error e => some (.error e, s)
    | .ok _ => (invoke i steps .complete s.data r).map fun y => (.ok (), s.put y.1 i (some y.2))
  | .cancel i => (s.handles i).map fun r =>
    (.ok (), s.put (cancel s.data r).1 i (some (cancel s.data r).2))
  | .destroy i => (s.handles i).bind fun r =>
    if r.isOpen then
      (invoke i steps .complete s.data r).map fun y => (.ok (), s.put (y.1.release y.2.lock) i none)
    else some (.ok (), s.put (s.data.release r.lock) i none)

/-- The objects after an operation; an exception is caught. -/
def after (steps : Nat) (s : Objects ι V) (o : Op ι V) : Option (Objects ι V) :=
  (operate steps s o).map Prod.snd

def GapFree.objects (g : GapFree V) : Objects ι V := ⟨g.data, fun _ => none⟩

omit [DecidableEq ι] [Inhabited V] in
theorem Reservation.check_open {r : Reservation V} (h : r.isOpen = true) : r.check = .ok () := by
  simp only [isOpen, Bool.and_eq_true, Bool.or_eq_true, beq_iff_eq] at h
  obtain ⟨hs, hl | hi⟩ := h
  · simp [check, hs, Option.isSome_iff_ne_none.mp hl]
  · simp [check, hs, hi]

omit [DecidableEq ι] [Inhabited V] in
theorem Reservation.check_not_open {r : Reservation V} (h : r.isOpen = false) :
    ∃ e, r.check = .error e := by
  simp only [check]
  split
  · exact ⟨_, rfl⟩
  · rename_i hs
    refine ⟨_, if_pos ?_⟩
    cases hl : r.lock <;> simp_all [isOpen]

/-- `complete()` throws and `cancel()` does nothing on an object that is not open. -/
theorem operate_not_open (steps : Nat) {s : Objects ι V} {i : ι} {r : Reservation V}
    (hi : s.handles i = some r) (hr : r.Settled) :
    (∃ e, operate steps s (.complete i) = some (.error e, s)) ∧
      operate steps s (.cancel i) = some (.ok (), s.put s.data i (some r.cancelled)) := by
  obtain ⟨e, he⟩ := Reservation.check_not_open hr.not_open
  refine ⟨⟨e, by simp [operate, hi, he]⟩, ?_⟩
  obtain ⟨hl, hs | hn⟩ := hr
  · simp [operate, hi, cancel, hl, hs]
  · simp [operate, hi, cancel, hl, hn]

end PStress.Metadata
