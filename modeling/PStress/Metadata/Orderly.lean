import PStress.Metadata.Capacity
import PStress.Metadata.Objects
import PStress.Metadata.Slots

/-! `Reservation` objects between two operations: who owns which mutex, who has reserved a place,
and what an operation does to the list of tables the slots hold. -/
namespace PStress.Metadata
open Interleaving
variable {ι V : Type}

def Reservation.effect (r : Reservation V) (cs : List (TablePtr V)) : List (TablePtr V) :=
  if r.index = npos then cs ++ r.table.toList
  else if r.drop then swapRemove cs r.index
  else r.table.elim cs fun p => cs.set r.index p

/-- The places an object has reserved beyond `tableCount`. -/
def placesOf : Option (Reservation V) → Nat
  | some r => Thread.creates ⟨r, .idle⟩
  | none => 0

theorem placesOf_creating {r : Reservation V} (h : r.Creating) : placesOf (some r) = 1 :=
  creates_creating h

private theorem placesOf_holding {r : Reservation V} {b : Bool} (h : r.Holding b) :
    placesOf (some r) = 0 :=
  creates_holding h

/-- What is known of an object between two operations. -/
def Fit (cs : List (TablePtr V)) (r : Reservation V) : Prop :=
  r.Settled ∨ r.Creating ∨ ∃ b, r.Holding b ∧ r.index < cs.length

/-- The slots are a list without gaps, the objects own the mutexes, and the places they have
reserved are those `reservedSize` counts beyond the stored tables. -/
structure Orderly [Fintype ι] (s : Objects ι V) (cs : List (TablePtr V)) : Prop where
  cell : ∀ k, s.data.tables k = cs[k]?
  count : s.data.tableCount = cs.length
  writer : ∀ k i, (s.data.tableLocks k).writer = some i ↔
    (s.handles i).bind Reservation.lock = some k
  readers : ∀ k, (s.data.tableLocks k).readers = ∅
  fit : ∀ i r, s.handles i = some r → Fit cs r
  reserved : s.data.reservedSize = cs.length + total Finset.univ placesOf s.handles
  room : s.data.reservedSize ≤ maximumTableCount

section Changes
variable [DecidableEq ι] [Fintype ι] {s : Objects ι V} {cs cs' : List (TablePtr V)}
  {d : InternalData ι V} {i j : ι} {r r' : Reservation V} {x : Option (Reservation V)}

theorem Fit.mono (h : Fit cs r) (hl : ∀ b, r.Holding b → r.index < cs.length →
    r.index < cs'.length) : Fit cs' r :=
  h.imp_right (Or.imp_right fun ⟨b, hb, hk⟩ => ⟨b, hb, hl b hb hk⟩)

/-- One object changes. -/
theorem Orderly.put (h : Orderly s cs) (hcell : ∀ k, d.tables k = cs'[k]?)
    (hcount : d.tableCount = cs'.length)
    (hown : ∀ k, (d.tableLocks k).writer = some i ↔ x.bind Reservation.lock = some k)
    (hleft : ∀ k j, j ≠ i → ((d.tableLocks k).writer = some j ↔
      (s.data.tableLocks k).writer = some j))
    (hreaders : ∀ k, (d.tableLocks k).readers = ∅) (hx : ∀ r, x = some r → Fit cs' r)
    (hothers : ∀ j r, j ≠ i → s.handles j = some r → Fit cs' r)
    (hreserved : d.reservedSize + cs.length + placesOf (s.handles i) =
      s.data.reservedSize + cs'.length + placesOf x)
    (hroom : d.reservedSize ≤ maximumTableCount) : Orderly (s.put d i x) cs' where
  cell := hcell
  count := hcount
  writer k j := by
    by_cases hj : j = i
    · subst hj
      simpa [Objects.put] using hown k
    · simpa [Objects.put, hj, ← h.writer] using hleft k j hj
  readers := hreaders
  fit j r hr := by
    by_cases hj : j = i
    · subst hj
      exact hx r (by simpa [Objects.put] using hr)
    · exact hothers j r hj (by simpa [Objects.put, hj] using hr)
  reserved := by
    have hu := total_update placesOf s.handles (Finset.mem_univ i) x
    have hres := h.reserved
    simp only [Objects.put]
    omega
  room := hroom

def Inert (x : Option (Reservation V)) : Prop := ∀ r, x = some r → r.Settled

omit [DecidableEq ι] [Fintype ι] in
theorem inert_none : Inert (none : Option (Reservation V)) := by simp [Inert]

theorem inert_some (h : r.Settled) : Inert (some r) := by
  intro r' hr
  cases hr
  exact h

theorem Inert.lock (h : Inert x) : x.bind Reservation.lock = none := by
  cases x with
  | none => rfl
  | some r => exact (h r rfl).1

theorem Inert.places (h : Inert x) : placesOf x = 0 := by
  cases x with
  | none => rfl
  | some r => exact creates_settled (h r rfl)

theorem Inert.fit (h : Inert x) (r : Reservation V) (hr : x = some r) : Fit cs r :=
  .inl (h r hr)

theorem Orderly.exchange (h : Orderly s cs) (hi : Inert (s.handles i)) (hx : Inert x) :
    Orderly (s.put s.data i x) cs := by
  refine h.put h.cell h.count (fun k => ?_) (fun _ _ _ => .rfl) h.readers hx.fit
    (fun j r _ => h.fit j r) ?_ h.room
  · rw [h.writer, hi.lock, hx.lock]
  · rw [hi.places, hx.places]

/-- A CREATE is granted. -/
theorem Orderly.granted (h : Orderly s cs) (hi : Inert (s.handles i))
    (hroom : s.data.reservedSize < maximumTableCount) (hr : r.Creating) :
    Orderly (s.put (s.data.grant (s.data.reservedSize + 1)) i (some r)) cs := by
  refine h.put h.cell h.count (fun k => ?_) (fun _ _ _ => .rfl) h.readers ?_
    (fun j r _ => h.fit j r) ?_ hroom
  · simp [h.writer, hi.lock, hr.2.2.2.1]
  · intro r' hr'
    cases hr'
    exact .inr (.inl hr)
  · simp only [InternalData.grant_reservedSize, hi.places, placesOf_creating hr]
    omega

/-- A slot is reserved for an ALTER or a DROP. -/
theorem Orderly.reserved_slot (h : Orderly s cs) (hi : Inert (s.handles i))
    (hfree : (s.data.tableLocks r.index).writer = none) {b : Bool} (hr : r.Holding b)
    (hlt : r.index < cs.length) : Orderly (s.put (s.data.lock r.index i) i (some r)) cs := by
  refine h.put h.cell h.count (fun k => ?_) (fun k j hj => ?_) (fun k => ?_) ?_
    (fun j r _ => h.fit j r) ?_ h.room
  · by_cases hk : k = r.index
    · simp [hk, hr.2.2.1]
    · simp [hk, hr.2.2.1, h.writer, hi.lock, Ne.symm hk]
  · by_cases hk : k = r.index <;> simp [hk, hfree, Ne.symm hj]
  · by_cases hk : k = r.index <;> simp [hk, h.readers]
  · intro r' hr'
    cases hr'
    exact .inr (.inr ⟨b, hr, hlt⟩)
  · simp [hi.places, placesOf_holding hr]

private theorem Orderly.given_back (h : Orderly s cs) (hi : s.handles i = some r) (hr : r.Creating)
    (hx : Inert x) :
    Orderly (s.put (s.data.setReservedSize (decrement s.data.reservedSize)) i x) cs := by
  have hone : placesOf (s.handles i) = 1 := by rw [hi, placesOf_creating hr]
  have hpos : 0 < s.data.reservedSize := by
    have hle := le_total placesOf s.handles (Finset.mem_univ i)
    have hres := h.reserved
    omega
  have hroom := h.room
  refine h.put h.cell h.count (fun k => ?_) (fun _ _ _ => .rfl) h.readers hx.fit
    (fun j r _ => h.fit j r) ?_ ?_
  · simp [h.writer, hi, hx.lock, hr.2.2.2.1]
  · simp only [InternalData.setReservedSize_reservedSize, hx.places, hone,
      decrement_of_pos hpos]
    omega
  · simp only [InternalData.setReservedSize_reservedSize, decrement_of_pos hpos]
    omega

private theorem Orderly.put_inert (h : Orderly s cs) (hx : Inert x)
    (hcell : ∀ k, d.tables k = cs'[k]?) (hcount : d.tableCount = cs'.length)
    (hwriter : ∀ k, (d.tableLocks k).writer =
      if (s.data.tableLocks k).writer = some i then none else (s.data.tableLocks k).writer)
    (hreaders : ∀ k, (d.tableLocks k).readers = ∅)
    (hothers : ∀ j r, j ≠ i → s.handles j = some r → Fit cs' r)
    (hreserved : d.reservedSize + cs.length + placesOf (s.handles i) =
      s.data.reservedSize + cs'.length)
    (hroom : d.reservedSize ≤ maximumTableCount) : Orderly (s.put d i x) cs' := by
  refine h.put hcell hcount (fun k => ?_) (fun k j hj => ?_) hreaders hx.fit hothers ?_ hroom
  · rw [hwriter, hx.lock]
    split <;> simp [*]
  · rw [hwriter]
    split
    · simp [*, Ne.symm hj]
    · rfl
  · rw [hx.places]
    exact hreserved

omit [DecidableEq ι] in
theorem Orderly.owns (h : Orderly s cs) (hi : s.handles i = some r) {b : Bool} (hr : r.Holding b) :
    (s.data.tableLocks r.index).writer = some i ∧
      ∀ k, (s.data.tableLocks k).writer = some i → k = r.index := by
  refine ⟨by simp [h.writer, hi, hr.2.2.1], fun k hk => ?_⟩
  simpa [h.writer, hi, hr.2.2.1, eq_comm] using hk

omit [DecidableEq ι] in
/-- The mutexes after the one of a slot is released. -/
theorem Orderly.unlocked [DecidableEq ι] (h : Orderly s cs) (hi : s.handles i = some r) {b : Bool}
    (hr : r.Holding b) :
    (∀ k, ((s.data.unlock r.index).tableLocks k).writer =
      if (s.data.tableLocks k).writer = some i then none else (s.data.tableLocks k).writer) ∧
      ∀ k, ((s.data.unlock r.index).tableLocks k).readers = ∅ := by
  obtain ⟨hw, hk⟩ := h.owns hi hr
  refine ⟨fun k => ?_, fun k => ?_⟩
  · by_cases he : k = r.index
    · simp [he, hw]
    · simp [he, mt (hk k) he]
  · by_cases he : k = r.index <;> simp [he, h.readers]

/-- The mutex of a slot is released and nothing else happens. -/
theorem Orderly.released (h : Orderly s cs) (hi : s.handles i = some r) {b : Bool}
    (hr : r.Holding b) (hx : Inert x) : Orderly (s.put (s.data.unlock r.index) i x) cs := by
  obtain ⟨hw, hread⟩ := h.unlocked hi hr
  refine h.put_inert hx h.cell h.count hw hread (fun j r _ => h.fit j r) ?_ h.room
  simp [hi, placesOf_holding hr]

/-- An ALTER stores its copy. -/
theorem Orderly.altered (h : Orderly s cs) (hi : s.handles i = some r) (hr : r.Holding false)
    (hlt : r.index < cs.length) (hx : Inert x) :
    Orderly (s.put ((s.data.store r.index r.table).unlock r.index) i x) (r.effect cs) := by
  obtain ⟨hw, hread⟩ := h.unlocked hi hr
  obtain ⟨p, hp⟩ : ∃ p, r.table = some p := Option.isSome_iff_exists.mp hr.2.2.2.2
  have heffect : r.effect cs = cs.set r.index p := by
    simp [Reservation.effect, hr.index_ne, hr.2.1, hp]
  rw [heffect]
  refine h.put_inert hx (fun k => ?_) ?_ hw hread (fun j r' _ hr' => ?_) ?_ h.room
  · by_cases he : k = r.index
    · simp [he, hp, hlt]
    · simp [he, h.cell, Ne.symm he]
  · simp [h.count]
  · exact (h.fit j r' hr').mono fun _ _ hlt => by simpa using hlt
  · simp [hi, placesOf_holding hr]

omit [DecidableEq ι] in
/-- What a DROP takes out. -/
theorem Orderly.removes (h : Orderly s cs) (hr : r.Holding true) (hpos : 0 < cs.length) :
    r.effect cs = swapRemove cs r.index ∧ 0 < s.data.reservedSize := by
  have hres := h.reserved
  exact ⟨by simp [Reservation.effect, hr.index_ne, hr.2.1], by omega⟩

private theorem Orderly.dropped_last (h : Orderly s cs) (hi : s.handles i = some r)
    (hr : r.Holding true) (hlen : cs.length = r.index + 1) (hx : Inert x) :
    Orderly (s.put (((((s.data.store r.index none).setTableCount r.index).setReservedSize
      (decrement s.data.reservedSize)).setMoved r.index npos).unlock r.index) i x)
        (r.effect cs) := by
  obtain ⟨hw, hread⟩ := h.unlocked hi hr
  obtain ⟨heffect, hpos⟩ := h.removes hr (by omega)
  have hroom := h.room
  rw [heffect]
  refine h.put_inert hx (fun k => ?_) ?_ hw hread (fun j r' hj hr' => ?_) ?_ ?_
  · by_cases he : k = r.index
    · simp [he, hlen]
    · simp [he, h.cell, getElem?_swapRemove_of_ne cs he (by omega)]
  · simp [hlen]
  · refine (h.fit j r' hr').mono fun b hb hlt => ?_
    have hne : r'.index ≠ r.index := fun he => hj ?_
    · simp
      omega
    · exact Option.some.inj ((h.owns hr' hb).1.symm.trans (he ▸ (h.owns hi hr).1))
  · simp [hi, placesOf_holding hr, decrement_of_pos hpos, hlen]
    omega
  · simp [decrement_of_pos hpos]
    omega

private theorem Orderly.dropped_moved (h : Orderly s cs) (hi : s.handles i = some r)
    (hr : r.Holding true) {l : Nat} (hlen : cs.length = l + 1) (hlt : r.index < l)
    (hfree : (s.data.tableLocks l).free = true) (hx : Inert x) :
    Orderly (s.put ((((((((s.data.lock l i).store r.index (s.data.tables l)).unlock
      r.index).setTableCount l).setReservedSize (decrement s.data.reservedSize)).store l
        none).setMoved l r.index).unlock l) i x) (r.effect cs) := by
  obtain ⟨hw, hread⟩ := h.unlocked hi hr
  have hl : (s.data.tableLocks l).writer = none := (SharedMutex.free_iff.mp hfree).1
  obtain ⟨heffect, hpos⟩ := h.removes hr (by omega)
  have hroom := h.room
  have hne : r.index ≠ l := hlt.ne
  -- the mutex of the last slot was free and is free again
  have hlocks : ((s.data.lock l i).unlock r.index).unlock l = s.data.unlock r.index := by
    rw [InternalData.unlock_lock_of_ne _ hne, InternalData.unlock_lock]
    exact InternalData.unlock_free (by simpa [hne.symm] using hl)
  rw [← hlocks] at hw hread
  rw [heffect]
  refine h.put_inert hx (fun k => ?_) ?_ hw hread (fun j r' hj hr' => ?_) ?_ ?_
  · by_cases hkl : k = l
    · simp [hkl, hlen]
    · by_cases he : k = r.index
      · have hlt' : r.index + 1 < cs.length := by omega
        simp [he, hne, h.cell, getElem?_swapRemove cs hlt', hlen]
      · simp [he, hkl, h.cell, getElem?_swapRemove_of_ne cs he (by omega)]
  · simp [hlen]
  · refine (h.fit j r' hr').mono fun b hb hlt' => ?_
    have hne' : r'.index ≠ l := fun he => by simpa [he, hl] using (h.owns hr' hb).1
    simp
    omega
  · simp [hi, placesOf_holding hr, decrement_of_pos hpos, hlen]
    omega
  · simp [decrement_of_pos hpos]
    omega

omit [DecidableEq ι] in
/-- What a CREATE adds. -/
theorem Orderly.appends [DecidableEq ι] (h : Orderly s cs) (hi : s.handles i = some r)
    (hr : r.Creating) :
    ∃ p, r.table = some p ∧ r.effect cs = cs ++ [p] ∧ cs.length < maximumTableCount ∧
      ∀ k, (s.data.tableLocks k).writer =
        if (s.data.tableLocks k).writer = some i then none else (s.data.tableLocks k).writer := by
  obtain ⟨p, hp⟩ : ∃ p, r.table = some p := Option.isSome_iff_exists.mp hr.2.2.2.2
  have hle := le_total placesOf s.handles (Finset.mem_univ i)
  have hres := h.reserved
  have hroom := h.room
  rw [hi, placesOf_creating hr] at hle
  refine ⟨p, hp, by simp [Reservation.effect, hr.2.2.1, hp], by omega, fun k => (if_neg ?_).symm⟩
  simp [h.writer, hi, hr.2.2.2.1]

private theorem Orderly.created_first (h : Orderly s cs) (hi : s.handles i = some r)
    (hr : r.Creating) (hlen : cs.length = 0) (hfree : (s.data.tableLocks 0).free = true)
    (hx : Inert x) :
    Orderly (s.put ((((s.data.lock 0 i).store 0 r.table).setTableCount 1).unlock 0) i x)
      (r.effect cs) := by
  obtain ⟨p, hp, heffect, hlt, hw⟩ := h.appends hi hr
  have hlocks : (s.data.lock 0 i).unlock 0 = s.data := by
    rw [InternalData.unlock_lock, InternalData.unlock_free (SharedMutex.free_iff.mp hfree).1]
  obtain rfl : cs = [] := List.eq_nil_of_length_eq_zero hlen
  have hread := h.readers
  rw [← hlocks] at hread
  rw [heffect]
  refine h.put_inert hx (fun k => ?_) ?_ (fun k => ?_) hread (fun j r' _ hr' => ?_) ?_ h.room
  · cases k <;> simp [hp, h.cell]
  · simp
  · exact (congrArg (fun d => (InternalData.tableLocks d k).writer) hlocks).trans (hw k)
  · exact (h.fit j r' hr').mono fun _ _ hlt => by simp at hlt
  · simp [hi, placesOf_creating hr]

private theorem Orderly.created_next (h : Orderly s cs) (hi : s.handles i = some r)
    (hr : r.Creating) {n : Nat} (hlen : cs.length = n + 1) (hn : (s.data.tableLocks n).free = true)
    (hn' : (s.data.tableLocks (n + 1)).free = true) (hx : Inert x) :
    Orderly (s.put ((((((s.data.lock n i).lock (n + 1) i).store (n + 1) r.table).setTableCount
      (n + 2)).unlock (n + 1)).unlock n) i x) (r.effect cs) := by
  obtain ⟨p, hp, heffect, hlt, hw⟩ := h.appends hi hr
  have hlocks : (((s.data.lock n i).lock (n + 1) i).unlock (n + 1)).unlock n = s.data := by
    rw [InternalData.unlock_lock, InternalData.unlock_lock_of_ne _ (by omega),
      InternalData.unlock_lock, InternalData.unlock_free (SharedMutex.free_iff.mp hn').1,
      InternalData.unlock_free (SharedMutex.free_iff.mp hn).1]
  have hread := h.readers
  rw [← hlocks] at hread
  rw [heffect]
  refine h.put_inert hx (fun k => ?_) ?_ (fun k => ?_) hread (fun j r' _ hr' => ?_) ?_ h.room
  · by_cases hk : k = n + 1
    · simp [hk, hp, ← hlen]
    · by_cases hk' : k < cs.length
      · simp [hk, h.cell, List.getElem?_append_left hk']
      · simp [hk, h.cell, List.getElem?_eq_none (show cs.length ≤ k by omega)]
        omega
  · simp [hlen]
  · exact (congrArg (fun d => (InternalData.tableLocks d k).writer) hlocks).trans (hw k)
  · exact (h.fit j r' hr').mono fun _ _ hlt => by simp; omega
  · simp [hi, placesOf_creating hr]
    omega

section Completed
variable [Inhabited V] {y : InternalData ι V × Reservation V}

private theorem Orderly.create_completed (h : Orderly s cs) (hi : s.handles i = some r)
    (hr : r.Creating) (hy : Settles i s.data ⟨r, .createRead⟩ y) :
    y.2.Settled ∧ ∀ x, Inert x → Orderly (s.put y.1 i x) (r.effect cs) := by
  obtain ⟨_, _, _, hroom, _⟩ := h.appends hi hr
  cases hlen : cs.length with
  | zero =>
    obtain ⟨hfree, rfl⟩ := (createFirst_settles (h.count.trans hlen)).mp hy
    have hindex : 0 ≠ npos := by decide
    exact ⟨⟨hr.2.2.2.1, .inr hindex⟩, fun x hx => h.created_first hi hr hlen hfree hx⟩
  | succ n =>
    have hsome : (s.data.tables n).isSome = true := by simp [h.cell, hlen]
    obtain ⟨hn, hn', rfl⟩ := (createNext_settles (h.count.trans hlen) (by omega) hsome).mp hy
    have hindex : n + 1 ≠ npos :=
      ((show n + 1 < maximumTableCount by omega).trans maximumTableCount_lt_npos).ne
    exact ⟨⟨hr.2.2.2.1, .inr hindex⟩, fun x hx => h.created_next hi hr hlen hn hn' hx⟩

private theorem Orderly.drop_completed (h : Orderly s cs) (hi : s.handles i = some r)
    (hr : r.Holding true) (hlt : r.index < cs.length) (hy : Settles i s.data ⟨r, .dropTest⟩ y) :
    y.2.Settled ∧ ∀ x, Inert x → Orderly (s.put y.1 i x) (r.effect cs) := by
  obtain ⟨l, hlen⟩ : ∃ l, cs.length = l + 1 := Nat.exists_eq_add_one.mpr (Nat.zero_lt_of_lt hlt)
  have hroom : cs.length ≤ maximumTableCount := by
    have hres := h.reserved
    have hmax := h.room
    omega
  by_cases hlast : r.index = l
  · subst hlast
    obtain rfl := (dropLast_settles (h.count.trans hlen)).mp hy
    exact ⟨⟨rfl, .inr hr.index_ne⟩, fun x hx => h.dropped_last hi hr hlen hx⟩
  · have hsome : (s.data.tables l).isSome = true := by simp [h.cell, hlen]
    obtain ⟨hfree, rfl⟩ := (dropMoved_settles (h.count.trans hlen) hlast (by omega) hsome).mp hy
    exact ⟨⟨rfl, .inr hr.index_ne⟩, fun x hx => h.dropped_moved hi hr hlen (by omega) hfree hx⟩

/-- `complete()` applies the change of a reservation, and nothing else happens. -/
theorem Orderly.completed (h : Orderly s cs) (hi : s.handles i = some r) (hopen : r.isOpen = true)
    (hy : Settles i s.data ⟨r, r.branch⟩ y) :
    y.2.Settled ∧ ∀ x, Inert x → Orderly (s.put y.1 i x) (r.effect cs) := by
  obtain hs | hc | ⟨b, hb, hlt⟩ := h.fit i r hi
  · simp [hs.not_open] at hopen
  · rw [hc.branch] at hy
    exact h.create_completed hi hc hy
  · rw [hb.branch] at hy
    cases b with
    | false =>
      obtain rfl := alter_settles.mp hy
      exact ⟨⟨rfl, .inr hb.index_ne⟩, fun x hx => h.altered hi hb hlt hx⟩
    | true => exact h.drop_completed hi hb hlt hy

end Completed

/-- `cancel()` gives the place or the mutex back. -/
theorem Orderly.cancelled (h : Orderly s cs) (hi : s.handles i = some r) (hx : Inert x) :
    Orderly (s.put (cancel s.data r).1 i x) cs := by
  obtain hs | hc | ⟨_, hb, _⟩ := h.fit i r hi
  · rw [show (cancel s.data r).1 = s.data by
      obtain ⟨hl, hs | hn⟩ := hs <;> simp [cancel, *]]
    exact h.exchange (hi ▸ inert_some hs) hx
  · rw [show (cancel s.data r).1 = s.data.setReservedSize (decrement s.data.reservedSize) by
      simp [cancel, hc.1, hc.2.2.1, hc.2.2.2.1]]
    exact h.given_back hi hc hx
  · rw [show (cancel s.data r).1 = s.data.unlock r.index by
      simp [cancel, hb.index_ne, hb.2.2.1]]
    exact h.released hi hb hx

/-- What an object reserved passes to another one. -/
theorem Orderly.taken (h : Orderly s cs) (hi : s.handles i = some r) (hij : i ≠ j)
    (hj : Inert (s.handles j)) : Orderly (s.take s.data j i r) cs where
  cell k := by simpa [Objects.take, handOver_tables] using h.cell k
  count := by simpa [Objects.take, handOver_counts] using h.count
  writer k l := by
    have howner : (s.data.tableLocks k).writer = some i ↔ r.lock = some k := by
      simp [h.writer, hi]
    have hnone : (s.data.tableLocks k).writer ≠ some j := by simp [h.writer, hj.lock]
    simp only [Objects.take, handOver_writer, Option.mem_toList]
    by_cases hl : l = j
    · subst hl
      simp only [Function.update_self, Option.bind_some]
      split <;> simp [*]
    · rw [Function.update_of_ne hl]
      by_cases hl' : l = i
      · subst hl'
        split <;> simp [*, Ne.symm hl, Reservation.movedFrom]
      · rw [Function.update_of_ne hl', ← h.writer]
        split
        · rename_i hk
          simp [howner.mpr hk, Ne.symm hl, Ne.symm hl']
        · rfl
  readers k := by simpa [Objects.take, handOver_readers] using h.readers k
  fit l r' hr' := by
    by_cases hl : l = j
    · subst hl
      obtain rfl : r = r' := by simpa [Objects.take] using hr'
      exact h.fit i r hi
    · by_cases hl' : l = i
      · subst hl'
        obtain rfl : r.movedFrom = r' := by simpa [Objects.take, hl] using hr'
        exact .inl (Reservation.settled_movedFrom r)
      · exact h.fit l r' (by simpa [Objects.take, hl, hl'] using hr')
  reserved := by
    have hmoved : placesOf (some r.movedFrom) = placesOf (s.handles j) := by
      rw [hj.places]
      exact creates_settled (Reservation.settled_movedFrom r)
    have htotal := total_transfer placesOf s.handles (Finset.mem_univ i) (Finset.mem_univ j) hij
      hmoved
    rw [hi] at htotal
    simpa [Objects.take, handOver_counts, htotal] using h.reserved
  room := by simpa [Objects.take, handOver_counts] using h.room

end Changes
end PStress.Metadata
