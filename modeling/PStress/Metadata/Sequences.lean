import PStress.Interleaving.Reach
import PStress.Metadata.Tickets

/-! Sequences of operations on `Reservation` objects. -/
namespace PStress.Metadata
open Interleaving
variable {ι V : Type} [DecidableEq ι] [Inhabited V] [Fintype ι] {steps : Nat}
  {base : List (TablePtr V)} {s s' : Objects ι V} {b : Tickets ι V} {i j : ι} {r : Reservation V}
  {d : InternalData ι V} {y : InternalData ι V × Reservation V}

omit [Fintype ι] in
private theorem invoke_settles {a : Act V} (h : invoke i steps a d r = some y) :
    ∃ d' t, call d r a = some (d', t) ∧ Settles i d' t y := by
  obtain ⟨⟨d', t⟩, hc, hs⟩ := Option.bind_eq_some_iff.mp h
  exact ⟨d', t, hc, steps, hs⟩

omit [Fintype ι] in
theorem invoke_complete (h : invoke i steps .complete d r = some y) :
    r.isOpen = true ∧ Settles i d ⟨r, r.branch⟩ y := by
  obtain ⟨d', t, hc, hs⟩ := invoke_settles h
  simp only [call] at hc
  split at hc <;> cases hc
  exact ⟨by assumption, hs⟩

omit [Fintype ι] in
/-- What `createTable()` returns. -/
theorem invoke_createTable (h : invoke i steps .createTable d r = some y) :
    (d.reservedSize < maximumTableCount ∧ y = (d.grant (d.reservedSize + 1),
      ⟨true, some ⟨d.nextTable, default⟩, false, npos, none⟩)) ∨
        (maximumTableCount ≤ d.reservedSize ∧ y = (d, .closed)) := by
  obtain ⟨d', t, hc, hs⟩ := invoke_settles h
  simp only [call] at hc
  (repeat' split at hc) <;> cases hc
  · rename_i hroom
    exact .inl ⟨hroom, (reserve_settles hroom).mp hs⟩
  · rename_i hroom
    exact .inr ⟨Nat.le_of_not_lt hroom, settles_idle.mp hs⟩

omit [Fintype ι] in
/-- What `alterTable(idx)` and `dropTable(idx)` return. -/
theorem acquired {drop : Bool} {k : Nat} (h : Settles i d ⟨r, .acquire drop k⟩ y) :
    (d.tableLocks k).free = true ∧
      ((∃ p, d.tables k = some p ∧ y = (d.lock k i, ⟨true, some p, drop, k, some k⟩)) ∨
        (d.tables k = none ∧ y = (d, .closed))) := by
  cases hp : d.tables k with
  | none =>
    obtain ⟨hfree, rfl⟩ := (acquire_settles_empty hp).mp h
    refine ⟨hfree, .inr ⟨rfl, ?_⟩⟩
    rw [InternalData.unlock_lock, InternalData.unlock_free (SharedMutex.free_iff.mp hfree).1]
  | some p =>
    obtain ⟨hfree, rfl⟩ := (acquire_settles hp).mp h
    exact ⟨hfree, .inl ⟨p, rfl, rfl⟩⟩

omit [Fintype ι] in
theorem Objects.make_eq_some {a : Act V} (h : s.make steps j a = some s') :
    s.handles j = none ∧ ∃ y, invoke j steps a s.data .closed = some y ∧
      s' = s.put y.1 j (some y.2) := by
  simp only [make] at h
  split at h
  · rename_i hj
    obtain ⟨y, hy, rfl⟩ := Option.map_eq_some_iff.mp h
    exact ⟨Option.isNone_iff_eq_none.mp hj, y, hy, rfl⟩
  · cases h

namespace Accounted

/-- A CREATE is granted while there is room. -/
theorem createTable (h : Accounted base s b) (hj : s.handles j = none)
    (hy : invoke j steps .createTable s.data .closed = some y) :
    Accounted base (s.put y.1 j (some y.2)) (if y.2.isOpen then b.grant j else b) := by
  have hinert : Inert (s.handles j) := hj ▸ inert_none
  obtain ⟨hroom, rfl⟩ | ⟨_, rfl⟩ := invoke_createTable hy
  · exact h.grant hinert.not_open (h.orderly.granted hinert hroom ⟨rfl, rfl, rfl, rfl, rfl⟩) rfl
  · exact h.keep (h.orderly.exchange hinert (inert_some Reservation.settled_closed))
      (by rw [hj]; rfl)

/-- An ALTER or a DROP is granted if there is a table. -/
theorem acquire (h : Accounted base s b) (hj : s.handles j = none) {drop : Bool} {k : Nat}
    (hk : k < maximumTableCount) (hs : Settles j s.data ⟨.closed, .acquire drop k⟩ y) :
    Accounted base (s.put y.1 j (some y.2)) (if y.2.isOpen then b.grant j else b) := by
  have hinert : Inert (s.handles j) := hj ▸ inert_none
  obtain ⟨hfree, ⟨p, hp, rfl⟩ | ⟨_, rfl⟩⟩ := acquired hs
  · have hlt : k < (b.contents base).length := by
      rw [h.orderly.cell] at hp
      exact (List.getElem?_eq_some_iff.mp hp).1
    have hheld : Reservation.Holding drop (⟨true, some p, drop, k, some k⟩ : Reservation V) :=
      ⟨rfl, rfl, rfl, hk, rfl⟩
    exact h.grant hinert.not_open (h.orderly.reserved_slot hinert (SharedMutex.free_iff.mp hfree).1
      hheld hlt) rfl
  · exact h.keep (h.orderly.exchange hinert (inert_some Reservation.settled_closed))
      (by rw [hj]; rfl)

/-- An edit through `table()`. -/
theorem edit (h : Accounted base s b) (hi : s.handles i = some r) {f : V → V}
    (hy : invoke i steps (.edit f) s.data r = some y) :
    Accounted base (s.put y.1 i (some y.2)) b := by
  obtain ⟨d', t, hc, hs⟩ := invoke_settles hy
  simp only [call] at hc
  split at hc <;> cases hc
  obtain rfl := settles_idle.mp hs
  refine h.keep (h.orderly.put h.orderly.cell h.orderly.count (fun k => ?_) (fun _ _ _ => .rfl)
    h.orderly.readers (fun r' hr' => ?_) (fun j r _ => h.orderly.fit j r) ?_ h.orderly.room) ?_
  · simp [h.orderly.writer, hi]
  · cases hr'
    simpa [Fit, Reservation.Settled, Reservation.Creating, Reservation.Holding] using
      h.orderly.fit i r hi
  · simp [hi, placesOf, Thread.creates]
  · simp [hi, Reservation.isOpen]

/-- `complete()` applies a reservation; the object may be destroyed afterwards. -/
theorem complete (h : Accounted base s b) (hi : s.handles i = some r)
    (hy : invoke i steps .complete s.data r = some y) :
    y.2.Settled ∧ ∀ x, Inert x → Accounted base (s.put y.1 i x) (b.apply i r) := by
  obtain ⟨hopen, hs⟩ := invoke_complete hy
  obtain ⟨hsettled, ho⟩ := h.orderly.completed hi hopen hs
  exact ⟨hsettled, fun x hx => h.apply hi hopen (ho x hx) hx⟩

omit [Inhabited V] in
private theorem overwrite (h : Accounted base s b) (hi : s.handles i = some r)
    (hplace : placesOf (some r) = 0) {x : Option (Reservation V)} (hx : Inert x) :
    Accounted base (s.put (s.data.release r.lock) i x) (b.cancel i) := by
  obtain hs | hc | ⟨_, hb, _⟩ := h.orderly.fit i r hi
  · rw [hs.1]
    exact h.cancel (h.orderly.exchange (hi ▸ inert_some hs) hx) hx
  · cases hplace.symm.trans (placesOf_creating hc)
  · rw [hb.2.2.1]
    exact h.cancel (h.orderly.released hi hb hx) hx

omit [Inhabited V] in
theorem cancelled (h : Accounted base s b) (hi : s.handles i = some r) :
    Accounted base (s.put (Metadata.cancel s.data r).1 i (some (Metadata.cancel s.data r).2))
      (b.cancel i) := by
  have hx : Inert (some r.cancelled) := inert_some (Reservation.settled_cancelled r)
  exact h.cancel (h.orderly.cancelled hi hx) hx

omit [Inhabited V] in
/-- A move assignment onto another object. -/
theorem assign (h : Accounted base s b) (hi : s.handles i = some r) {r' : Reservation V}
    (hj : s.handles j = some r') (hij : i ≠ j) (hplace : placesOf (some r') = 0) :
    Accounted base (s.take (s.data.release r'.lock) j i r) ((b.cancel j).move j i) := by
  have hclosed := h.overwrite hj hplace (inert_some Reservation.settled_closed)
  have hsame : s.take (s.data.release r'.lock) j i r =
      (s.put (s.data.release r'.lock) j (some .closed)).take (s.data.release r'.lock) j i r := by
    simp only [Objects.take, Objects.put]
    rw [Function.update_comm hij.symm, Function.update_idem]
  rw [hsame]
  refine hclosed.move ?_ hij ?_
  · simpa [Objects.put, hij] using hi
  · simp [Objects.put, Reservation.settled_closed.not_open]

omit [Inhabited V] in
private theorem vanish (h : Accounted base s b) (hi : s.handles i = some r)
    (hr : r.isOpen = false) :
    Accounted base (s.put (s.data.release r.lock) i none) b := by
  have hinert := h.inert (i := i) (by simpa [hi] using hr)
  rw [(hinert r hi).1]
  exact h.keep (h.orderly.exchange hinert inert_none) (by simp [hi, hr])

/-- What one operation keeps. -/
theorem step {o : Op ι V} (h : Accounted base s b) (hg : KeepsPlaces s o)
    (ho : after steps s o = some s') : Accounted base s' (Tickets.record steps s o b) := by
  obtain ⟨⟨e, s₁⟩, hop, rfl⟩ := Option.map_eq_some_iff.mp ho
  cases o with
  | construct j =>
    simp only [operate] at hop
    split at hop <;> cases hop
    rename_i hj
    have hj : s.handles j = none := Option.isNone_iff_eq_none.mp hj
    exact h.keep (h.orderly.exchange (hj ▸ inert_none) (inert_some Reservation.settled_closed))
      (by rw [hj]; rfl)
  | createTable j =>
    obtain ⟨s₂, hm, he⟩ := Option.map_eq_some_iff.mp hop
    cases he
    obtain ⟨hj, y, hy, rfl⟩ := Objects.make_eq_some hm
    simpa [Tickets.record, ho, Objects.put] using h.createTable hj hy
  | alterTable j k | dropTable j k =>
    obtain ⟨s₂, hm, he⟩ := Option.map_eq_some_iff.mp hop
    cases he
    obtain ⟨hj, y, hy, rfl⟩ := Objects.make_eq_some hm
    obtain ⟨d', t, hc, hs⟩ := invoke_settles hy
    simp only [call] at hc
    split at hc <;> cases hc
    rename_i hk
    simp only [Bool.or_eq_true, decide_eq_true_eq, not_or, Nat.not_le] at hk
    simpa [Tickets.record, ho, Objects.put] using h.acquire hj hk.2 hs
  | edit i f =>
    obtain ⟨r, hi, hop⟩ := Option.bind_eq_some_iff.mp hop
    obtain ⟨y, hy, he⟩ := Option.map_eq_some_iff.mp hop
    cases he
    exact h.edit hi hy
  | moveConstruct j i =>
    simp only [operate] at hop
    split at hop <;> cases hop
    rename_i r hi hj
    have hij : i ≠ j := by
      rintro rfl
      simp [hj] at hi
    exact h.move hi hij (by simp [hj])
  | moveAssign j i =>
    simp only [operate] at hop
    split at hop <;> cases hop
    rename_i r r' hi hj
    have hplace : placesOf (some r') = 0 := hj ▸ hg
    by_cases hij : i = j
    · subst hij
      cases hi.symm.trans hj
      rw [if_pos rfl]
      have hself := h.overwrite hi hplace (inert_some (Reservation.settled_movedFrom r))
      simpa [Tickets.record, Tickets.move, Tickets.cancel] using hself
    · rw [if_neg hij]
      exact h.assign hi hj hij hplace
  | complete i =>
    obtain ⟨r, hi, hop⟩ := Option.bind_eq_some_iff.mp hop
    simp only [Tickets.record, hi, Option.elim_some]
    by_cases hr : r.isOpen = true
    · simp only [Reservation.check_open hr] at hop
      obtain ⟨y, hy, he⟩ := Option.map_eq_some_iff.mp hop
      cases he
      obtain ⟨hsettled, hall⟩ := h.complete hi hy
      exact hall _ (inert_some hsettled)
    · obtain ⟨e, he⟩ := Reservation.check_not_open (Bool.eq_false_iff.mpr hr)
      simp only [he] at hop
      cases hop
      rw [Tickets.apply_none (h.carried_none (by simpa [hi] using hr))]
      exact h
  | cancel i =>
    obtain ⟨r, hi, he⟩ := Option.map_eq_some_iff.mp hop
    cases he
    exact h.cancelled hi
  | destroy i =>
    obtain ⟨r, hi, hop⟩ := Option.bind_eq_some_iff.mp hop
    simp only [Tickets.record, hi, Option.elim_some]
    split at hop
    · obtain ⟨y, hy, he⟩ := Option.map_eq_some_iff.mp hop
      cases he
      obtain ⟨hsettled, hall⟩ := h.complete hi hy
      rw [hsettled.1]
      exact hall none inert_none
    · rename_i hr
      cases hop
      rw [Tickets.apply_none (h.carried_none (by simpa [hi] using hr))]
      exact h.vanish hi (Bool.eq_false_iff.mpr hr)

omit [DecidableEq ι] [Inhabited V] in
theorem start (g : GapFree V) : Accounted g.tables (g.objects : Objects ι V) Tickets.unused := by
  refine ⟨⟨fun _ => rfl, rfl, fun k i => ?_, fun _ => rfl, fun i r hr => ?_, ?_, g.fits⟩,
    fun _ => rfl, fun n => ?_⟩
  · simp [GapFree.objects, GapFree.data]
  · cases hr
  · rw [show total Finset.univ placesOf (g.objects : Objects ι V).handles = 0 from
      total_eq_zero fun _ => rfl]
    rfl
  · simp [Tickets.places, Tickets.unused, total]

theorem of_reach {g : GapFree V}
    (h : Reach (recorded (after steps) (Tickets.record steps)) (fun x o => KeepsPlaces x.1 o)
      (g.objects, Tickets.unused) (s, b)) : Accounted g.tables s b := by
  refine h.invariant (I := fun x => Accounted g.tables x.1 x.2) (start g) ?_
  rintro ⟨s, b⟩ o ⟨s', b'⟩ hacc hg he
  obtain ⟨ho, rfl⟩ := recorded_eq_some.mp he
  exact hacc.step hg ho

end Accounted

/-- In every sequence of operations that overwrites no open CREATE, each granted reservation is
carried by one object until its change is applied or it is cancelled, once; the slots hold what the
applied changes make of the first tables; and when all objects are destroyed every reservation has
been settled, no mutex is owned and no place is left over. -/
theorem reservations_settled_once {g : GapFree V}
    (h : Reach (recorded (after steps) (Tickets.record steps)) (fun x o => KeepsPlaces x.1 o)
      (g.objects, Tickets.unused) (s, b)) :
    (∀ n, b.places n = if n < b.granted then 1 else 0) ∧
      (∀ i, (b.carried i).isSome = (s.handles i).any Reservation.isOpen) ∧
      (∀ k, s.data.tables k = (b.contents g.tables)[k]?) ∧
      (∀ i r, s.handles i = some r → r.isOpen = false →
        (∃ e, operate steps s (.complete i) = some (.error e, s)) ∧
          operate steps s (.cancel i) = some (.ok (), s.put s.data i (some r.cancelled))) ∧
      ((∀ i, s.handles i = none) →
        (∀ n < b.granted, (b.applied.map Prod.fst).count n + b.cancelled.count n = 1) ∧
          (∀ k, (s.data.tableLocks k).free = true) ∧
          s.data.reservedSize = s.data.tableCount) := by
  have hacc := Accounted.of_reach h
  refine ⟨hacc.once, hacc.carried, hacc.orderly.cell, fun i r hi hr => ?_, fun hnone => ?_⟩
  · exact operate_not_open _ hi (hacc.inert (by simpa [hi] using hr) r hi)
  · have hcarried (i : ι) : b.carried i = none := hacc.carried_none (by simp [hnone])
    refine ⟨fun n hn => ?_, fun k => ?_, ?_⟩
    · have honce := hacc.once n
      rw [if_pos hn, Tickets.places, show total Finset.univ (fun x => if x = some n then 1 else 0)
        b.carried = 0 from total_eq_zero fun i => by simp [hcarried]] at honce
      omega
    · refine SharedMutex.free_iff.mpr ⟨?_, hacc.orderly.readers k⟩
      refine Option.eq_none_iff_forall_ne_some.mpr fun i hi => ?_
      simpa [hnone] using (hacc.orderly.writer k i).mp hi
    · have hplaces : total Finset.univ placesOf s.handles = 0 :=
        total_eq_zero fun i => by rw [hnone]; rfl
      rw [hacc.orderly.reserved, hacc.orderly.count, hplaces]
      rfl

/-- A CREATE passes to another object and is completed twice, an open ALTER is overwritten, and a
DROP is completed by the destructor. -/
def inTurn : List (Op (Fin 3) Nat) :=
  [.createTable 0, .construct 1, .moveAssign 1 0, .alterTable 2 0, .edit 2 (· + 5),
    .moveAssign 2 0, .complete 1, .complete 1, .cancel 2, .destroy 0, .dropTable 0 0, .destroy 0,
    .destroy 1, .destroy 2]

theorem reservations_settled_once_in_turn : ∃ (s : Objects (Fin 3) Nat) (b : Tickets (Fin 3) Nat),
    execute (recorded (after 13) (Tickets.record 13)) (fun x o => KeepsPlaces x.1 o) inTurn
      (pair.objects, Tickets.unused) = some (s, b) ∧
      b.granted = 3 ∧ b.applied.map Prod.fst = [0, 2] ∧ b.cancelled = [1] ∧
      (∀ k, (s.data.tableLocks k).free = true) ∧ s.data.reservedSize = s.data.tableCount := by
  obtain ⟨⟨s, b⟩, he, hs⟩ := Option.map_eq_some_iff.mp
    (show (execute (recorded (after 13) (Tickets.record 13)) (fun x o => KeepsPlaces x.1 o) inTurn
      (pair.objects, Tickets.unused)).map (fun x => (decide (∀ i, (x.1.handles i).isNone),
        x.2.granted, x.2.applied.map Prod.fst, x.2.cancelled)) =
          some (true, 3, [0, 2], [1]) by decide +kernel)
  obtain ⟨hnone, hgranted, happlied, hcancelled⟩ : (∀ i, s.handles i = none) ∧ b.granted = 3 ∧
      b.applied.map Prod.fst = [0, 2] ∧ b.cancelled = [1] := by
    simpa using hs
  obtain ⟨_, hfree, hsize⟩ := (reservations_settled_once (reach_of_execute _ he)).2.2.2.2 hnone
  exact ⟨s, b, he, hgranted, happlied, hcancelled, hfree, hsize⟩

def overwritten : List (Op (Fin 2) Nat) :=
  [.createTable 0, .construct 1, .moveAssign 0 1, .destroy 0, .destroy 1]

/-- The place it has reserved is never given back. -/
theorem place_lost : ¬ ∀ (s : Objects (Fin 2) Nat) (b : Tickets (Fin 2) Nat),
    Reach (recorded (after 13) (Tickets.record 13)) always
      (GapFree.empty.objects, Tickets.unused) (s, b) →
      (∀ i, s.handles i = none) → s.data.reservedSize = s.data.tableCount := by
  intro h
  obtain ⟨⟨s, b⟩, he, hs⟩ := Option.map_eq_some_iff.mp
    (show (execute (recorded (after 13) (Tickets.record 13)) always overwritten
      (GapFree.empty.objects, Tickets.unused)).map (fun x => (decide (∀ i, (x.1.handles i).isNone),
        x.1.data.reservedSize, x.1.data.tableCount)) = some (true, 1, 0) by decide +kernel)
  obtain ⟨hnone, hsize, hcount⟩ : (∀ i, s.handles i = none) ∧ s.data.reservedSize = 1 ∧
      s.data.tableCount = 0 := by
    simpa using hs
  have hequal := h s b (reach_of_execute _ he) hnone
  rw [hsize, hcount] at hequal
  cases hequal

end PStress.Metadata
