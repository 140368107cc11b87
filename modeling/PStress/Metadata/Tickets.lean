import PStress.Metadata.Orderly

/-! Every reservation takes effect once or not at all. A granted reservation is followed from object
to object, up to the operation that settles it. -/
namespace PStress.Metadata
open Interleaving
variable {ι V : Type}

/-- The reservations granted so far are numbered. Each is carried by an object until its change is
applied, with what the object then held, or until it is cancelled. -/
structure Tickets (ι V : Type) where
  granted : Nat
  carried : ι → Option Nat
  applied : List (Nat × Reservation V)
  cancelled : List Nat

namespace Tickets

def unused : Tickets ι V := ⟨0, fun _ => none, [], []⟩

def contents (b : Tickets ι V) (base : List (TablePtr V)) : List (TablePtr V) :=
  b.applied.foldl (fun cs x => x.2.effect cs) base

/-- Where reservation `n` is: how many objects carry it, and how often it was settled. -/
def places [Fintype ι] (b : Tickets ι V) (n : Nat) : Nat :=
  total Finset.univ (fun x => if x = some n then 1 else 0) b.carried +
    (b.applied.map Prod.fst).count n + b.cancelled.count n

variable [DecidableEq ι]

def grant (b : Tickets ι V) (j : ι) : Tickets ι V :=
  { b with granted := b.granted + 1, carried := Function.update b.carried j (some b.granted) }

def move (b : Tickets ι V) (j i : ι) : Tickets ι V :=
  { b with carried := Function.update (Function.update b.carried i none) j (b.carried i) }

def apply (b : Tickets ι V) (i : ι) (r : Reservation V) : Tickets ι V :=
  { b with
    carried := Function.update b.carried i none
    applied := b.applied ++ ((b.carried i).map fun n => (n, r)).toList }

def cancel (b : Tickets ι V) (i : ι) : Tickets ι V :=
  { b with
    carried := Function.update b.carried i none
    cancelled := b.cancelled ++ (b.carried i).toList }

def record [Inhabited V] (steps : Nat) (s : Objects ι V) (o : Op ι V) (b : Tickets ι V) :
    Tickets ι V :=
  match o with
  | .createTable j | .alterTable j _ | .dropTable j _ =>
    if ((after steps s o).bind fun s' => s'.handles j).any Reservation.isOpen then b.grant j else b
  | .moveConstruct j i => b.move j i
  | .moveAssign j i => (b.cancel j).move j i
  | .complete i | .destroy i => (s.handles i).elim b fun r => b.apply i r
  | .cancel i => b.cancel i
  | .construct _ | .edit _ _ => b

section Places
variable [Fintype ι] {b : Tickets ι V} {i j : ι} {n : Nat}

omit [Fintype ι] in
theorem apply_none {r : Reservation V} (h : b.carried i = none) : b.apply i r = b := by
  have hsame : Function.update b.carried i none = b.carried := by
    rw [← h, Function.update_eq_self]
  simp [apply, h, hsame]

private theorem total_left (b : Tickets ι V) (i : ι) (n : Nat) :
    total Finset.univ (fun x => if x = some n then 1 else 0) (Function.update b.carried i none) +
      (b.carried i).toList.count n =
        total Finset.univ (fun x => if x = some n then 1 else 0) b.carried := by
  have hu := total_update (fun x : Option Nat => if x = some n then 1 else 0) b.carried
    (Finset.mem_univ i) none
  cases hc : b.carried i with
  | none => simpa [hc] using hu
  | some m => simpa [hc, List.count_singleton] using hu

private theorem apply_places (r : Reservation V) : (b.apply i r).places n = b.places n := by
  have hleft := total_left b i n
  have happlied : (((b.carried i).map fun n => (n, r)).toList.map Prod.fst).count n =
      (b.carried i).toList.count n := by
    cases b.carried i <;> simp
  simp only [places, apply, List.map_append, List.count_append, happlied]
  omega

private theorem cancel_places : (b.cancel i).places n = b.places n := by
  have hleft := total_left b i n
  simp only [places, cancel, List.count_append]
  omega

private theorem move_places (hij : i ≠ j) (hj : b.carried j = none) :
    (b.move j i).places n = b.places n := by
  simp only [places, move]
  rw [total_transfer (fun x => if x = some n then 1 else 0) b.carried (Finset.mem_univ i)
    (Finset.mem_univ j) hij (by rw [hj])]

private theorem grant_places (hj : b.carried j = none) :
    (b.grant j).places n = b.places n + if n = b.granted then 1 else 0 := by
  have hu := total_update (fun x : Option Nat => if x = some n then 1 else 0) b.carried
    (Finset.mem_univ j) (some b.granted)
  simp only [hj, Option.some.injEq] at hu
  simp only [places, grant, eq_comm (a := n)]
  simp at hu
  omega

end Places
end Tickets

/-- A move assignment onto an object with an open CREATE loses the place it has reserved. -/
def KeepsPlaces (s : Objects ι V) : Op ι V → Prop
  | .moveAssign j _ => placesOf (s.handles j) = 0
  | _ => True

instance (s : Objects ι V) : (o : Op ι V) → Decidable (KeepsPlaces s o)
  | .moveAssign j _ => inferInstanceAs (Decidable (placesOf (s.handles j) = 0))
  | .construct _ | .createTable _ | .alterTable .. | .dropTable .. | .edit .. | .moveConstruct ..
  | .complete _ | .cancel _ | .destroy _ => inferInstanceAs (Decidable True)

/-- The slots hold what the applied changes make of the first tables, the open objects are those
that carry a reservation, and each granted reservation is in one place. -/
structure Accounted [Fintype ι] (base : List (TablePtr V)) (s : Objects ι V) (b : Tickets ι V) :
    Prop where
  orderly : Orderly s (b.contents base)
  carried : ∀ i, (b.carried i).isSome = (s.handles i).any Reservation.isOpen
  once : ∀ n, b.places n = if n < b.granted then 1 else 0

theorem Inert.not_open {x : Option (Reservation V)} (h : Inert x) :
    x.any Reservation.isOpen = false := by
  cases x with
  | none => rfl
  | some r => exact (h r rfl).not_open

namespace Accounted
variable [DecidableEq ι] [Fintype ι] {base : List (TablePtr V)} {s : Objects ι V} {b : Tickets ι V}
  {d : InternalData ι V} {i j : ι} {r : Reservation V} {x : Option (Reservation V)}

omit [DecidableEq ι] in
theorem inert (h : Accounted base s b) (hi : (s.handles i).any Reservation.isOpen = false) :
    Inert (s.handles i) := by
  intro r hr
  have hclosed : r.isOpen = false := by simpa [hr] using hi
  obtain hs | hc | ⟨_, hb, _⟩ := h.orderly.fit i r hr
  · exact hs
  · simp [hc.isOpen] at hclosed
  · simp [hb.isOpen] at hclosed

omit [DecidableEq ι] in
theorem carried_none (h : Accounted base s b)
    (hi : (s.handles i).any Reservation.isOpen = false) : b.carried i = none := by
  simpa [hi] using h.carried i

/-- An object changes and stays open or closed as it was. -/
theorem keep (h : Accounted base s b) (ho : Orderly (s.put d i x) (b.contents base))
    (hx : x.any Reservation.isOpen = (s.handles i).any Reservation.isOpen) :
    Accounted base (s.put d i x) b := by
  refine ⟨ho, fun k => ?_, h.once⟩
  by_cases hk : k = i
  · subst hk
    simp [Objects.put, hx, h.carried]
  · simp [Objects.put, hk, h.carried]

theorem grant (h : Accounted base s b) (hj : (s.handles j).any Reservation.isOpen = false)
    (ho : Orderly (s.put d j (some r)) (b.contents base)) (hr : r.isOpen = true) :
    Accounted base (s.put d j (some r)) (b.grant j) := by
  refine ⟨ho, fun k => ?_, fun n => ?_⟩
  · by_cases hk : k = j
    · subst hk
      simp [Objects.put, Tickets.grant, hr]
    · simp [Objects.put, Tickets.grant, hk, h.carried]
  · rw [Tickets.grant_places (h.carried_none hj), h.once]
    change _ = if n < b.granted + 1 then 1 else 0
    rcases lt_trichotomy n b.granted with hn | rfl | hn
    · rw [if_pos hn, if_neg hn.ne, if_pos (by omega)]
    · simp
    · rw [if_neg (by omega), if_neg hn.ne', if_neg (by omega)]

theorem cancel (h : Accounted base s b) (ho : Orderly (s.put d i x) (b.contents base))
    (hx : Inert x) : Accounted base (s.put d i x) (b.cancel i) := by
  refine ⟨ho, fun k => ?_, fun n => ?_⟩
  · by_cases hk : k = i
    · subst hk
      simp [Objects.put, Tickets.cancel, hx.not_open]
    · simp [Objects.put, Tickets.cancel, hk, h.carried]
  · rw [Tickets.cancel_places]
    exact h.once n

theorem apply (h : Accounted base s b) (hi : s.handles i = some r) (hr : r.isOpen = true)
    (ho : Orderly (s.put d i x) (r.effect (b.contents base))) (hx : Inert x) :
    Accounted base (s.put d i x) (b.apply i r) := by
  obtain ⟨n, hn⟩ : ∃ n, b.carried i = some n :=
    Option.isSome_iff_exists.mp (by rw [h.carried, hi]; simpa using hr)
  refine ⟨?_, fun k => ?_, fun n => ?_⟩
  · simpa [Tickets.contents, Tickets.apply, hn] using ho
  · by_cases hk : k = i
    · subst hk
      simp [Objects.put, Tickets.apply, hx.not_open]
    · simp [Objects.put, Tickets.apply, hk, h.carried]
  · rw [Tickets.apply_places]
    exact h.once n

theorem move (h : Accounted base s b) (hi : s.handles i = some r) (hij : i ≠ j)
    (hj : (s.handles j).any Reservation.isOpen = false) :
    Accounted base (s.take s.data j i r) (b.move j i) := by
  refine ⟨h.orderly.taken hi hij (h.inert hj), fun k => ?_, fun n => ?_⟩
  · by_cases hk : k = j
    · subst hk
      simp [Objects.take, Tickets.move, h.carried, hi]
    · by_cases hk' : k = i
      · subst hk'
        simp [Objects.take, Tickets.move, hk, (Reservation.settled_movedFrom r).not_open]
      · simp [Objects.take, Tickets.move, hk, hk', h.carried]
  · rw [Tickets.move_places hij (h.carried_none hj)]
    exact h.once n

end Accounted
end PStress.Metadata
