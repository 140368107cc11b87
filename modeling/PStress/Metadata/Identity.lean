import PStress.Metadata.Dense

/-! Which tables are stored. Each table has an identity of its own, an ALTER keeps it, and the
tables stored and dropped are those there were and those created. -/
namespace PStress.Metadata
open Interleaving
variable {ι V : Type}

/-- The list of tables, with the tables that CREATEs have stored and DROPs have taken out. -/
structure History (V : Type) where
  contents : List (TablePtr V)
  created : List (TablePtr V)
  dropped : List (TablePtr V)

def brought (t : Thread V) (a : Act V) : List (TablePtr V) :=
  match a, t.pc with
  | .tick, .innerStore .. => t.res.table.toList
  | _, _ => []

def taken (t : Thread V) (a : Act V) : List (TablePtr V) :=
  match a, t.pc with
  | .tick, .dropClear | .tick, .moveStore .. => t.res.table.toList
  | _, _ => []

def History.record [DecidableEq ι] (s : State ι V) (l : Label ι V) (h : History V) : History V :=
  match l with
  | .run i a => ⟨change (s.threads i) a h.contents, h.created ++ brought (s.threads i) a,
      h.dropped ++ taken (s.threads i) a⟩
  | .move _ _ => h

def occurrences (x : Nat) (cs : List (TablePtr V)) : Nat := (cs.map TablePtr.id).count x

@[simp] theorem occurrences_nil (x : Nat) : occurrences x ([] : List (TablePtr V)) = 0 := rfl

@[simp] theorem occurrences_append (x : Nat) (cs e : List (TablePtr V)) :
    occurrences x (cs ++ e) = occurrences x cs + occurrences x e := by
  simp [occurrences]

private theorem occurrences_perm {cs e : List (TablePtr V)} (x : Nat) (h : cs.Perm e) :
    occurrences x cs = occurrences x e := (h.map _).count_eq x

theorem entry_ne {cs : List (TablePtr V)} (hc : (cs.map TablePtr.id).Nodup) {k l : Nat}
    {p q : TablePtr V} (hp : cs[k]? = some p) (hq : cs[l]? = some q) (hne : k ≠ l) :
    p.id ≠ q.id := by
  intro hid
  have hk : k < (cs.map TablePtr.id).length := by
    simpa using (List.getElem?_eq_some_iff.mp hp).1
  exact hne ((List.getElem?_inj hk hc).mp (by simp [hp, hq, hid]))

/-- The table of an open CREATE, until it is stored. -/
def Thread.pending (t : Thread V) : List (TablePtr V) :=
  match t.pc with
  | .innerCount .. => []
  | _ => if t.creates = 1 then t.res.table.toList else []

theorem pending_of_creates {t : Thread V} (h : t.creates = 0) : t.pending = [] := by
  simp only [Thread.pending, h]
  split <;> simp

private theorem pending_edit (x : Nat) (r : Reservation V) (f : V → V) :
    occurrences x (Thread.pending ⟨r.edit f, .idle⟩) =
      occurrences x (Thread.pending ⟨r, .idle⟩) := by
  have hids : (r.edit f).table.toList.map TablePtr.id = r.table.toList.map TablePtr.id := by
    obtain ⟨_, table, _, _, _⟩ := r
    cases table <;> rfl
  change occurrences x (if Thread.creates ⟨r, .idle⟩ = 1 then (r.edit f).table.toList else []) =
    occurrences x (if Thread.creates ⟨r, .idle⟩ = 1 then r.table.toList else [])
  split
  · exact congrArg (List.count x) hids
  · rfl

/-- The slot of an open ALTER or DROP holds, in the list too, the table the handle was given. -/
theorem InPlace.entry {d : InternalData ι V} {cs : List (TablePtr V)} {t : Thread V}
    (hp : InPlace d cs t) {b : Bool} (hr : t.res.Holding b) (hk : Backed d t.res)
    (hd : t.res.index ∉ dirty t.res t.pc) :
    ∃ p q, t.res.table = some p ∧ cs[t.res.index]? = some q ∧ q.id = p.id ∧
      (t.res.drop = true → q = p) := by
  obtain ⟨p, q, hp', hq, hid, hdrop⟩ := hk
  have hcell : d.tables t.res.index = cs[t.res.index]? :=
    (hp.clean t.res.index (hr.index_mem t.pc) hd).cell
  exact ⟨p, q, hp', hcell ▸ hq, hid, hdrop⟩

/-- A step changes the identities in the list by what it creates and drops. -/
theorem change_occurrences {d : InternalData ι V} {cs : List (TablePtr V)} {t : Thread V}
    {a : Act V} (ho : PcOk d t.res t.pc) (hp : InPlace d cs t) (x : Nat) :
    occurrences x (change t a cs) + occurrences x (taken t a) =
      occurrences x cs + occurrences x (brought t a) := by
  have remove (hr : t.res.Holding true) (hk : Backed d t.res) (hd : dirty t.res t.pc = []) :
      occurrences x (swapRemove cs t.res.index) + occurrences x t.res.table.toList =
        occurrences x cs := by
    obtain ⟨p, q, hp', hq, _, hdrop⟩ := hp.entry hr hk (by simp [hd])
    cases hdrop hr.2.1
    rw [← occurrences_perm x (perm_swapRemove hq), hp', ← List.singleton_append,
      occurrences_append, Option.toList_some, Nat.add_comm]
  obtain ⟨r, pc⟩ := t
  cases a with
  | tick =>
    cases pc with
    | alterStore =>
      obtain ⟨p, q, hp', hq, hid, _⟩ := hp.entry ho.1 ho.2 (by simp [dirty])
      obtain ⟨hlt, rfl⟩ := List.getElem?_eq_some_iff.mp hq
      have hset : (cs.set r.index p).map TablePtr.id = cs.map TablePtr.id := by
        rw [List.map_set, ← hid, ← List.getElem_map TablePtr.id, List.set_getElem_self]
        simpa using hlt
      simp only at hp'
      simp [change, brought, taken, hp', occurrences, hset]
    | dropClear => exact remove ho.1 ho.2 rfl
    | moveStore => exact remove ho.1 ho.2.1 rfl
    | innerStore => simp [change, brought, taken]
    | _ => simp [change, brought, taken]
  | _ => simp [change, brought, taken]

section Steps
variable [DecidableEq ι] [Inhabited V] {i : ι} {d d' : InternalData ι V} {t t' : Thread V}
  {a : Act V}

/-- A new table takes a new identity, and a created one was pending. -/
theorem act_fresh (h : act i a d t = some (d', t')) (ho : PcOk d t.res t.pc) (x : Nat) :
    occurrences x (brought t a) + occurrences x t'.pending + (if x < d.nextTable then 1 else 0) ≤
      occurrences x t.pending + (if x < d'.nextTable then 1 else 0) := by
  obtain ⟨r, pc⟩ := t
  obtain ⟨rfl, ht⟩ | ⟨rfl, hc⟩ := act_eq_some h
  · cases pc with
    | idle | undefined => cases ht
    | reserve =>
      have hs (pc) : Thread.pending ⟨r, pc⟩ = [] := pending_of_creates (creates_settled ho)
      simp only [tick] at ht
      split at ht <;> cases ht
      · simp [brought, hs]
      · have hnew : Thread.pending (V := V)
            ⟨⟨true, some ⟨d.nextTable, default⟩, false, npos, none⟩, .idle⟩ =
              [⟨d.nextTable, default⟩] := by simp [Thread.pending, Thread.creates]
        by_cases hx : x = d.nextTable
        · simp [brought, hs, hnew, occurrences, hx]
        · have hx' : d.nextTable ≠ x := Ne.symm hx
          simp [brought, hs, hnew, occurrences, hx',
            show x < d.nextTable + 1 ↔ x < d.nextTable by omega]
    | unreserve | abandon =>
      cases ht
      simp [brought, pending_of_creates (creates_settled Reservation.settled_closed)]
    | load b k =>
      have hs (p pc) : Thread.pending (V := V) ⟨⟨true, some p, b, k, some k⟩, pc⟩ = [] :=
        pending_of_creates (creates_holding ⟨rfl, rfl, rfl, ho.2, rfl⟩)
      have hs' (pc) : Thread.pending ⟨r, pc⟩ = [] := pending_of_creates (creates_settled ho.1)
      simp only [tick] at ht
      split at ht <;> cases ht <;> simp [brought, hs, hs']
    | innerStore n o =>
      cases ht
      simp [brought, Thread.pending, creates_creating ho.1]
    | innerCount n o =>
      cases ht
      have hs (pc) : Thread.pending (V := V) ⟨{ r with index := n }, pc⟩ = [] :=
        pending_of_creates (creates_settled
          ⟨ho.1.2.2.2.1, .inr (ho.2.1.trans maximumTableCount_lt_npos).ne⟩)
      simp [brought, hs]
    | _ =>
      simp only [tick] at ht
      (repeat' split at ht) <;> cases ht <;> simp [brought, Thread.pending, Thread.creates]
  · have hcancelled : Thread.pending ⟨r.cancelled, .idle⟩ = [] :=
      pending_of_creates (creates_settled (Reservation.settled_cancelled r))
    cases called_of_call hc ho with
    | refuse =>
      simp [brought, pending_of_creates (creates_settled Reservation.settled_closed)]
    | giveBack | release => simp [brought, hcancelled]
    | editCreate f | editAlter f => simp [brought, pending_edit]
    | _ => simp [brought, Thread.pending, Thread.creates]

end Steps
end PStress.Metadata
