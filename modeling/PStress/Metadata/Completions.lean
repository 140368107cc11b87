import PStress.Metadata.Population

/-! The tables of the CREATEs and DROPs whose `complete()` was called. They are stored and taken out
at later steps, by the time the call returns. -/
namespace PStress.Metadata
open Interleaving
variable {ι V : Type}

/-- The tables of the CREATEs and of the DROPs that callers have completed. -/
structure Completed (V : Type) where
  created : List (TablePtr V)
  dropped : List (TablePtr V)

def newlyCreated (t : Thread V) (a : Act V) : List (TablePtr V) :=
  match a, t.pc with
  | .complete, .idle => if t.res.index = npos then t.res.table.toList else []
  | _, _ => []

/-- The table of a DROP on which `complete()` is called: the one its reservation shows. -/
def newlyDropped (t : Thread V) (a : Act V) : List (TablePtr V) :=
  match a, t.pc with
  | .complete, .idle => if t.res.index ≠ npos ∧ t.res.drop then t.res.table.toList else []
  | _, _ => []

def Completed.record (s : State ι V) (l : Label ι V) (c : Completed V) : Completed V :=
  match l with
  | .run i a => ⟨c.created ++ newlyCreated (s.threads i) a,
      c.dropped ++ newlyDropped (s.threads i) a⟩
  | .move _ _ => c

/-- The table a CREATE is to store before `complete()` returns. -/
@[simp] def Thread.arriving (t : Thread V) : List (TablePtr V) :=
  if t.pc.completing then t.pending else []

/-- The table a DROP is to take out before `complete()` returns. -/
@[simp] def Thread.departing (t : Thread V) : List (TablePtr V) :=
  match t.pc with
  | .dropTest | .dropClear | .lastRead | .lastLock _ | .lastLoad _ | .lastTest _ | .lastRetry _
  | .moveLoad _ | .moveStore .. => t.res.table.toList
  | .undefined _ => if t.creates = 0 then t.res.table.toList else []
  | _ => []

private theorem departing_of_completing {t : Thread V} (h : t.pc.completing = false) :
    t.departing = [] := by
  obtain ⟨r, pc⟩ := t
  cases pc <;> first | rfl | cases h

section Steps
variable [DecidableEq ι] [Inhabited V] {i : ι} {d d' : InternalData ι V} {t t' : Thread V}
  {a : Act V}

/-- Between the call of `complete()` and its return a CREATE stores its table once. -/
private theorem act_arriving (h : act i a d t = some (d', t')) (ho : PcOk d t.res t.pc) :
    newlyCreated t a ++ t.arriving = brought t a ++ t'.arriving := by
  have holding {r : Reservation V} {b : Bool} (hr : r.Holding b) (pc : Pc V) :
      Thread.pending ⟨r, pc⟩ = [] := pending_of_creates (creates_holding hr)
  have settled {r : Reservation V} (hr : r.Settled) (pc : Pc V) : Thread.pending ⟨r, pc⟩ = [] :=
    pending_of_creates (creates_settled hr)
  obtain ⟨r, pc⟩ := t
  obtain ⟨rfl, ht⟩ | ⟨rfl, hc⟩ := act_eq_some h
  · cases pc with
    | idle | undefined => cases ht
    | alterStore | dropClear | dropCount | dropReserved | dropMoved | lastRead | lastRetry
    | moveLoad | moveStore =>
      cases ht
      simp [newlyCreated, brought, Pc.completing, holding ho.1]
    | alterUnlock | dropUnlock =>
      cases ht
      simp [newlyCreated, brought, Pc.completing, holding ho.1]
    | dropTest | lastLoad | lastTest | lastLock =>
      simp only [tick] at ht
      (repeat' split at ht) <;> cases ht <;>
        simp [newlyCreated, brought, Pc.completing, holding ho.1]
    | moveUnlock =>
      have hs : Reservation.Settled { r with lock := none } := ⟨rfl, .inr ho.1.index_ne⟩
      cases ht
      simp [newlyCreated, brought, Pc.completing, holding ho.1, settled hs]
    | moveCount | moveReserved | moveClear | moveMoved | moveRelease | outerUnlock =>
      cases ht
      simp [newlyCreated, brought, Pc.completing, settled ho.1]
    | innerUnlock n o =>
      cases ht
      cases o <;> simp [newlyCreated, brought, Pc.completing, settled ho.1]
    | innerStore =>
      cases ht
      simp [newlyCreated, brought, Pc.completing, Thread.pending, creates_creating ho.1]
    | innerCount n o =>
      have hs : Reservation.Settled { r with index := n } :=
        ⟨ho.1.2.2.2.1, .inr (ho.2.1.trans maximumTableCount_lt_npos).ne⟩
      have hstored : Thread.pending ⟨r, .innerCount n o⟩ = [] := rfl
      cases ht
      simp [newlyCreated, brought, Pc.completing, settled hs, hstored]
    | _ =>
      simp only [tick] at ht
      (repeat' split at ht) <;> cases ht <;>
        simp [newlyCreated, brought, Pc.completing, Thread.pending, Thread.creates]
  · cases called_of_call hc ho with
    | create hr =>
      have hindex : r.index = npos := hr.2.2.1
      simp [newlyCreated, brought, Pc.completing, Thread.pending, creates_creating hr, hindex]
    | store hr | remove hr =>
      have hindex : r.index ≠ npos := hr.index_ne
      simp [newlyCreated, brought, Pc.completing, holding hr, hindex]
    | _ => simp [newlyCreated, brought, Pc.completing]

/-- Between the call of `complete()` and its return a DROP takes its table out once. -/
private theorem act_departing (h : act i a d t = some (d', t')) (ho : PcOk d t.res t.pc) :
    newlyDropped t a ++ t.departing = taken t a ++ t'.departing := by
  obtain ⟨r, pc⟩ := t
  obtain ⟨rfl, ht⟩ | ⟨rfl, hc⟩ := act_eq_some h
  · cases pc with
    | idle | undefined => cases ht
    | lastLock =>
      have hs (pc) : Thread.creates ⟨r, pc⟩ = 0 := creates_holding ho.1
      simp only [tick] at ht
      (repeat' split at ht) <;> cases ht <;> simp [newlyDropped, taken, hs]
    | outerLock =>
      have hs (pc) : Thread.creates ⟨r, pc⟩ = 1 := creates_creating ho
      simp only [tick] at ht
      (repeat' split at ht) <;> cases ht <;> simp [newlyDropped, taken, hs]
    | innerLock =>
      have hs (pc) : Thread.creates ⟨r, pc⟩ = 1 := creates_creating ho.1
      simp only [tick] at ht
      (repeat' split at ht) <;> cases ht <;> simp [newlyDropped, taken, hs]
    | innerUnlock n o =>
      cases ht
      cases o <;> simp [newlyDropped, taken]
    | _ =>
      simp only [tick] at ht
      (repeat' split at ht) <;> cases ht <;> simp [newlyDropped, taken]
  · cases called_of_call hc ho with
    | create hr =>
      have hindex : r.index = npos := hr.2.2.1
      simp [newlyDropped, taken, hindex]
    | store hr =>
      have hdrop : r.drop = false := hr.2.1
      simp [newlyDropped, taken, hdrop]
    | remove hr =>
      have hindex : r.index ≠ npos := hr.index_ne
      have hdrop : r.drop = true := hr.2.1
      simp [newlyDropped, taken, hindex, hdrop]
    | _ => simp [newlyDropped, taken]

end Steps

section Runs
variable [DecidableEq ι] [Inhabited V] [Fintype ι] {s s' : State ι V} {c : Completed V}
  {h : History V}

/-- What is completed but not done is in progress. -/
structure Pursued (s : State ι V) (c : Completed V) (h : History V) : Prop where
  created : ∀ x, occurrences x c.created =
    occurrences x h.created + total Finset.univ (fun t => occurrences x t.arriving) s.threads
  dropped : ∀ x, occurrences x c.dropped =
    occurrences x h.dropped + total Finset.univ (fun t => occurrences x t.departing) s.threads

private theorem pursued_step {l : Label ι V} (hs : step s l = some s') (ho : AllOwned s)
    (hp : Pursued s c h) : Pursued s' (c.record s l) (h.record s l) := by
  cases l with
  | run i a =>
    obtain ⟨d', t', ha, rfl⟩ := step_run.mp hs
    constructor <;> intro x
    · have hc := hp.created x
      have hn := congrArg (occurrences x) (act_arriving ha (ho i).ok)
      have hu := total_update (fun t => occurrences x t.arriving) s.threads (Finset.mem_univ i) t'
      simp only [Completed.record, History.record, occurrences_append] at *
      omega
    · have hc := hp.dropped x
      have hn := congrArg (occurrences x) (act_departing ha (ho i).ok)
      have hu := total_update (fun t => occurrences x t.departing) s.threads (Finset.mem_univ i) t'
      simp only [Completed.record, History.record, occurrences_append] at *
      omega
  | move i j =>
    obtain ⟨_, _, _, htot⟩ := move_counts hs ho
    constructor <;> intro x
    · rw [htot (fun t => occurrences x t.arriving) fun _ _ => rfl]
      exact hp.created x
    · rw [htot (fun t => occurrences x t.departing) fun _ _ => rfl]
      exact hp.dropped x

theorem pursued_of_reach {s₀ : State ι V} {guard : State ι V → Label ι V → Prop}
    {c₀ : Completed V} {h₀ : History V} (ho : AllOwned s₀) (hp : Pursued s₀ c₀ h₀)
    (hr : Reach (recorded step fun s l y => (Completed.record s l y.1, History.record s l y.2))
      (fun x l => guard x.1 l) (s₀, c₀, h₀) (s, c, h)) : Pursued s c h := by
  refine hr.invariant_with (I := fun x => Pursued x.1 x.2.1 x.2.2) (J := fun x => AllOwned x.1)
    (fun x hx => ho.of_reach hx.forget) hp ?_
  rintro ⟨s, c, h⟩ l ⟨s', c', h'⟩ ho _ hp _ he
  obtain ⟨hs, hrec⟩ := recorded_eq_some.mp he
  cases hrec
  exact pursued_step hs ho hp

omit [DecidableEq ι] [Inhabited V] in
theorem pursued_start (g : GapFree V) :
    Pursued (g.start : State ι V) ⟨[], []⟩ ⟨g.tables, [], []⟩ := by
  have none_yet (w : Thread V → Nat) (hw : w ⟨.closed, .idle⟩ = 0) :
      total Finset.univ w (g.start : State ι V).threads = 0 := total_eq_zero fun _ => hw
  constructor <;> intro x
  · rw [none_yet (fun t => occurrences x t.arriving) rfl]
    rfl
  · rw [none_yet (fun t => occurrences x t.departing) rfl]
    rfl

omit [DecidableEq ι] [Inhabited V] in
/-- While no handle is in the middle of `complete()`, all that is completed is done. -/
theorem Pursued.settled (hp : Pursued s c h) (hq : ∀ i, (s.threads i).pc.completing = false)
    (x : Nat) : occurrences x c.created = occurrences x h.created ∧
      occurrences x c.dropped = occurrences x h.dropped := by
  have harriving : total Finset.univ (fun t => occurrences x t.arriving) s.threads = 0 :=
    total_eq_zero fun i => by simp [hq i]
  have hdeparting : total Finset.univ (fun t => occurrences x t.departing) s.threads = 0 :=
    total_eq_zero fun i => by simp only [departing_of_completing (hq i), occurrences_nil]
  constructor
  · rw [hp.created x, harriving, Nat.add_zero]
  · rw [hp.dropped x, hdeparting, Nat.add_zero]

/-- While no handle is in the middle of `complete()`, the slots hold without gaps the tables there
were and those of the completed CREATEs, less those of the completed DROPs, each once. -/
theorem tables_neither_lost_nor_duplicated {g : GapFree V}
    (hr : Reach (recorded step Completed.record) (fun x l => Populated x.1 l)
      (g.start, ⟨[], []⟩) (s, c))
    (hq : ∀ i, (s.threads i).pc.completing = false) :
    (∀ k, (s.data.tables k).isSome ↔ k < s.data.tableCount) ∧
      ((g.tables ++ c.created).map TablePtr.id).Nodup ∧
      ∃ cs : List (TablePtr V), (∀ k, s.data.tables k = cs[k]?) ∧
        ((cs ++ c.dropped).map TablePtr.id).Perm ((g.tables ++ c.created).map TablePtr.id) := by
  obtain ⟨h, hr⟩ : ∃ h : History V, Reach
      (recorded step fun s l y => (Completed.record s l y.1, History.record s l y.2))
      (fun x l => Populated x.1 l) (g.start, ⟨[], []⟩, ⟨g.tables, [], []⟩) (s, c, h) :=
    hr.besides _
  have hp := (pursued_of_reach (allOwned_start g) (pursued_start g) hr).settled hq
  obtain ⟨ho, _, hd, ht⟩ := traced_of_reach (fun _ _ => emptyStable_of_populated)
    (allOwned_start g) (counted_start g) (dense_start g) (traced_start g)
    (hr.project Prod.snd fun _ _ _ => rfl)
  obtain ⟨hslots, hcount⟩ := hd.settled ho hq
  have hcreated : ((g.tables ++ c.created).map TablePtr.id).Perm
      ((g.tables ++ h.created).map TablePtr.id) :=
    List.perm_iff_count.mpr fun x => by
      change occurrences x (g.tables ++ c.created) = occurrences x (g.tables ++ h.created)
      rw [occurrences_append, occurrences_append, (hp x).1]
  have hdropped : ((h.contents ++ c.dropped).map TablePtr.id).Perm
      ((h.contents ++ h.dropped).map TablePtr.id) :=
    List.perm_iff_count.mpr fun x => by
      change occurrences x (h.contents ++ c.dropped) = occurrences x (h.contents ++ h.dropped)
      rw [occurrences_append, occurrences_append, (hp x).2]
  refine ⟨fun k => ?_, hcreated.nodup_iff.mpr ht.nodup, h.contents, hslots,
    hdropped.trans (ht.perm.trans hcreated.symm)⟩
  rw [hslots, hcount]
  simp

theorem tables_neither_lost_nor_duplicated_drop : ∃ (s : State (Fin 2) Nat) (c : Completed Nat),
    execute (recorded step Completed.record) (fun x l => Populated x.1 l) (dropWhileCreating 0 1)
      (pair.start, ⟨[], []⟩) = some (s, c) ∧
      c.created.map TablePtr.id = [2] ∧ c.dropped.map TablePtr.id = [0] ∧
      (∀ k, (s.data.tables k).isSome ↔ k < s.data.tableCount) ∧
      (s.data.tables 0).map TablePtr.id = some 1 ∧ (s.data.tables 1).map TablePtr.id = some 2 := by
  obtain ⟨⟨s, c⟩, he, hs⟩ := Option.map_eq_some_iff.mp
    (show (execute (recorded step Completed.record) (fun x l => Populated x.1 l)
      (dropWhileCreating (0 : Fin 2) 1) (pair.start, ⟨[], []⟩)).map (fun x =>
        (decide (∀ i, (x.1.threads i).pc.completing = false), x.2.created.map TablePtr.id,
          x.2.dropped.map TablePtr.id, (x.1.data.tables 0).map TablePtr.id,
          (x.1.data.tables 1).map TablePtr.id)) = some (true, [2], [0], some 1, some 2) by
      decide +kernel)
  obtain ⟨hq, hcreated, hdropped, hfirst, hsecond⟩ :
      decide (∀ i, (s.threads i).pc.completing = false) = true ∧
        c.created.map TablePtr.id = [2] ∧ c.dropped.map TablePtr.id = [0] ∧
        (s.data.tables 0).map TablePtr.id = some 1 ∧
        (s.data.tables 1).map TablePtr.id = some 2 := by
    simpa using hs
  exact ⟨s, c, he, hcreated, hdropped, (tables_neither_lost_nor_duplicated (reach_of_execute _ he)
    (of_decide_eq_true hq)).1, hfirst, hsecond⟩

end Runs
end PStress.Metadata
