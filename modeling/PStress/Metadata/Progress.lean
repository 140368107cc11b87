import PStress.Interleaving.Potential
import PStress.Metadata.Deadlock
import PStress.Metadata.Population

/-! How long the retry loops of `complete()` can go on. A loop starts over only when the size it has
read is out of date, so some other handle has completed a CREATE or a DROP in the meantime. -/
namespace PStress.Metadata
open Interleaving
variable {ι V : Type}

/-- The steps an operation has left if its loop does not start over. -/
def Pc.left : Pc V → Nat
  | .idle | .undefined _ => 0
  | .reserve => 2
  | .unreserve => 1
  | .acquire .. => 3
  | .load .. => 2
  | .abandon _ => 1
  | .lookupLock _ => 3
  | .lookupLoad _ => 2
  | .lookupUnlock _ => 1
  | .alterStore => 2
  | .alterUnlock => 1
  | .dropTest => 13
  | .dropClear => 5
  | .dropCount => 4
  | .dropReserved => 3
  | .dropMoved => 2
  | .dropUnlock => 1
  | .lastRead => 12
  | .lastLock _ => 11
  | .lastLoad _ => 10
  | .lastTest _ => 9
  | .lastRetry _ => 1
  | .moveLoad _ => 8
  | .moveStore .. => 7
  | .moveUnlock _ => 6
  | .moveCount _ => 5
  | .moveReserved _ => 4
  | .moveClear _ => 3
  | .moveMoved _ => 2
  | .moveRelease _ => 1
  | .createRead => 10
  | .createTest _ => 9
  | .outerLock _ => 8
  | .outerLoad _ => 7
  | .outerTest _ => 6
  | .outerRetry _ => 1
  | .innerLock .. => 5
  | .innerStore .. => 4
  | .innerCount .. => 3
  | .innerUnlock .. => 2
  | .outerUnlock _ => 1

/-- The loop is about to start over, or will because `size()` is not what it was. -/
def Pc.outdated (size : Nat) : Pc V → Bool
  | .lastLock l | .lastLoad l | .lastTest l => size != l + 1
  | .createTest n | .outerLock n | .outerLoad n | .outerTest n => size != n
  | .lastRetry _ | .outerRetry _ => true
  | _ => false

def Pc.counting : Pc V → Bool
  | .dropTest | .dropClear | .dropCount | .lastRead | .lastLock _ | .lastLoad _ | .lastTest _
  | .lastRetry _ | .moveLoad _ | .moveStore .. | .moveUnlock _ | .moveCount _ | .createRead
  | .createTest _ | .outerLock _ | .outerLoad _ | .outerTest _ | .outerRetry _ | .innerLock ..
  | .innerStore .. | .innerCount .. => true
  | _ => false

/-- What an operation can still cost: its steps, a pass more if its loop starts over, and `m` for
what a change of the size costs the others. -/
def Pc.weight (m size : Nat) (pc : Pc V) : Nat :=
  pc.left + (if pc.outdated size then 13 else 0) + if pc.counting then m else 0

private theorem weight_le {m : Nat} (size size' : Nat) (pc : Pc V) :
    pc.weight m size ≤ pc.weight m size' + 13 := by
  simp only [Pc.weight]
  split <;> split <;> omega

section Steps
variable [DecidableEq ι] [Inhabited V] {i : ι} {d d' : InternalData ι V} {cs : List (TablePtr V)}
  {r : Reservation V} {pc : Pc V} {t' : Thread V} {a : Act V}

omit [DecidableEq ι] [Inhabited V] in
private theorem InPlace.size_le {k : Nat} (hp : InPlace d cs ⟨r, pc⟩) (hk : k ∈ Thread.held ⟨r, pc⟩)
    (hd : dirty r pc = []) (hnone : d.tables k = none) : d.tableCount ≤ k := by
  have hs := hp.clean k hk (by simp [hd])
  have hcell : d.tables k = cs[k]? := hs.cell
  have hlen : ¬ k < cs.length := by
    rw [hnone] at hcell
    exact Nat.not_lt.mpr (List.getElem?_eq_none_iff.mp hcell.symm)
  exact Nat.not_lt.mp (hs.below.not.mpr hlen)

/-- Every step of an operation is paid for by what the operation could still cost. -/
private theorem tick_pays (h : tick i d r pc = some (d', t')) (hok : PcOk d r pc)
    (hp : InPlace d cs ⟨r, pc⟩) (m : Nat) :
    t'.pc.weight m d'.tableCount + 1 + (if d'.tableCount = d.tableCount then 0 else m) ≤
      pc.weight m d.tableCount := by
  cases pc with
  | idle | undefined => cases h
  | dropCount | moveCount | innerCount =>
    cases h
    simp only [Pc.weight, Pc.left, Pc.outdated, Pc.counting, Bool.false_eq_true, if_false, if_true]
    split <;> omega
  | lastRead =>
    cases h
    have hlt := (hp.index_lt hok.1 hok.2 (by simp [dirty])).2
    simp only at hlt
    have hback : d.tableCount = decrement d.tableCount + 1 := by
      rw [decrement_of_pos (Nat.zero_lt_of_lt hlt)]
      omega
    simp only [Pc.weight, Pc.left, Pc.outdated, Pc.counting, ← hback, bne_self_eq_false,
      Bool.false_eq_true, if_false, if_true]
    omega
  | lastLoad l =>
    simp only [tick] at h
    split at h <;> cases h
    · grind [Pc.weight, Pc.left, Pc.outdated, Pc.counting]
    · rename_i hnone
      have hle := hp.size_le (k := l) (by simp [Thread.held, Pc.held]) rfl (by simpa using hnone)
      have hne : d.tableCount ≠ l + 1 := by omega
      simp only [Pc.weight, Pc.left, Pc.outdated, Pc.counting, bne_iff_ne.mpr hne, if_true]
      omega
  | lastTest l =>
    simp only [tick] at h
    split at h <;> cases h
    · grind [Pc.weight, Pc.left, Pc.outdated, Pc.counting]
    · rename_i hl
      have hne : d.tableCount ≠ l + 1 := fun hc => hl (by simp [hc])
      simp only [Pc.weight, Pc.left, Pc.outdated, Pc.counting, bne_iff_ne.mpr hne, if_true]
      omega
  | outerLoad n =>
    have hf : 0 < n ∧ n < maximumTableCount := hp.facts
    simp only [tick] at h
    split at h <;> cases h
    · grind [Pc.weight, Pc.left, Pc.outdated, Pc.counting]
    · rename_i hnone
      have hle := hp.size_le (k := decrement n) (by simp [Thread.held, Pc.held]) rfl
        (by simpa using hnone)
      rw [decrement_of_pos hf.1] at hle
      have hne : d.tableCount ≠ n := by omega
      simp only [Pc.weight, Pc.left, Pc.outdated, Pc.counting, bne_iff_ne.mpr hne, if_true]
      omega
  | outerTest n =>
    simp only [tick] at h
    split at h <;> cases h
    · grind [Pc.weight, Pc.left, Pc.outdated, Pc.counting]
    · rename_i hn
      simp only [Pc.weight, Pc.left, Pc.outdated, Pc.counting, bne_iff_ne.mpr (Ne.symm hn),
        if_true]
      omega
  | _ =>
    simp only [tick] at h
    (repeat' split at h) <;> cases h <;> simp [Pc.weight, Pc.left, Pc.outdated, Pc.counting] <;>
      omega

omit [DecidableEq ι] [Inhabited V] in
/-- A call pays for the operation it begins. -/
theorem call_pays (h : call d r a = some (d', t')) (m : Nat) :
    d'.tableCount = d.tableCount ∧ t'.pc.weight m d.tableCount ≤ 13 + m := by
  have hb := r.branch_cases
  cases a with
  | tick => cases h
  | complete =>
    simp only [call] at h
    split at h <;> cases h
    refine ⟨rfl, ?_⟩
    rcases hb with hb | hb | hb
    · simp [hb, Pc.weight, Pc.left, Pc.outdated, Pc.counting]
    · simp only [hb, Pc.weight, Pc.left, Pc.outdated, Pc.counting, Bool.false_eq_true, if_false]
      omega
    · simp [hb, Pc.weight, Pc.left, Pc.outdated, Pc.counting]
  | cancel =>
    simp only [call] at h
    split at h <;> cases h
    refine ⟨?_, by simp [Pc.weight, Pc.left, Pc.outdated, Pc.counting]⟩
    simp only [cancel]
    split <;> split <;> rfl
  | _ =>
    simp only [call] at h
    (repeat' split at h) <;> cases h <;>
      simp [Pc.weight, Pc.left, Pc.outdated, Pc.counting] <;> omega

end Steps

def Label.ticks : Label ι V → Nat
  | .run _ .tick => 1
  | _ => 0

def Label.calls : Label ι V → Nat
  | .run _ .tick | .move .. => 0
  | .run .. => 1

section Runs
variable [DecidableEq ι] [Inhabited V] [Fintype ι] {s s' : State ι V} {g : GapFree V}

def State.potential (s : State ι V) : Nat :=
  total Finset.univ (fun t => t.pc.weight (13 * Fintype.card ι) s.data.tableCount) s.threads

theorem potential_step {cs : List (TablePtr V)} {l : Label ι V} (h : step s l = some s')
    (ho : AllOwned s) (hd : Dense s cs) :
    s'.potential + l.ticks ≤ s.potential + 13 * (Fintype.card ι + 1) * l.calls := by
  have hcard : (Finset.univ : Finset ι).card = Fintype.card ι := rfl
  cases l with
  | run i a =>
    obtain ⟨d', t', ha, rfl⟩ := step_run.mp h
    have same (hc : d'.tableCount = s.data.tableCount) := total_update
      (fun t => t.pc.weight (13 * Fintype.card ι) d'.tableCount) s.threads (Finset.mem_univ i) t'
    obtain ⟨rfl, ht⟩ | ⟨hidle, hc⟩ := act_eq_some ha
    · have hpay := tick_pays ht (ho i).ok (hd.inPlace i) (13 * Fintype.card ι)
      simp only [State.potential, Label.ticks, Label.calls, Nat.mul_zero, Nat.add_zero]
      by_cases hcount : d'.tableCount = s.data.tableCount
      · have hu := same hcount
        simp only [hcount, if_true] at hpay hu ⊢
        omega
      · have hu := total_update_le (f := s.threads)
          (w := fun t => t.pc.weight (13 * Fintype.card ι) s.data.tableCount)
          (v := fun t => t.pc.weight (13 * Fintype.card ι) d'.tableCount)
          (fun j _ => weight_le _ _ _) (Finset.mem_univ i) t'
        simp only [hcount, if_false] at hpay
        simp only [hcard] at hu
        omega
    · obtain ⟨hcount, hpay⟩ := call_pays hc (13 * Fintype.card ι)
      have hzero : (s.threads i).pc.weight (13 * Fintype.card ι) s.data.tableCount = 0 := by
        simp [hidle, Pc.weight, Pc.left, Pc.outdated, Pc.counting]
      have hcall : (Label.run i a).ticks = 0 ∧ (Label.run i a).calls = 1 := by
        cases a <;> first | exact ⟨rfl, rfl⟩ | cases hc
      have hu := same hcount
      simp only [State.potential, hcount, hcall] at hu ⊢
      omega
  | move i j =>
    obtain ⟨hcount, _, _, htot⟩ := move_counts h ho
    simp only [State.potential, Label.ticks, Label.calls, hcount]
    rw [htot _ fun r _ => by simp [Pc.weight, Pc.left, Pc.outdated, Pc.counting]]
    simp

/-- No interleaving keeps the retry loops going: however the handles are scheduled, the calls made
bound the lock-level steps, those of starting over included. -/
theorem steps_bounded_by_calls {a : Account}
    (h : Reach (recorded step (Account.record (fun _ l => l.ticks) (fun _ l => l.calls)))
      (fun x l => EmptyStable x.1 l) (g.start, ⟨0, 0⟩) (s, a)) :
    a.cost ≤ 13 * (Fintype.card ι + 1) * a.paid := by
  have hpaid := Reach.affordable (Φ := State.potential) (c := 13 * (Fintype.card ι + 1))
    (fun s l t hr hg he => by
      obtain ⟨cs, hd⟩ := dense_of_reach hr
      exact potential_step he ((allOwned_start g).of_reach hr) hd) h
  have hzero : (g.start : State ι V).potential = 0 :=
    total_eq_zero fun _ => by simp [GapFree.start, State.at, Pc.weight, Pc.left, Pc.outdated,
      Pc.counting]
  omega

end Runs

theorem steps_bounded_by_calls_drop : ∃ (s : State (Fin 2) Nat) (a : Account),
    execute (recorded step (Account.record (fun _ l => l.ticks) (fun _ l => l.calls)))
      (fun x l => EmptyStable x.1 l) (dropWhileCreating 0 1) (pair.start, ⟨0, 0⟩) = some (s, a) ∧
      a = ⟨31, 4⟩ ∧ a.cost ≤ 13 * (Fintype.card (Fin 2) + 1) * a.paid := by
  obtain ⟨⟨s, a⟩, he, hs⟩ := Option.map_eq_some_iff.mp
    (show (execute (recorded step (Account.record (fun _ l => l.ticks) (fun _ l => l.calls)))
      (fun x l => EmptyStable x.1 l) (dropWhileCreating (0 : Fin 2) 1)
        (pair.start, ⟨0, 0⟩)).map Prod.snd = some ⟨31, 4⟩ by decide +kernel)
  exact ⟨s, a, he, hs, steps_bounded_by_calls (reach_of_execute _ he)⟩

section Stuck
variable [DecidableEq ι] [Inhabited V] {s : State ι V} {g : GapFree V}

omit [DecidableEq ι] [Inhabited V] in
private theorem owned_of_not_free {k : Nat} (h : ¬ (s.data.tableLocks k).free = true) :
    ∃ j, s.Owns j k := by
  rw [SharedMutex.free_iff, not_and_or] at h
  obtain hw | hr := h
  · exact (Option.ne_none_iff_exists'.mp hw).imp fun _ => .inl
  · exact (Finset.nonempty_iff_ne_empty.mpr hr).imp fun _ => .inr

/-- An operation that cannot go on waits for a mutex that some handle owns. -/
theorem waits_of_stuck {cs : List (TablePtr V)} (ho : AllOwned s) (hd : Dense s cs) {i : ι}
    (hpc : (s.threads i).pc ≠ .idle) (hstuck : step s (.run i .tick) = none) :
    ∃ j, WaitsFor s.Wants s.Owns i j := by
  have hok := (ho i).ok
  have hf := (hd.inPlace i).facts
  have htick : tick i s.data (s.threads i).res (s.threads i).pc = none := by
    simpa [step, act] using hstuck
  have waits {k : Nat} (hk : (s.threads i).pc.wanted = some k)
      (hfree : ¬ (s.data.tableLocks k).free = true) : ∃ j, WaitsFor s.Wants s.Owns i j :=
    (owned_of_not_free hfree).imp fun j hj => ⟨k, hk, hj⟩
  cases hp : (s.threads i).pc with
  | idle => exact absurd hp hpc
  | undefined ks =>
    rw [hp] at hf
    exact hf.elim
  | acquire b k =>
    refine waits (k := k) (by simp [hp, Pc.wanted]) fun hfree => ?_
    simp [hp, tick, hfree] at htick
  | lookupLock k =>
    cases hw : (s.data.tableLocks k).writer with
    | none => simp [hp, tick, hw] at htick
    | some j => exact ⟨j, k, by simp [State.Wants, hp, Pc.wanted], .inl hw⟩
  | lastLock l =>
    refine waits (k := l) (by simp [hp, Pc.wanted]) fun hfree => ?_
    simp only [hp, tick] at htick
    split at htick <;> simp at htick
  | outerLock n =>
    refine waits (k := decrement n) (by simp [hp, Pc.wanted]) fun hfree => ?_
    simp only [hp, tick] at htick
    split at htick <;> simp at htick
  | innerLock n o =>
    refine waits (k := n) (by simp [hp, Pc.wanted]) fun hfree => ?_
    simp only [hp, tick] at htick
    split at htick <;> simp at htick
  | _ =>
    simp only [hp, tick] at htick
    (repeat' split at htick) <;> cases htick

private theorem ascending_of_reach (h : Reach step LocksUpwards g.start s) (i : ι) :
    Ascending (s.threads i) := by
  refine h.invariant (I := fun s => ∀ i, Ascending (s.threads i)) (fun _ => by trivial) ?_ i
  intro s l s' hp hg he
  refine step_threads (P := Ascending) he (fun _ _ => trivial) (fun i a d' t' hl ha => ?_) hp
  subst hl
  exact act_ascending ha hg.2

/-- In these runs the slots that wait for each other ascend. -/
theorem owned_lt_wanted [Fintype ι] (h : Reach step LocksUpwards g.start s) {i : ι} {k l : Nat}
    (hk : s.Wants i k) (hl : s.Owns i l) : l < k := by
  obtain ⟨cs, hd⟩ := dense_of_reach (h.weaken fun _ _ _ hg => hg.1)
  have ho := (allOwned_start g).of_reach h i
  exact held_lt_wanted ho.ok (hd.inPlace i) (ascending_of_reach h i) hk
    (hl.imp (ho.writer l).mp (ho.reader l).mp)

omit [DecidableEq ι] [Inhabited V] in
/-- Who is waited for and does nothing has a reservation. -/
theorem holding_of_waited (ho : AllOwned s) {i j : ι}
    (hchain : Relation.TransGen (WaitsFor s.Wants s.Owns) i j) (hj : (s.threads j).pc = .idle) :
    ∃ b, (s.threads j).res.Holding b := by
  have hown : ∃ k, s.Owns j k := by
    cases hchain with
    | single hw | tail _ hw =>
      obtain ⟨k, _, hk⟩ := hw
      exact ⟨k, hk⟩
  obtain ⟨k, hw | hr⟩ := hown
  · have hheld : k ∈ (s.threads j).held := ((ho j).writer k).mp hw
    have hok := (ho j).ok
    rw [hj] at hok
    obtain hs | hc | ⟨hb, _⟩ : Resting s.data (s.threads j).res := hok
    · simp [Thread.held, Pc.held, hj, hs.1] at hheld
    · simp [Thread.held, Pc.held, hj, hc.2.2.2.1] at hheld
    · exact hb
  · have := ((ho j).reader k).mp hr
    simp [hj, Pc.shared] at this

/-- When no operation can take a step, each one in progress waits, directly or through others, for
the slot of a reservation that its handle keeps open without doing anything. -/
theorem stuck_behind_reservation [Fintype ι] (h : Reach step LocksUpwards g.start s)
    (hstuck : ∀ i, step s (.run i .tick) = none) {i : ι} (hi : (s.threads i).pc ≠ .idle) :
    ∃ j b, (s.threads j).pc = .idle ∧ (s.threads j).res.Holding b ∧
      Relation.TransGen (WaitsFor s.Wants s.Owns) i j := by
  obtain ⟨cs, hd⟩ := dense_of_reach (h.weaken fun _ _ _ hg => hg.1)
  have ho := (allOwned_start g).of_reach h
  have hnone : ∀ i, ¬ Deadlocked s.Wants s.Owns i :=
    not_deadlocked_of_ordered fun _ _ _ => owned_lt_wanted h
  obtain ⟨j, hj, hchain⟩ := waits_for_unblocked (p := fun i => (s.threads i).pc ≠ .idle) hnone
    (fun i hi => waits_of_stuck ho hd hi (hstuck i)) hi
  rw [not_not] at hj
  obtain ⟨b, hb⟩ := holding_of_waited ho hchain hj
  exact ⟨j, b, hj, hb, hchain⟩

end Stuck

def dropBehind (i j : ι) : List (Label ι Nat) :=
  calls j (.dropTable 1) 2 ++ calls i (.dropTable 0) 2 ++ calls i .complete 2

theorem stuck_behind_reservation_drop : ∃ s : State (Fin 2) Nat,
    execute step LocksUpwards (dropBehind 0 1) pair.start = some s ∧
      ∃ j b, (s.threads j).pc = .idle ∧ (s.threads j).res.Holding b ∧
        Relation.TransGen (WaitsFor s.Wants s.Owns) 0 j := by
  obtain ⟨s, he, hs⟩ := Option.map_eq_some_iff.mp
    (show (execute step LocksUpwards (dropBehind (0 : Fin 2) 1) pair.start).map
      (fun s => (decide (∀ i, (step s (.run i .tick)).isNone = true), (s.threads 0).pc)) =
        some (true, .lastLock 1) by decide +kernel)
  obtain ⟨hstuck, hpc⟩ := Prod.mk.inj hs
  refine ⟨s, he, stuck_behind_reservation (reach_of_execute _ he) (fun i => ?_) (by simp [hpc])⟩
  exact Option.isNone_iff_eq_none.mp (of_decide_eq_true hstuck i)

end PStress.Metadata
