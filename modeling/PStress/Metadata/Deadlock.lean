import PStress.Interleaving.WaitsFor
import PStress.Metadata.Dense

/-! Deadlock among slot mutexes. A handle that waits for a slot owns only lower ones, unless a DROP
finds, at its second read of `size()`, that its own slot has become the last. -/
namespace PStress.Metadata
open Interleaving
variable {ι V : Type}

/-- The slot whose mutex the next step acquires. -/
def Pc.wanted : Pc V → Option Nat
  | .acquire _ k | .lookupLock k | .lastLock k | .innerLock k _ => some k
  | .outerLock n => some (decrement n)
  | _ => none

def State.Wants (s : State ι V) (i : ι) (k : Nat) : Prop := (s.threads i).pc.wanted = some k

/-- Handle `i` owns the mutex of slot `k`, for itself or with others. -/
def State.Owns (s : State ι V) (i : ι) (k : Nat) : Prop :=
  (s.data.tableLocks k).writer = some i ∨ i ∈ (s.data.tableLocks k).readers

/-- A DROP that is about to go for the last slot does not find its own slot there, and a thread
with an open ALTER or DROP looks up higher slots only. -/
def Upwards (d : InternalData ι V) (t : Thread V) (a : Act V) : Prop :=
  match a, t.pc with
  | .tick, .lastRead => t.res.index ≠ decrement d.tableCount
  | .lookup idx, .idle => ∀ k ∈ t.res.lock, k < idx
  | _, _ => True

def upwards (d : InternalData ι V) (t : Thread V) (a : Act V) : Bool :=
  match a, t.pc with
  | .tick, .lastRead => t.res.index != decrement d.tableCount
  | .lookup idx, .idle => t.res.lock.all (· < idx)
  | _, _ => true

private theorem upwards_iff (d : InternalData ι V) (t : Thread V) (a : Act V) :
    upwards d t a = true ↔ Upwards d t a := by
  unfold upwards Upwards
  split <;> simp [Option.all_eq_true]

instance (d : InternalData ι V) (t : Thread V) (a : Act V) : Decidable (Upwards d t a) :=
  decidable_of_iff _ (upwards_iff d t a)

def LocksUpwards [DecidableEq ι] (s : State ι V) (l : Label ι V) : Prop :=
  EmptyStable s l ∧ match l with
    | .run i a => Upwards s.data (s.threads i) a
    | .move _ _ => True

instance [DecidableEq ι] (s : State ι V) : (l : Label ι V) → Decidable (LocksUpwards s l)
  | .run i a => inferInstanceAs (Decidable (_ ∧ Upwards s.data (s.threads i) a))
  | .move _ _ => inferInstanceAs (Decidable (_ ∧ True))

/-- What a waiting handle knows of the slot it waits for and its own. -/
def Ascending (t : Thread V) : Prop :=
  match t.pc with
  | .lastLock l => t.res.index ≠ l
  | .lookupLock k => ∀ l ∈ t.res.lock, l < k
  | _ => True

variable [DecidableEq ι] [Inhabited V]

theorem act_ascending {i : ι} {a : Act V} {d d' : InternalData ι V} {t t' : Thread V}
    (h : act i a d t = some (d', t')) (hu : Upwards d t a) : Ascending t' := by
  obtain ⟨r, pc⟩ := t
  rcases act_eq_some h with ⟨rfl, ht⟩ | ⟨rfl, hc⟩
  · cases pc with
    | lastRead =>
      cases ht
      exact hu
    | _ =>
      simp only [tick] at ht
      (repeat' split at ht) <;> cases ht <;> trivial
  · cases a with
    | lookup idx =>
      simp only [call] at hc
      split at hc <;> cases hc
      exact hu
    | complete =>
      simp only [call] at hc
      split at hc <;> cases hc
      rcases r.branch_cases with hb | hb | hb <;> simp [Ascending, hb]
    | _ =>
      simp only [call] at hc
      (repeat' split at hc) <;> cases hc <;> trivial

omit [DecidableEq ι] [Inhabited V] in
/-- Slots are locked in ascending order. -/
theorem held_lt_wanted {d : InternalData ι V} {cs : List (TablePtr V)} {t : Thread V}
    (ho : PcOk d t.res t.pc) (hp : InPlace d cs t) (ha : Ascending t) {k l : Nat}
    (hk : t.pc.wanted = some k) (hl : l ∈ t.held ∨ l ∈ t.pc.shared) : l < k := by
  have hf := hp.facts
  obtain ⟨r, pc⟩ := t
  cases pc with
  | acquire b m =>
    have hlock : r.lock = none := ho.1.1
    simp [Thread.held, Pc.held, Pc.shared, hlock] at hl
  | lookupLock m =>
    cases hk
    refine ha l ?_
    simpa [Thread.held, Pc.held, Pc.shared] using hl
  | lastLock m =>
    cases hk
    have hlock : r.lock = some r.index := ho.1.2.2.1
    obtain rfl : l = r.index := by simpa [Thread.held, Pc.held, Pc.shared, hlock] using hl
    exact lt_of_le_of_ne hf.1 ha
  | outerLock n =>
    have hlock : r.lock = none := ho.2.2.2.1
    simp [Thread.held, Pc.held, Pc.shared, hlock] at hl
  | innerLock n o =>
    obtain rfl : n = k := Option.some.inj hk
    have hlock : r.lock = none := ho.1.2.2.2.1
    obtain ⟨rfl, rfl⟩ : o = true ∧ l = decrement n := by
      simpa [Thread.held, Pc.held, Pc.shared, hlock] using hl
    obtain ⟨m, rfl⟩ := Nat.exists_eq_add_one.mpr hf.2.1
    simp
  | _ => cases hk

/-- No handle waits for a mutex it owns, and no handles wait for each other in a circle. -/
theorem no_deadlock [Fintype ι] {g : GapFree V} {s : State ι V}
    (h : Reach step LocksUpwards g.start s) (i : ι) : ¬ Deadlocked s.Wants s.Owns i := by
  obtain ⟨cs, hd⟩ := dense_of_reach (h.weaken fun _ _ _ hg => hg.1)
  have ho := (allOwned_start g).of_reach h
  have hup : ∀ i, Ascending (s.threads i) := by
    refine h.invariant (I := fun s => ∀ i, Ascending (s.threads i)) (fun _ => by trivial) ?_
    intro s l s' hp hg he
    refine step_threads (P := Ascending) he (fun _ _ => trivial) (fun i a d' t' hl ha => ?_) hp
    subst hl
    exact act_ascending ha hg.2
  apply not_deadlocked_of_ordered
  intro i k l hk hl
  refine held_lt_wanted (ho i).ok (hd.inPlace i) (hup i) hk ?_
  exact hl.imp ((ho i).writer l).mp ((ho i).reader l).mp

/-- Two DROPs: the second one waits for the last slot until the first has removed it. -/
def dropInTurn (i j : ι) : List (Label ι Nat) :=
  calls j (.dropTable 1) 2 ++ calls i (.dropTable 0) 2 ++ calls i .complete 2 ++
    calls j .complete 1

theorem no_deadlock_drop : ∃ s : State (Fin 2) Nat,
    execute step LocksUpwards (dropInTurn 0 1) pair.start = some s ∧
      s.Wants 0 1 ∧ s.Owns 1 1 ∧ ¬ Deadlocked s.Wants s.Owns 0 := by
  obtain ⟨s, he, hs⟩ := Option.map_eq_some_iff.mp
    (show (execute step LocksUpwards (dropInTurn (0 : Fin 2) 1) pair.start).map
      (fun s => ((s.threads 0).pc.wanted, (s.data.tableLocks 1).writer)) = some (some 1, some 1) by
        decide +kernel)
  obtain ⟨hw, ho⟩ := Prod.mk.inj hs
  exact ⟨s, he, hw, .inl ho, no_deadlock (reach_of_execute _ he) 0⟩

/-- The last table is dropped between the two reads of `size()` of another DROP. -/
def dropBetween (i j : ι) : List (Label ι Nat) :=
  calls i (.dropTable 0) 2 ++ calls j (.dropTable 1) 2 ++ calls i .complete 1 ++
    calls j .complete 3 ++ ticks i 1

/-- That DROP then waits for the mutex of its own slot. -/
theorem drop_waits_for_itself : ¬ ∀ s : State (Fin 2) Nat, Reach step always pair.start s →
    ∀ i, ¬ Deadlocked s.Wants s.Owns i := by
  intro h
  obtain ⟨s, he, hs⟩ := Option.map_eq_some_iff.mp
    (show (execute step always (dropBetween (0 : Fin 2) 1) pair.start).map
      (fun s => ((s.threads 0).pc.wanted, (s.data.tableLocks 0).writer)) = some (some 0, some 0) by
        decide +kernel)
  obtain ⟨hw, ho⟩ := Prod.mk.inj hs
  exact h s (reach_of_execute _ he) 0 (.single ⟨0, hw, .inl ho⟩)

end PStress.Metadata
