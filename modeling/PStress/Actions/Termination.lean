import PStress.Actions.AtRest
import PStress.Interleaving.Termination
import PStress.Metadata.Progress

/-! Workers that begin no action come to rest. Each answer leaves less of a program, and the steps
of the operations between two requests are bounded, those of retry loops included. -/
namespace PStress.Actions
open Interaction Interleaving Metadata Program
variable {ι : Type}

def searching : Pc Table → Option Nat
  | .lookupLock k | .lookupLoad k => some k
  | _ => none

/-- A worker whose handle looks a table up has asked for it. -/
def Searches (s : State ι) : Prop :=
  ∀ i k, searching (s.metadata.threads i).pc = some k →
    (s.workers i).program.head = some (.lookup k)

section Searching
variable {d d' : InternalData ι Table} {r : Reservation Table} {pc : Pc Table} {t' : Thread Table}

/-- A lookup is over once it has read its slot; other operations begin none. -/
theorem tick_searching [DecidableEq ι] {i : ι} (h : tick i d r pc = some (d', t')) :
    (∃ k, pc = .lookupLoad k ∧ searching t'.pc = none) ∨
      (∀ p : Execution Unit, deliver d pc p = p) ∧ searching t'.pc = searching pc := by
  cases pc with
  | idle | undefined => cases h
  | lookupLoad k =>
    cases h
    exact .inl ⟨k, rfl, rfl⟩
  | _ =>
    simp only [tick] at h
    (repeat' split at h) <;> cases h <;> exact .inr ⟨fun _ => rfl, rfl⟩

theorem deliver_lookup {k : Nat} (f : Option Table → Execution Unit) :
    deliver d (.lookupLoad k) (.ask (.lookup k) f) = f ((d.tables k).map TablePtr.value) := rfl

private theorem serve_searching {x : Input} {q : Request} {ans : Option q.Answer}
    (h : serve x d r q = some (d', t', ans)) :
    (∃ k, q = .lookup k ∧ ans.isNone ∧ searching t'.pc = some k) ∨
      ans.isSome ∧ searching t'.pc = none := by
  cases q with
  | lookup k =>
    obtain ⟨y, hy, hans⟩ := Option.map_eq_some_iff.mp h
    cases hans
    simp only [call] at hy
    split at hy <;> cases hy
    exact .inl ⟨k, rfl, rfl, rfl⟩
  | complete =>
    obtain ⟨y, hy, hans⟩ := Option.map_eq_some_iff.mp h
    cases hans
    simp only [call] at hy
    split at hy <;> cases hy
    rcases r.branch_cases with hb | hb | hb <;> exact .inr ⟨rfl, by rw [hb]; rfl⟩
  | createTable | alterTable | dropTable | write =>
    obtain ⟨y, hy, hans⟩ := Option.map_eq_some_iff.mp h
    cases hans
    simp only [call] at hy
    (repeat' split at hy) <;> cases hy <;> exact .inr ⟨rfl, rfl⟩
  | size | isOpen | table | index =>
    cases h
    exact .inr ⟨rfl, rfl⟩
  | random | real | executeQuery =>
    simp only [serve] at h
    (repeat' split at h) <;> cases h
    exact .inr ⟨rfl, rfl⟩

end Searching

section Runs
variable [DecidableEq ι] {guard : State ι → Label ι → Prop} {s s' : State ι} {l : Label ι}
  {g : GapFree Table}

theorem Searches.set {i : ι} {d : InternalData ι Table} {t : Thread Table} {w : Worker}
    (h : Searches s) (hi : ∀ k, searching t.pc = some k → w.program.head = some (.lookup k)) :
    Searches (s.set i d t w) := by
  intro j
  by_cases hj : j = i
  · simpa [State.set, hj] using hi
  · simpa [State.set, hj] using h j

private theorem searches_step (h : step s l = some s') (hs : Searches s) : Searches s' := by
  cases l with
  | begin i a n =>
    obtain ⟨hidle, _, rfl⟩ := step_begin h
    refine hs.set fun k hk => ?_
    rw [hidle] at hk
    cases hk
  | go i x =>
    obtain ⟨r, q, k, d', t', ans, _, _, hserve, rfl⟩ := step_go h
    refine hs.set fun j hj => ?_
    obtain ⟨m, rfl, hnone, hm⟩ | ⟨_, hnone⟩ := serve_searching hserve
    · cases hm.symm.trans hj
      rw [Option.isNone_iff_eq_none.mp hnone]
      rfl
    · cases hnone.symm.trans hj
  | tick i =>
    obtain ⟨d', t', ht, rfl⟩ := step_tick h
    refine hs.set fun j hj => ?_
    obtain ⟨k, _, hnone⟩ | ⟨hsame, hpc⟩ := tick_searching ht
    · cases hnone.symm.trans hj
    · rw [hsame]
      exact hs i j (hpc ▸ hj)

omit [DecidableEq ι] in
private theorem searches_start : Searches (.at g.data : State ι) := by
  intro i k hk
  cases hk

theorem searches_of_reach (h : Reach step guard (.at g.data) s) : Searches s :=
  h.invariant searches_start fun _ _ _ hs _ he => searches_step he hs

end Runs

section Descent
variable [DecidableEq ι] {s s' : State ι} {l : Label ι} {g : GapFree Table}

def Label.Begins : Label ι → Prop
  | .begin .. => True
  | .go .. | .tick _ => False

/-- What is left of a worker's action, and whether a lookup still has to begin. -/
def left (s : State ι) (i : ι) : Execution Unit × Nat :=
  ((s.workers i).program, if (searching (s.metadata.threads i).pc).isSome then 0 else 1)

def Less : Execution Unit × Nat → Execution Unit × Nat → Prop := Prod.Lex Continues (· < ·)

private theorem less_wf : WellFounded Less := continues_wf.prod_lex Nat.lt_wfRel.wf

private theorem left_set {i : ι} {d : InternalData ι Table} {t : Thread Table} {w : Worker} :
    left (s.set i d t w) = Function.update (left s) i
      (w.program, if (searching t.pc).isSome then 0 else 1) := by
  funext j
  by_cases hj : j = i
  · subst hj
    simp [left, State.set]
  · simp [left, State.set, hj]

private theorem below_of_set {i : ι} {d : InternalData ι Table} {t : Thread Table} {w : Worker}
    (h : Less (w.program, if (searching t.pc).isSome then 0 else 1) (left s i)) :
    OneBelow Less (left (s.set i d t w)) (left s) := by
  rw [left_set]
  exact ⟨i, by simpa using h, fun j hj => by simp [hj]⟩

/-- A step that begins no action leaves less of one, or leaves them all as they are and the
operations less to do. -/
private theorem step_descends [Fintype ι] {cs : List (TablePtr Table)} (h : step s l = some s')
    (hl : ¬ l.Begins) (ho : AllOwned s.metadata) (hd : Dense s.metadata cs) (hs : Searches s) :
    OneBelow Less (left s') (left s) ∨
      left s' = left s ∧ s'.metadata.potential < s.metadata.potential := by
  cases l with
  | begin => exact absurd trivial hl
  | go i x =>
    obtain ⟨r, q, k, d', t', ans, hr, hp, hserve, rfl⟩ := step_go h
    refine .inl (below_of_set ?_)
    have hidle : left s i = (.ask q k, 1) := by simp [left, hp, hr, searching]
    rw [hidle]
    obtain ⟨m, rfl, hnone, hm⟩ | ⟨hsome, _⟩ := serve_searching hserve
    · rw [Option.isNone_iff_eq_none.mp hnone, hm]
      exact .right _ Nat.zero_lt_one
    · obtain ⟨a, rfl⟩ := Option.isSome_iff_exists.mp hsome
      exact .left _ _ ⟨q, k, a, rfl, rfl⟩
  | tick i =>
    obtain ⟨d', t', ht, rfl⟩ := step_tick h
    obtain ⟨k, hpc, _⟩ | ⟨hsame, hpc⟩ := tick_searching ht
    · obtain ⟨f, hf⟩ := head_eq_some (hs i k (by rw [hpc]; rfl))
      refine .inl (below_of_set ?_)
      rw [hpc, hf, deliver_lookup, left, hf]
      exact .left _ _ ⟨_, f, _, rfl, rfl⟩
    · refine .inr ⟨?_, ?_⟩
      · rw [left_set, hsame, hpc]
        exact Function.update_eq_self i (left s)
      · have hstep : Metadata.step s.metadata (.run i .tick) =
            some (s.set i d' t' (s.workers i)).metadata := step_run.mpr ⟨d', t', ht, rfl⟩
        have hpaid := potential_step hstep ho hd
        exact hpaid

/-- Workers do not go on for ever without new actions: in every infinite run actions are begun again
and again, however the workers are scheduled. -/
theorem actions_begin_again [Fintype ι] {run : Nat → State ι} {label : Nat → Label ι}
    (h₀ : run 0 = .at g.data) (hstable : ∀ n, StablyEmpty (run n) (label n))
    (hrun : ∀ n, step (run n) (label n) = some (run (n + 1))) (m : Nat) :
    ∃ n, m ≤ n ∧ (label n).Begins := by
  have hreach (n : Nat) : Reach step StablyEmpty (.at g.data) (run n) := by
    induction n with
    | zero => exact h₀ ▸ .start
    | succ n ih => exact .next (label n) ih (hstable n) (hrun n)
  have hwf : WellFounded fun s' s : State ι => Reach step StablyEmpty (.at g.data) s ∧
      ∃ l, ¬ l.Begins ∧ step s l = some s' := by
    refine wellFounded_of_ranks less_wf left (fun s => s.metadata.potential) ?_
    rintro s s' ⟨hr, l, hl, he⟩
    obtain ⟨cs, hd⟩ := dense_of_reach (reach_operations (fun _ _ hg => hg) hr)
    exact step_descends he hl (allOwned_of_reach hr) hd (searches_of_reach hr)
  obtain ⟨n, hn⟩ := @WellFounded.not_rel_apply_succ _ _ ⟨hwf⟩ fun n => run (m + n)
  refine ⟨m + n, by omega, ?_⟩
  by_contra hl
  exact hn ⟨hreach _, label (m + n), hl, hrun (m + n)⟩

end Descent

def tableless (a : Option Action) (p : Execution Unit) : State Unit :=
  ⟨.at GapFree.empty.data, fun _ => ⟨a, p⟩⟩

def idleDrop : Action := .dropTable {}

def dropsForEver : Nat → State Unit
  | 0 => tableless none (.done ())
  | n + 1 => tableless (some idleDrop) (if n % 2 = 0 then idleDrop.execute 0 else .done ())

def dropsForEverLabel (n : Nat) : Label Unit :=
  if n % 2 = 0 then .begin () idleDrop 0 else .go () .none

private theorem tableless_set (a a' : Option Action) (p p' : Execution Unit) :
    (tableless a p).set () GapFree.empty.data ⟨.closed, .idle⟩ ⟨a', p'⟩ = tableless a' p' := by
  have alone {α : Type} (x y : α) : Function.update (fun _ : Unit => x) () y = fun _ => y := by
    funext i
    simp
  simp only [State.set, tableless, Metadata.State.at, alone]

private theorem dropsForEver_step (n : Nat) :
    step (dropsForEver n) (dropsForEverLabel n) = some (dropsForEver (n + 1)) := by
  have begins (a : Option Action) : step (tableless a (.done ())) (.begin () idleDrop 0) =
      some (tableless (some idleDrop) (idleDrop.execute 0)) :=
    congrArg some (tableless_set a (some idleDrop) (.done ()) (idleDrop.execute 0))
  have ends : step (tableless (some idleDrop) (idleDrop.execute 0)) (.go () .none) =
      some (tableless (some idleDrop) (.done ())) :=
    congrArg some (tableless_set _ (some idleDrop) (idleDrop.execute 0) (.done ()))
  cases n with
  | zero => exact begins none
  | succ n =>
    rcases Nat.mod_two_eq_zero_or_one n with hn | hn
    · have hsucc : (n + 1) % 2 = 1 := by omega
      simpa [dropsForEver, dropsForEverLabel, hn, hsucc] using ends
    · have hsucc : (n + 1) % 2 = 0 := by omega
      simpa [dropsForEver, dropsForEverLabel, hn, hsucc] using begins (some idleDrop)

theorem actions_begin_again_drop : ∃ (run : Nat → State Unit) (label : Nat → Label Unit),
    (∀ n, step (run n) (label n) = some (run (n + 1))) ∧
      ∀ m, ∃ n, m ≤ n ∧ (label n).Begins := by
  refine ⟨dropsForEver, dropsForEverLabel, dropsForEver_step,
    actions_begin_again rfl (fun n o ho => ?_) dropsForEver_step⟩
  cases n with
  | zero => cases ho
  | succ n =>
    rcases Nat.mod_two_eq_zero_or_one n with hn | hn
    · have hsucc : (n + 1) % 2 = 1 := by omega
      simp only [dropsForEver, dropsForEverLabel, hn, hsucc] at ho
      cases ho
    · have hsucc : (n + 1) % 2 = 0 := by omega
      simp only [dropsForEverLabel, hsucc] at ho
      cases ho

end PStress.Actions
