import PStress.Actions.Mirror
import PStress.Registry.Statistics

/-! A workload of a scenario: random workers that run the actions of their registries over one
`Metadata`, and the thread of the scenario, which starts them, waits for them, reconnects them and
edits their registries. -/
namespace PStress.Scenario
open Interleaving Registry
open Actions (Action Input finished)
open Metadata (GapFree)

/-- `WorkloadParams`. How long a run lasts is decided from outside. -/
structure WorkloadParams where
  repeat_times : Nat
  number_of_workers : Nat

/-- `Workload::worker_count`: the constructor makes no worker when nothing is repeated. -/
def WorkloadParams.worker_count (params : WorkloadParams) : Nat :=
  if params.repeat_times = 0 then 0 else params.number_of_workers

/-- The calls that go through the workers one by one. -/
inductive Call where
  | run | wait_completion | reconnect_workers
  deriving DecidableEq, Repr

structure Workload (n : Nat) where
  workers : Fin n → ThreadedWorker
  state : Actions.State (Fin n)
  /-- The call the scenario is in, and the index its loop has reached. -/
  calling : Option (Call × Nat)

/-- The thread of the scenario makes a call, takes the next step of it or is thrown out of it, or
edits the registry of a worker. A worker takes a step of its loop, looks its action up and begins
it, makes a request of the action, goes on with an operation, or counts an action that is over. -/
inductive Label (n : Nat) where
  | call (c : Call)
  | next
  | fail
  | edit (idx : Nat) (e : Edit)
  | loop (i : Fin n) (e : Event)
  | lookup (i : Fin n) (attempts : Nat)
  | go (i : Fin n) (x : Input)
  | tick (i : Fin n)
  | count (i : Fin n)
  | store (i : Fin n)

/-- What a call does next to a worker, and whether it is through with it. `join()` also leaves a
new thread object. -/
def visit (w : ThreadedWorker) : Call → Option (ThreadedWorker × Bool)
  | .run =>
    if w.control = .idle then (w.step .runThread).map fun w => (w, false)
    else (w.step .control).map fun w => (w, w.control = .idle)
  | .wait_completion => (w.step .join).map fun w => (w, true)
  | .reconnect_workers => some (w, true)

def terminated : Registry.Pc → Bool
  | .terminated _ => true
  | .total | .draw _ | .lookup _ | .execute _ | .exited => false

namespace Workload
variable {n : Nat}

def create (params : WorkloadParams) (config : AllConfig) (actions : ActionRegistry)
    (g : GapFree Actions.Table) : Workload params.worker_count :=
  ⟨fun _ => .create config actions, .at g.data, none⟩

/-- `Workload::worker`: the index of a worker, which scenarios count from one. -/
def worker (_ : Workload n) (idx : Nat) : Except String (Fin n) :=
  if h : idx = 0 ∨ n < idx then .error s!"No such worker {idx}, maximum is {n}"
  else .ok ⟨idx - 1, by omega⟩

def set (s : Workload n) (i : Fin n) (w : ThreadedWorker) : Workload n :=
  { s with workers := Function.update s.workers i w }

def next (s : Workload n) : Option (Workload n) :=
  match s.calling with
  | none => none
  | some (c, idx) =>
    if h : idx < n then
      (visit (s.workers ⟨idx, h⟩) c).map fun y =>
        { s.set ⟨idx, h⟩ y.1 with calling := some (c, if y.2 then idx + 1 else idx) }
    else some { s with calling := none }

/-- No thread could be launched, or no connection made: the exception leaves the loop. -/
def fail (s : Workload n) : Option (Workload n) :=
  match s.calling with
  | some (.run, idx) =>
    if h : idx < n then
      ((s.workers ⟨idx, h⟩).step .launchFails).map fun w =>
        { s.set ⟨idx, h⟩ w with calling := none }
    else none
  | some (.reconnect_workers, idx) => if idx < n then some { s with calling := none } else none
  | some (.wait_completion, _) | none => none

/-- How the action of a worker has ended, whether with an exception, once its handle is at rest. -/
def ended (s : Workload n) (i : Fin n) : Option Bool :=
  match (s.state.metadata.threads i).pc, (s.state.workers i).program with
  | .idle, .done _ => some false
  | .idle, .stop .thrown => some true
  | _, _ => none

def proceed (s : Workload n) : Label n → Option (Workload n)
  | .call c => if s.calling = none then some { s with calling := some (c, 0) } else none
  | .next => s.next
  | .fail => s.fail
  | .edit idx e =>
    if s.calling = none then
      match s.worker idx with
      | .ok i => ((s.workers i).step (.loop (.edit e))).map (s.set i)
      | .error _ => some s
    else none
  | .loop i e =>
    match e with
    | .lookup | .edit _ => none
    | _ => ((s.workers i).step (.loop e)).map (s.set i)
  | .lookup i attempts =>
    ((s.workers i).step (.loop .lookup)).bind fun w =>
      match w.worker.pc with
      | .execute action =>
        (Actions.step s.state (.begin i action attempts)).map fun state => { s.set i w with state }
      | _ => some (s.set i w)
  | .go i x => (Actions.step s.state (.go i x)).map fun state => { s with state }
  | .tick i => (Actions.step s.state (.tick i)).map fun state => { s with state }
  | .count i =>
    (s.ended i).bind fun thrown => ((s.workers i).step (.count thrown)).map (s.set i)
  | .store i => ((s.workers i).step .store).map (s.set i)

/-- An exception that leaves the loop of one worker ends them all. -/
def step (s : Workload n) (l : Label n) : Option (Workload n) :=
  if ∃ i, terminated (s.workers i).worker.pc then none else s.proceed l

def event (s : Workload n) : Label n → Option (Fin n × ThreadEvent)
  | .call _ | .go .. | .tick _ => none
  | .next =>
    match s.calling with
    | some (.run, idx) =>
      if h : idx < n then some (⟨idx, h⟩,
        if (s.workers ⟨idx, h⟩).control = .idle then .runThread else .control) else none
    | some (.wait_completion, idx) => if h : idx < n then some (⟨idx, h⟩, .join) else none
    | some (.reconnect_workers, _) | none => none
  | .fail =>
    match s.calling with
    | some (.run, idx) => if h : idx < n then some (⟨idx, h⟩, .launchFails) else none
    | some (.wait_completion, _) | some (.reconnect_workers, _) | none => none
  | .edit idx e =>
    match s.worker idx with
    | .ok i => some (i, .loop (.edit e))
    | .error _ => none
  | .loop i e => some (i, .loop e)
  | .lookup i _ => some (i, .loop .lookup)
  | .count i => (s.ended i).map fun thrown => (i, .count thrown)
  | .store i => some (i, .store)

def deed (s : Workload n) : Label n → Option (Actions.Label (Fin n))
  | .lookup i attempts =>
    match (s.workers i).step (.loop .lookup) with
    | some w =>
      match w.worker.pc with
      | .execute action => some (.begin i action attempts)
      | _ => none
    | none => none
  | .go i x => some (.go i x)
  | .tick i => some (.tick i)
  | .call _ | .next | .fail | .edit .. | .loop .. | .count _ | .store _ => none

variable {s s' : Workload n} {l : Label n}

theorem step_eq_some : s.step l = some s' ↔
    (∀ i, terminated (s.workers i).worker.pc = false) ∧ s.proceed l = some s' := by
  rw [Workload.step]
  split
  · rename_i hdown
    obtain ⟨i, hi⟩ := hdown
    constructor
    · intro h
      cases h
    · rintro ⟨hup, _⟩
      rw [hup i] at hi
      cases hi
  · rename_i hup
    simpa using fun _ => hup

/-- A look up finds an action and begins it, or it ends the program. -/
theorem proceed_lookup {i : Fin n} {attempts : Nat}
    (h : s.proceed (.lookup i attempts) = some s') :
    ∃ w, (s.workers i).step (.loop .lookup) = some w ∧
      s'.workers = Function.update s.workers i w ∧ s'.calling = s.calling ∧
      ((∃ action, w.worker.pc = .execute action ∧
          Actions.step s.state (.begin i action attempts) = some s'.state) ∨
        (∀ action, w.worker.pc ≠ .execute action) ∧ s'.state = s.state) := by
  obtain ⟨w, hw, h⟩ := Option.bind_eq_some_iff.mp h
  refine ⟨w, hw, ?_⟩
  split at h
  · rename_i action hpc
    obtain ⟨state, hs, rfl⟩ := Option.map_eq_some_iff.mp h
    exact ⟨rfl, rfl, .inl ⟨action, hpc, hs⟩⟩
  · rename_i hpc
    cases h
    exact ⟨rfl, rfl, .inr ⟨hpc, rfl⟩⟩

/-- A step of a loop but for its look up. -/
theorem proceed_loop {i : Fin n} {e : Event} (h : s.proceed (.loop i e) = some s') :
    ∃ w, (s.workers i).step (.loop e) = some w ∧ s' = s.set i w := by
  simp only [proceed] at h
  split at h
  · cases h
  · cases h
  · obtain ⟨w, hw, rfl⟩ := Option.map_eq_some_iff.mp h
    exact ⟨w, hw, rfl⟩

/-- A step is one of a threaded worker, or it leaves them all alone. -/
theorem step_event (h : s.proceed l = some s') :
    (s.event l = none ∧ s'.workers = s.workers) ∨ ∃ i e w, s.event l = some (i, e) ∧
      (s.workers i).step e = some w ∧ s'.workers = Function.update s.workers i w := by
  cases l with
  | call c =>
    simp only [proceed] at h
    split at h <;> cases h
    exact .inl ⟨rfl, rfl⟩
  | next =>
    simp only [proceed, next] at h
    split at h
    · cases h
    · rename_i c idx hc
      split at h
      · rename_i hidx
        obtain ⟨⟨w, b⟩, hv, rfl⟩ := Option.map_eq_some_iff.mp h
        cases c with
        | run =>
          simp only [visit] at hv
          split at hv <;> rename_i hidle <;>
            obtain ⟨w', hw, he⟩ := Option.map_eq_some_iff.mp hv <;> cases he
          · exact .inr ⟨_, _, _, by simp [event, hc, hidx, hidle], hw, rfl⟩
          · exact .inr ⟨_, _, _, by simp [event, hc, hidx, hidle], hw, rfl⟩
        | wait_completion =>
          obtain ⟨w', hw, he⟩ := Option.map_eq_some_iff.mp hv
          cases he
          exact .inr ⟨_, _, _, by simp [event, hc, hidx], hw, rfl⟩
        | reconnect_workers =>
          cases hv
          exact .inl ⟨by simp [event, hc], by simp [set]⟩
      · rename_i hidx
        cases h
        exact .inl ⟨by cases c <;> simp [event, hc, hidx], rfl⟩
  | fail =>
    simp only [proceed, fail] at h
    split at h
    · rename_i idx hc
      split at h
      · rename_i hidx
        obtain ⟨w, hw, rfl⟩ := Option.map_eq_some_iff.mp h
        exact .inr ⟨_, _, _, by simp [event, hc, hidx], hw, rfl⟩
      · cases h
    · rename_i idx hc
      split at h <;> cases h
      exact .inl ⟨by simp [event, hc], rfl⟩
    · cases h
    · cases h
  | edit idx e =>
    simp only [proceed] at h
    split at h
    · split at h
      · rename_i i hi
        obtain ⟨w, hw, rfl⟩ := Option.map_eq_some_iff.mp h
        exact .inr ⟨i, _, w, by simp [event, hi], hw, rfl⟩
      · rename_i hi
        cases h
        exact .inl ⟨by simp [event, hi], rfl⟩
    · cases h
  | loop i e =>
    obtain ⟨w, hw, rfl⟩ := proceed_loop h
    exact .inr ⟨i, _, w, rfl, hw, rfl⟩
  | lookup i attempts =>
    obtain ⟨w, hw, hs, _⟩ := proceed_lookup h
    exact .inr ⟨i, _, w, rfl, hw, hs⟩
  | go i x | tick i =>
    obtain ⟨state, _, rfl⟩ := Option.map_eq_some_iff.mp h
    exact .inl ⟨rfl, rfl⟩
  | count i =>
    obtain ⟨thrown, ht, h⟩ := Option.bind_eq_some_iff.mp h
    obtain ⟨w, hw, rfl⟩ := Option.map_eq_some_iff.mp h
    exact .inr ⟨i, _, w, by simp [event, ht], hw, rfl⟩
  | store i =>
    obtain ⟨w, hw, rfl⟩ := Option.map_eq_some_iff.mp h
    exact .inr ⟨i, _, w, rfl, hw, rfl⟩

/-- A step is one of the workers' actions, or it leaves them alone. -/
theorem step_deed (h : s.proceed l = some s') :
    (s.deed l = none ∧ s'.state = s.state) ∨
      ∃ d, s.deed l = some d ∧ Actions.step s.state d = some s'.state := by
  cases l with
  | call c =>
    simp only [proceed] at h
    split at h <;> cases h
    exact .inl ⟨rfl, rfl⟩
  | next =>
    simp only [proceed, next] at h
    split at h
    · cases h
    · split at h
      · obtain ⟨y, _, rfl⟩ := Option.map_eq_some_iff.mp h
        exact .inl ⟨rfl, rfl⟩
      · cases h
        exact .inl ⟨rfl, rfl⟩
  | fail =>
    simp only [proceed, fail] at h
    (repeat' split at h)
    · obtain ⟨w, _, rfl⟩ := Option.map_eq_some_iff.mp h
      exact .inl ⟨rfl, rfl⟩
    · cases h
    · cases h
      exact .inl ⟨rfl, rfl⟩
    all_goals cases h
  | edit idx e =>
    simp only [proceed] at h
    (repeat' split at h) <;> cases h <;> exact .inl ⟨rfl, rfl⟩
  | loop i e =>
    obtain ⟨w, _, rfl⟩ := proceed_loop h
    exact .inl ⟨rfl, rfl⟩
  | lookup i attempts =>
    obtain ⟨w, hw, _, _, ⟨action, hpc, hs⟩ | ⟨hpc, hs⟩⟩ := proceed_lookup h
    · exact .inr ⟨_, by simp [deed, hw, hpc], hs⟩
    · refine .inl ⟨?_, hs⟩
      cases hx : w.worker.pc with
      | execute action => exact absurd hx (hpc action)
      | _ => simp [deed, hw, hx]
  | go i x | tick i =>
    obtain ⟨state, hs, rfl⟩ := Option.map_eq_some_iff.mp h
    exact .inr ⟨_, rfl, hs⟩
  | count i =>
    obtain ⟨thrown, _, h⟩ := Option.bind_eq_some_iff.mp h
    obtain ⟨w, _, rfl⟩ := Option.map_eq_some_iff.mp h
    exact .inl ⟨rfl, rfl⟩
  | store i =>
    obtain ⟨w, _, rfl⟩ := Option.map_eq_some_iff.mp h
    exact .inl ⟨rfl, rfl⟩

/-- The workers' actions in a run of the workload. -/
theorem reach_deeds {H : Type} {record : Workload n → Label n → H → H}
    {guard : Workload n × H → Label n → Prop}
    {G : Actions.State (Fin n) → Actions.Label (Fin n) → Prop} {x₀ x : Workload n × H}
    (hg : ∀ x l, guard x l → ∀ d ∈ x.1.deed l, G x.1.state d)
    (hr : Reach (recorded Workload.step record) guard x₀ x) :
    Reach Actions.step G x₀.1.state x.1.state := by
  refine hr.along (fun x => x.1.state) fun x l x' hl he => ?_
  obtain ⟨_, hs⟩ := step_eq_some.mp (recorded_eq_some.mp he).1
  obtain ⟨_, hsame⟩ | ⟨d, hd, hdeed⟩ := step_deed hs
  · exact .inl hsame
  · exact .inr ⟨d, hg x l hl d (by simp [hd]), hdeed⟩

end Workload
end PStress.Scenario
