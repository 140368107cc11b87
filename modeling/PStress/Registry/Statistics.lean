import PStress.Registry.Choices

/-! The statistics of a worker. `run_thread` resets the counters before it finds out whether a
thread is still there, so its steps and those of the loop are told apart here, and `++` of a counter
is a read and a write. Fewer than `2^64` actions end, so that no counter wraps around. -/
namespace PStress.Registry
open Interleaving

/-- Where the control thread is in `run_thread`. -/
inductive Control where
  | idle | resetSuccessful | resetFailed | test | launch
  deriving DecidableEq, Repr

/-- A worker and its `thread`, the control thread that calls it, and what `++` has read of the
counter for an action that returned or threw. -/
structure ThreadedWorker where
  worker : RandomWorker
  joinable : Bool
  control : Control
  counting : Option (Bool × Nat)

/-- A step of the loop, the two halves of `++` after an action, or what the control thread does. -/
inductive ThreadEvent where
  | loop (e : Event)
  | count (thrown : Bool)
  | store
  | runThread
  | control
  | launchFails
  | join

namespace ThreadedWorker

def create (config : AllConfig) (actions : ActionRegistry) : ThreadedWorker :=
  ⟨⟨config, actions, .exited, 0, 0⟩, false, .idle, none⟩

def runThread (s : ThreadedWorker) : Option ThreadedWorker :=
  match s.control with
  | .idle => none
  | .resetSuccessful =>
    some { s with worker := { s.worker with successfulActions := 0 }, control := .resetFailed }
  | .resetFailed => some { s with worker := { s.worker with failedActions := 0 }, control := .test }
  | .test => some { s with control := if s.joinable then .idle else .launch }
  | .launch =>
    some { s with worker := { s.worker with pc := .total }, joinable := true, control := .idle }

def step (s : ThreadedWorker) : ThreadEvent → Option ThreadedWorker
  | .loop .run | .loop (.finish _) => none
  | .loop e => (s.worker.step e).map fun worker => { s with worker }
  | .count thrown =>
    match s.worker.pc, s.counting with
    | .execute _, none => some { s with
        counting := some (thrown,
          if thrown then s.worker.failedActions else s.worker.successfulActions) }
    | _, _ => none
  | .store =>
    match s.counting with
    | some (true, n) => some { s with
        worker := { s.worker with pc := .total, failedActions := n + 1 }
        counting := none }
    | some (false, n) => some { s with
        worker := { s.worker with pc := .total, successfulActions := n + 1 }
        counting := none }
    | none => none
  | .runThread => if s.control = .idle then some { s with control := .resetSuccessful } else none
  | .control => s.runThread
  | .launchFails => if s.control = .launch then some { s with control := .idle } else none
  | .join =>
    -- `join()` waits for the loop
    match s.control, s.joinable, s.worker.pc with
    | .idle, false, _ => some s
    | .idle, true, .exited => some { s with joinable := false }
    | _, _, _ => none

private theorem execute_run {s : ThreadedWorker} (hc : s.control = .idle) (hj : s.joinable = false)
    (hpc : s.worker.pc = .exited) :
    execute step always [.runThread, .control, .control, .control, .control] s =
      (s.worker.step .run).map fun worker => { s with worker, joinable := true } := by
  simp [execute, always, step, runThread, RandomWorker.step, RandomWorker.runThread, hc, hj, hpc]

private theorem execute_finish {s : ThreadedWorker} {action : Actions.Action}
    (hpc : s.worker.pc = .execute action) (hn : s.counting = none) (thrown : Bool) :
    execute step always [.count thrown, .store] s =
      (s.worker.step (.finish thrown)).map fun worker => { s with worker } := by
  cases thrown <;> simp [execute, always, step, RandomWorker.step, hpc, hn]

end ThreadedWorker

/-- What happened in a run: the iterations begun, the actions that returned, those that threw. -/
structure Run where
  iterations : Nat
  returned : Nat
  threw : Nat
  deriving DecidableEq, Repr

def Run.record (s : ThreadedWorker) (l : ThreadEvent) (run : Run) : Run :=
  match l with
  | .control => if s.control = .launch then ⟨0, 0, 0⟩ else run
  | .loop .totalWeight => { run with iterations := run.iterations + 1 }
  | .count false => { run with returned := run.returned + 1 }
  | .count true => { run with threw := run.threw + 1 }
  | _ => run

/-- A reset of a counter while there is a thread finds it zero. -/
def HarmlessReset (s : ThreadedWorker) : ThreadEvent → Prop
  | .control => s.joinable = true →
    (s.control = .resetSuccessful → s.worker.successfulActions = 0) ∧
      (s.control = .resetFailed → s.worker.failedActions = 0)
  | _ => True

instance (s : ThreadedWorker) : (l : ThreadEvent) → Decidable (HarmlessReset s l)
  | .control => inferInstanceAs (Decidable (s.joinable = true →
    (s.control = .resetSuccessful → s.worker.successfulActions = 0) ∧
      (s.control = .resetFailed → s.worker.failedActions = 0)))
  | .loop _ | .count _ | .store | .runThread | .launchFails | .join =>
    inferInstanceAs (Decidable True)

namespace ThreadedWorker

def successes (s : ThreadedWorker) : Nat :=
  match s.counting with
  | some (false, n) => n + 1
  | _ => s.worker.successfulActions

def failures (s : ThreadedWorker) : Nat :=
  match s.counting with
  | some (true, n) => n + 1
  | _ => s.worker.failedActions

/-- The iteration in progress whose action has not ended. -/
def ongoing (s : ThreadedWorker) : Nat :=
  match s.worker.pc, s.counting with
  | .draw _, _ | .lookup _, _ | .execute _, none | .terminated _, _ => 1
  | _, _ => 0

/-- Without a thread the loop does not run, and once the counters are reset they stay zero. -/
structure Quiet (s : ThreadedWorker) : Prop where
  exited : s.joinable = false → s.worker.pc = .exited
  launching : s.control = .launch → s.joinable = false
  counting : s.counting.isSome → ∃ action, s.worker.pc = .execute action
  resetSuccessful : s.joinable = false → s.control = .resetFailed ∨ s.control = .test ∨
    s.control = .launch → s.worker.successfulActions = 0
  resetFailed : s.joinable = false → s.control = .test ∨ s.control = .launch →
    s.worker.failedActions = 0

/-- The counters agree with what happened in the run. -/
structure Agrees (s : ThreadedWorker) (run : Run) : Prop where
  returned : run.returned = s.successes
  threw : run.threw = s.failures
  iterations : run.iterations = run.returned + run.threw + s.ongoing

variable {s s' : ThreadedWorker} {run : Run}

theorem quiet_create (config : AllConfig) (actions : ActionRegistry) :
    (create config actions).Quiet where
  exited _ := rfl
  launching := nofun
  counting := nofun
  resetSuccessful _ _ := rfl
  resetFailed _ _ := rfl

/-- A step of the loop, up to the end of its action, leaves the counters alone; without a thread
there is none but for the edits of the control thread. -/
theorem step_loop {e : Event} (h : s.step (.loop e) = some s') :
    ∃ worker, s.worker.step e = some worker ∧ s' = { s with worker } ∧
      worker.successfulActions = s.worker.successfulActions ∧
      worker.failedActions = s.worker.failedActions ∧
      (s.worker.pc = .exited → worker.pc = .exited) ∧
      (∀ action, s.worker.pc = .execute action → worker.pc = .execute action) := by
  cases e with
  | run | finish => cases h
  | edit e =>
    cases h
    exact ⟨_, rfl, rfl, rfl, rfl, id, fun _ => id⟩
  | expire | totalWeight | draw | lookup =>
    obtain ⟨worker, hw, rfl⟩ := Option.map_eq_some_iff.mp h
    refine ⟨worker, hw, rfl, ?_⟩
    simp only [RandomWorker.step] at hw
    (repeat' split at hw) <;> cases hw <;> simp [*]

/-- An action that is being counted belongs to a thread. -/
theorem Quiet.joinable (h : s.Quiet) (hc : s.counting.isSome) : s.joinable = true := by
  obtain ⟨action, ha⟩ := h.counting hc
  cases hj : s.joinable with
  | true => rfl
  | false => cases ha.symm.trans (h.exited hj)

theorem Quiet.control (h : s.Quiet) (hs : s.runThread = some s') : s'.Quiet := by
  simp only [ThreadedWorker.runThread] at hs
  split at hs <;> cases hs
  case h_2 =>
    exact ⟨h.exited, nofun, h.counting, fun _ _ => rfl, fun _ hc => by simp at hc⟩
  case h_3 hc =>
    exact ⟨h.exited, nofun, h.counting, fun hj _ => h.resetSuccessful hj (.inl hc), fun _ _ => rfl⟩
  case h_4 hc =>
    refine ⟨h.exited, fun hl => ?_, h.counting,
      fun hj _ => h.resetSuccessful hj (.inr (.inl hc)), fun hj _ => h.resetFailed hj (.inl hc)⟩
    cases hj : s.joinable with
    | false => rfl
    | true => simp [hj] at hl
  case h_5 hc =>
    refine ⟨nofun, nofun, fun hsome => ?_, nofun, nofun⟩
    cases (h.joinable hsome).symm.trans (h.launching hc)

theorem Quiet.step {l : ThreadEvent} (h : s.Quiet) (hs : s.step l = some s') : s'.Quiet := by
  cases l with
  | loop e =>
    obtain ⟨worker, _, rfl, hsuccessful, hfailed, hexited, hexecute⟩ := step_loop hs
    refine ⟨fun hj => hexited (h.exited hj), h.launching, fun hc => ?_, fun hj hc => ?_,
      fun hj hc => ?_⟩
    · obtain ⟨action, ha⟩ := h.counting hc
      exact ⟨action, hexecute action ha⟩
    · exact hsuccessful.trans (h.resetSuccessful hj hc)
    · exact hfailed.trans (h.resetFailed hj hc)
  | count thrown =>
    simp only [ThreadedWorker.step] at hs
    split at hs <;> cases hs
    rename_i action hpc _
    exact ⟨h.exited, h.launching, fun _ => ⟨action, hpc⟩, h.resetSuccessful, h.resetFailed⟩
  | store =>
    simp only [ThreadedWorker.step] at hs
    split at hs <;> cases hs
    all_goals
      rename_i hc
      have hj : s.joinable = true := h.joinable (by simp [hc])
      exact ⟨fun hn => by simp [hj] at hn, h.launching, nofun, fun hn => by simp [hj] at hn,
        fun hn => by simp [hj] at hn⟩
  | runThread | launchFails =>
    simp only [ThreadedWorker.step] at hs
    split at hs <;> cases hs
    exact ⟨h.exited, nofun, h.counting, fun _ hc => by simp at hc, fun _ hc => by simp at hc⟩
  | control => exact h.control hs
  | join =>
    simp only [ThreadedWorker.step] at hs
    split at hs <;> cases hs
    · exact h
    · rename_i hc _ hpc
      exact ⟨fun _ => hpc, fun _ => rfl, h.counting, fun _ hl => by simp [hc] at hl,
        fun _ hl => by simp [hc] at hl⟩

/-- What the control thread is about to do is not counted. -/
theorem Agrees.congr (h : s.Agrees run) (hw : s'.worker = s.worker)
    (hc : s'.counting = s.counting) : s'.Agrees run := by
  obtain ⟨hreturned, hthrew, hiterations⟩ := h
  refine ⟨?_, ?_, ?_⟩
  · simpa [successes, hw, hc] using hreturned
  · simpa [failures, hw, hc] using hthrew
  · simpa [ongoing, hw, hc] using hiterations

theorem Quiet.counting_none (h : s.Quiet) (hpc : ∀ action, s.worker.pc ≠ .execute action) :
    s.counting = none := by
  cases hc : s.counting with
  | none => rfl
  | some x =>
    obtain ⟨action, ha⟩ := h.counting (by simp [hc])
    exact absurd ha (hpc action)

private theorem ongoing_loop (run : Run) {e : Event} (h : s.Quiet)
    (hs : s.step (.loop e) = some s') :
    (Run.record s (.loop e) run).iterations + s.ongoing = run.iterations + s'.ongoing := by
  cases e with
  | run | finish => cases hs
  | edit e =>
    cases hs
    rfl
  | expire | totalWeight | draw =>
    obtain ⟨worker, hw, rfl⟩ := Option.map_eq_some_iff.mp hs
    simp only [RandomWorker.step] at hw
    (repeat' split at hw) <;> cases hw
    all_goals simp [Run.record, ongoing, *]
  | lookup =>
    obtain ⟨worker, hw, rfl⟩ := Option.map_eq_some_iff.mp hs
    simp only [RandomWorker.step] at hw
    split at hw
    · rename_i w hpc
      have hnone : s.counting = none := h.counting_none (by simp [hpc])
      split at hw <;> cases hw <;> simp [Run.record, ongoing, hpc, hnone]
    · cases hw

private theorem record_loop (s : ThreadedWorker) (run : Run) (e : Event) :
    (Run.record s (.loop e) run).returned = run.returned ∧
      (Run.record s (.loop e) run).threw = run.threw := by
  cases e <;> exact ⟨rfl, rfl⟩

/-- A step of `run_thread`: a refused call changes nothing, and a run begins with the counters at
zero. -/
theorem Agrees.control (h : s.Quiet) (ha : s.joinable = true → s.Agrees run)
    (hg : HarmlessReset s .control) (hs : s.runThread = some s') (hj : s'.joinable = true) :
    s'.Agrees (Run.record s .control run) := by
  simp only [ThreadedWorker.runThread] at hs
  split at hs <;> cases hs
  case h_2 hc =>
    have hsame : { s.worker with successfulActions := 0 } = s.worker := by
      rw [← (hg hj).1 hc]
    rw [Run.record, if_neg (by simp [hc])]
    exact (ha hj).congr hsame rfl
  case h_3 hc =>
    have hsame : { s.worker with failedActions := 0 } = s.worker := by
      rw [← (hg hj).2 hc]
    rw [Run.record, if_neg (by simp [hc])]
    exact (ha hj).congr hsame rfl
  case h_4 hc =>
    have hrecord : Run.record s .control run = run := if_neg (by simp [hc])
    rw [hrecord]
    exact (ha hj).congr rfl rfl
  case h_5 hc =>
    have hnot : s.joinable = false := h.launching hc
    have hnone : s.counting = none := h.counting_none (by simp [h.exited hnot])
    rw [Run.record, if_pos hc]
    refine ⟨?_, ?_, ?_⟩
    · simpa [successes, hnone] using (h.resetSuccessful hnot (.inr (.inr hc))).symm
    · simpa [failures, hnone] using (h.resetFailed hnot (.inr hc)).symm
    · simp [ongoing]

theorem Agrees.step {l : ThreadEvent} (h : s.Quiet) (ha : s.joinable = true → s.Agrees run)
    (hg : HarmlessReset s l) (hs : s.step l = some s') (hj : s'.joinable = true) :
    s'.Agrees (Run.record s l run) := by
  cases l with
  | loop e =>
    have hongoing := ongoing_loop run h hs
    obtain ⟨worker, _, rfl, hsuccessful, hfailed, _⟩ := step_loop hs
    obtain ⟨hreturned, hthrew, hiterations⟩ := ha hj
    obtain ⟨hreturned', hthrew'⟩ := record_loop s run e
    refine ⟨?_, ?_, ?_⟩
    · simpa [successes, hsuccessful, hreturned'] using hreturned
    · simpa [failures, hfailed, hthrew'] using hthrew
    · omega
  | count thrown =>
    simp only [ThreadedWorker.step] at hs
    split at hs <;> cases hs
    rename_i action hpc hnone
    obtain ⟨hreturned, hthrew, hiterations⟩ := ha hj
    simp only [successes, failures, ongoing, hpc, hnone] at hreturned hthrew hiterations
    cases thrown <;>
      refine ⟨?_, ?_, ?_⟩ <;> simp [Run.record, successes, failures, ongoing, hpc] <;> omega
  | store =>
    simp only [ThreadedWorker.step] at hs
    split at hs <;> cases hs
    all_goals
      rename_i n hc
      obtain ⟨action, hpc⟩ := h.counting (by simp [hc])
      obtain ⟨hreturned, hthrew, hiterations⟩ := ha hj
      simp only [successes, failures, ongoing, hpc, hc] at hreturned hthrew hiterations
      exact ⟨hreturned, hthrew, hiterations⟩
  | runThread | launchFails =>
    simp only [ThreadedWorker.step] at hs
    split at hs <;> cases hs
    exact (ha hj).congr rfl rfl
  | control => exact Agrees.control h ha hg hs hj
  | join =>
    simp only [ThreadedWorker.step] at hs
    split at hs <;> cases hs
    · exact ha hj
    · cases hj

/-- What a step of a refused call does. -/
theorem Quiet.refused (h : s.Quiet) (hj : s.joinable = true) (hs : s.runThread = some s') :
    s' = { s with control := s'.control } ↔ HarmlessReset s .control := by
  simp only [ThreadedWorker.runThread] at hs
  split at hs <;> cases hs
  case h_2 hc =>
    have hiff : HarmlessReset s .control ↔ s.worker.successfulActions = 0 := by
      simp [HarmlessReset, hj, hc]
    rw [hiff]
    constructor
    · intro hsame
      exact (congrArg (fun x : ThreadedWorker => x.worker.successfulActions) hsame).symm
    · intro hzero
      rw [← hzero]
  case h_3 hc =>
    have hiff : HarmlessReset s .control ↔ s.worker.failedActions = 0 := by
      simp [HarmlessReset, hj, hc]
    rw [hiff]
    constructor
    · intro hsame
      exact (congrArg (fun x : ThreadedWorker => x.worker.failedActions) hsame).symm
    · intro hzero
      rw [← hzero]
  case h_4 hc => simp [HarmlessReset, hc]
  case h_5 hc => cases hj.symm.trans (h.launching hc)

end ThreadedWorker

section Runs
open ThreadedWorker
variable {config : AllConfig} {actions : ActionRegistry} {s s' : ThreadedWorker} {run : Run}

/-- A call of `run_thread` while there is a thread changes nothing, and when the loop has ended the
counters are the numbers of actions of the run that returned and that threw, one for each
iteration. -/
theorem statistics_count_run
    (h : Reach (recorded ThreadedWorker.step Run.record) (fun x l => HarmlessReset x.1 l)
      (create config actions, ⟨0, 0, 0⟩) (s, run)) :
    (∀ s', s.joinable = true → s.runThread = some s' →
      (s' = { s with control := s'.control } ↔ HarmlessReset s .control)) ∧
    (s.joinable = true → s.worker.pc = .exited →
      s.worker.successfulActions = run.returned ∧ s.worker.failedActions = run.threw ∧
        run.iterations = run.returned + run.threw) := by
  have hall : s.Quiet ∧ (s.joinable = true → s.Agrees run) := by
    refine h.invariant (I := fun x => x.1.Quiet ∧ (x.1.joinable = true → x.1.Agrees x.2))
      ⟨quiet_create config actions, nofun⟩ ?_
    rintro ⟨s, run⟩ l ⟨s', run'⟩ ⟨hq, ha⟩ hg he
    obtain ⟨hs, rfl⟩ := recorded_eq_some.mp he
    exact ⟨hq.step hs, Agrees.step hq ha hg hs⟩
  obtain ⟨hq, ha⟩ := hall
  refine ⟨fun s' hj hs => hq.refused hj hs, fun hj hpc => ?_⟩
  · obtain ⟨hreturned, hthrew, hiterations⟩ := ha hj
    have hnone : s.counting = none := hq.counting_none (by simp [hpc])
    simp only [successes, failures, ongoing, hpc, hnone] at hreturned hthrew hiterations
    exact ⟨hreturned.symm, hthrew.symm, hiterations⟩

def defaultThread : ThreadedWorker := create {} initializeDefaultRegisty

private theorem Pc.eq_exited {pc : Pc} (h : (pc matches .exited) = true) : pc = .exited := by
  cases pc with
  | exited => rfl
  | _ => cases h

/-- `run_thread` is called again before the first action is counted, and refused; then an action
returns and another one throws. -/
def refusedThenTwo : List ThreadEvent :=
  [.runThread, .control, .control, .control, .control, .loop .totalWeight, .runThread, .control,
    .control, .control, .loop (.draw 0), .loop .lookup, .count false, .store, .loop .totalWeight,
    .loop (.draw 150), .loop .lookup, .count true, .store, .loop .expire]

private theorem statistics_count_run_refused : ∃ (s : ThreadedWorker) (run : Run),
    execute (recorded ThreadedWorker.step Run.record) (fun x l => HarmlessReset x.1 l)
      refusedThenTwo (defaultThread, ⟨0, 0, 0⟩) = some (s, run) ∧
    run = ⟨2, 1, 1⟩ ∧ s.worker.successfulActions = 1 ∧ s.worker.failedActions = 1 := by
  obtain ⟨⟨s, run⟩, he, hs⟩ := Option.map_eq_some_iff.mp
    (show (execute (recorded ThreadedWorker.step Run.record) (fun x l => HarmlessReset x.1 l)
      refusedThenTwo (defaultThread, ⟨0, 0, 0⟩)).map
        (fun x => (x.1.joinable, x.1.worker.pc matches .exited, x.2)) =
          some (true, true, ⟨2, 1, 1⟩) by decide +kernel)
  obtain ⟨hj, hpc, hrun⟩ : s.joinable = true ∧ (s.worker.pc matches .exited) = true ∧
      run = ⟨2, 1, 1⟩ := by
    simpa using hs
  obtain ⟨hreturned, hthrew, _⟩ :=
    (statistics_count_run (reach_of_execute _ he)).2 hj (Pc.eq_exited hpc)
  subst hrun
  exact ⟨s, _, he, rfl, hreturned, hthrew⟩

def oneAction : List ThreadEvent :=
  [.runThread, .control, .control, .control, .control, .loop .totalWeight, .loop (.draw 0),
    .loop .lookup, .count false, .store]

/-- `run_thread` is called again while the thread is there: the action is no longer counted. -/
theorem action_uncounted : ¬ ∀ (s : ThreadedWorker) (run : Run),
    Reach (recorded ThreadedWorker.step Run.record) always (defaultThread, ⟨0, 0, 0⟩) (s, run) →
      s.joinable = true → s.worker.pc = .exited → s.worker.successfulActions = run.returned := by
  intro h
  obtain ⟨⟨s, run⟩, he, hs⟩ := Option.map_eq_some_iff.mp
    (show (execute (recorded ThreadedWorker.step Run.record) always
      (oneAction ++ [.runThread, .control, .control, .control, .loop .expire])
        (defaultThread, ⟨0, 0, 0⟩)).map
        (fun x => (x.1.joinable, x.1.worker.pc matches .exited, x.1.worker.successfulActions,
          x.2)) = some (true, true, 0, ⟨1, 1, 0⟩) by decide +kernel)
  obtain ⟨hj, hpc, hzero, hrun⟩ : s.joinable = true ∧ (s.worker.pc matches .exited) = true ∧
      s.worker.successfulActions = 0 ∧ run = ⟨1, 1, 0⟩ := by
    simpa using hs
  have hcount := h s run (reach_of_execute _ he) hj (Pc.eq_exited hpc)
  rw [hzero, hrun] at hcount
  cases hcount

end Runs
end PStress.Registry
