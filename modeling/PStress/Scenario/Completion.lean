import PStress.Actions.AtRest
import PStress.Scenario.Workload

/-! What holds once `wait_completion()` has returned: no thread is left, every action has ended
and given up its reservation, the statistics count the last run, and the metadata is at rest. -/
namespace PStress.Scenario
open Interleaving Registry
open Actions (Action AtRest)
open Metadata (GapFree EmptyStable)
variable {n : Nat}

section Threads
variable {w w' : ThreadedWorker} {e : ThreadEvent} {run : Run}

def Own : ThreadEvent → Prop
  | .loop _ | .count _ | .store => True
  | .runThread | .control | .launchFails | .join => False

private theorem own_thread (he : Own e) (h : w.step e = some w') :
    w'.control = w.control ∧ w'.joinable = w.joinable := by
  cases e with
  | loop e =>
    obtain ⟨worker, _, rfl, _⟩ := ThreadedWorker.step_loop h
    exact ⟨rfl, rfl⟩
  | count | store =>
    simp only [ThreadedWorker.step] at h
    split at h <;> cases h <;> exact ⟨rfl, rfl⟩
  | runThread | control | launchFails | join => cases he

private theorem own_edit (he : Own e) (hq : w.Quiet) (hj : w.joinable = false)
    (h : w.step e = some w') : ∃ d, e = .loop (.edit d) := by
  have hpc := hq.exited hj
  have hnone : w.counting = none := hq.counting_none (by simp [hpc])
  cases e with
  | loop e =>
    cases e with
    | edit d => exact ⟨d, rfl⟩
    | run | finish => cases h
    | expire | totalWeight | draw | lookup =>
      obtain ⟨worker, hw, _⟩ := Option.map_eq_some_iff.mp h
      simp [RandomWorker.step, hpc] at hw
  | count | store => simp [ThreadedWorker.step, hpc, hnone] at h
  | runThread | control | launchFails | join => cases he

private theorem own_agrees (he : Own e) (hq : w.Quiet) (ha : w.Agrees run)
    (h : w.step e = some w') :
    w'.Agrees (Run.record w e run) := by
  cases hj : w.joinable with
  | false =>
    obtain ⟨d, rfl⟩ := own_edit he hq hj h
    cases h
    exact ⟨ha.returned, ha.threw, ha.iterations⟩
  | true =>
    refine ThreadedWorker.Agrees.step hq (fun _ => ha) ?_ h ((own_thread he h).2.trans hj)
    cases e with
    | loop | count | store => trivial
    | runThread | control | launchFails | join => cases he

/-- A worker goes on with its action until it is counted. -/
theorem execute_step (hq : w.Quiet) (h : w.step e = some w') {action : Action}
    (hpc : w.worker.pc = .execute action) : w'.worker.pc = .execute action ∨
      w.counting.isSome ∧ w'.worker.pc = .total := by
  cases e with
  | loop e =>
    obtain ⟨worker, _, rfl, _, _, _, hkeeps⟩ := ThreadedWorker.step_loop h
    exact .inl (hkeeps action hpc)
  | store =>
    simp only [ThreadedWorker.step] at h
    split at h <;> cases h <;> exact .inr ⟨by simp [*], rfl⟩
  | control =>
    simp only [ThreadedWorker.step, ThreadedWorker.runThread] at h
    split at h <;> cases h
    -- a thread is only launched where there is none
    case h_5 hc =>
      have hexited := hq.exited (hq.launching hc)
      rw [hpc] at hexited
      cases hexited
    all_goals exact .inl hpc
  | count | runThread | launchFails | join =>
    simp only [ThreadedWorker.step] at h
    split at h <;> cases h <;> exact .inl hpc

private theorem leaves_execute (hq : w.Quiet) (h : w.step e = some w') {action : Action}
    (hpc : w.worker.pc = .execute action) (hpc' : ∀ a, w'.worker.pc ≠ .execute a) :
    w.counting.isSome := by
  obtain hkept | ⟨hcounting, _⟩ := execute_step hq h hpc
  · exact absurd hkept (hpc' action)
  · exact hcounting

private theorem begins_counting (h : w.step e = some w') (hc : w'.counting.isSome) :
    w.counting.isSome ∨ ∃ thrown, e = .count thrown := by
  cases e with
  | count thrown => exact .inr ⟨thrown, rfl⟩
  | loop e =>
    obtain ⟨worker, _, rfl, _⟩ := ThreadedWorker.step_loop h
    exact .inl hc
  | runThread | launchFails | store | join =>
    simp only [ThreadedWorker.step] at h
    split at h <;> cases h <;> first | exact .inl hc | cases hc
  | control =>
    simp only [ThreadedWorker.step, ThreadedWorker.runThread] at h
    split at h <;> cases h <;> exact .inl hc

end Threads

/-- What happened: the last run of each worker, and whether `wait_completion()` has returned since
`run()` was called. -/
structure History (n : Nat) where
  runs : Fin n → Run
  awaited : Bool

def History.start : History n := ⟨fun _ => ⟨0, 0, 0⟩, true⟩

/-- A run that could not be launched has no actions. -/
def note (w : ThreadedWorker) : ThreadEvent → Run → Run
  | .launchFails, _ => ⟨0, 0, 0⟩
  | e, run => Run.record w e run

def History.record (s : Workload n) (l : Label n) (h : History n) : History n where
  runs :=
    match s.event l with
    | some (i, e) => Function.update h.runs i (note (s.workers i) e (h.runs i))
    | none => h.runs
  awaited :=
    match l, s.calling with
    | .call .run, _ => false
    | .next, some (.wait_completion, idx) => h.awaited || decide (n ≤ idx)
    | _, _ => h.awaited

/-- A scenario waits for a run before it begins the next one or reconnects the workers. -/
def Awaits (x : Workload n × History n) : Label n → Prop
  | .call .run | .call .reconnect_workers => x.2.awaited = true
  | _ => True

instance (x : Workload n × History n) : (l : Label n) → Decidable (Awaits x l)
  | .call .run | .call .reconnect_workers => inferInstanceAs (Decidable (x.2.awaited = true))
  | .call .wait_completion | .next | .fail | .edit .. | .loop .. | .lookup .. | .go .. | .tick _
  | .count _ | .store _ => inferInstanceAs (Decidable True)

/-- The label is a step of the thread of the scenario in or out of a call. -/
def Label.Calls : Label n → Prop
  | .call _ | .next | .fail => True
  | _ => False

/-- Where the threads are while the scenario goes through the workers. -/
structure Driven (s : Workload n) (awaited : Bool) : Prop where
  quiet : ∀ i, (s.workers i).Quiet
  idle : ∀ i, (s.workers i).control ≠ .idle → s.calling = some (.run, i.val)
  ahead : ∀ idx, s.calling = some (.run, idx) → ∀ i : Fin n, idx ≤ i →
    (s.workers i).joinable = false
  behind : ∀ idx, s.calling = some (.wait_completion, idx) → ∀ i : Fin n, i < idx →
    (s.workers i).joinable = false
  joined : awaited = true →
    (∀ i, (s.workers i).joinable = false) ∧ ∀ idx, s.calling ≠ some (.run, idx)
  reconnects : ∀ idx, s.calling = some (.reconnect_workers, idx) → awaited = true

section Calls
variable {s s' : Workload n} {l : Label n} {h : History n} {awaited : Bool}

private theorem proceed_calling (hl : ¬ l.Calls) (hs : s.proceed l = some s') :
    s'.calling = s.calling := by
  cases l with
  | call | next | fail => exact absurd trivial hl
  | edit idx e =>
    simp only [Workload.proceed] at hs
    (repeat' split at hs) <;> cases hs <;> rfl
  | loop i e =>
    obtain ⟨w, _, rfl⟩ := Workload.proceed_loop hs
    rfl
  | lookup i attempts =>
    obtain ⟨w, _, _, hc, _⟩ := Workload.proceed_lookup hs
    exact hc
  | go | tick =>
    obtain ⟨state, _, rfl⟩ := Option.map_eq_some_iff.mp hs
    rfl
  | count i =>
    obtain ⟨thrown, _, hs⟩ := Option.bind_eq_some_iff.mp hs
    obtain ⟨w, _, rfl⟩ := Option.map_eq_some_iff.mp hs
    rfl
  | store i =>
    obtain ⟨w, _, rfl⟩ := Option.map_eq_some_iff.mp hs
    rfl

private theorem event_own {i : Fin n} {e : ThreadEvent} (hl : ¬ l.Calls)
    (he : s.event l = some (i, e)) :
    Own e := by
  cases l with
  | call | next | fail => exact absurd trivial hl
  | go | tick => cases he
  | edit idx d =>
    simp only [Workload.event] at he
    split at he <;> cases he
    trivial
  | count j =>
    obtain ⟨thrown, _, hx⟩ := Option.map_eq_some_iff.mp he
    cases hx
    trivial
  | loop | lookup | store =>
    cases he
    trivial

private theorem proceed_threads (hl : ¬ l.Calls) (hs : s.proceed l = some s') (j : Fin n) :
    (s'.workers j).control = (s.workers j).control ∧
      (s'.workers j).joinable = (s.workers j).joinable := by
  obtain ⟨_, hw⟩ | ⟨i, e, w, he, hstep, hw⟩ := Workload.step_event hs
  · rw [hw]
    exact ⟨rfl, rfl⟩
  · rw [hw]
    by_cases hj : j = i
    · subst hj
      rw [Function.update_self]
      exact own_thread (event_own hl he) hstep
    · rw [Function.update_of_ne hj]
      exact ⟨rfl, rfl⟩

theorem proceed_quiet (hd : ∀ i, (s.workers i).Quiet) (hs : s.proceed l = some s') (j : Fin n) :
    (s'.workers j).Quiet := by
  obtain ⟨_, hw⟩ | ⟨i, e, w, _, hstep, hw⟩ := Workload.step_event hs
  · rw [hw]
    exact hd j
  · rw [hw]
    by_cases hj : j = i
    · subst hj
      rw [Function.update_self]
      exact (hd j).step hstep
    · rw [Function.update_of_ne hj]
      exact hd j

theorem Driven.call {c : Call} (hd : Driven s h.awaited) (hg : Awaits (s, h) (.call c))
    (hs : s.proceed (.call c) = some s') : Driven s' (h.record s (.call c)).awaited := by
  have hquiet := proceed_quiet hd.quiet hs
  simp only [Workload.proceed] at hs
  split at hs <;> cases hs
  rename_i hnone
  refine ⟨hquiet, fun i hi => ?_, fun idx hidx i _ => ?_, fun idx hidx i hi => ?_, fun ha => ?_,
    fun idx hidx => ?_⟩
  · rw [hd.idle i hi] at hnone
    cases hnone
  · cases hidx
    exact (hd.joined hg).1 i
  · cases hidx
    exact absurd hi (Nat.not_lt_zero _)
  · cases c with
    | run => cases ha
    | wait_completion | reconnect_workers =>
      exact ⟨(hd.joined ha).1, fun idx hidx => by cases hidx⟩
  · cases hidx
    exact hg

/-- Only the worker whose turn it is can be in the middle of `run_thread`. -/
theorem Driven.elsewhere {c : Call} {idx : Nat} (hd : Driven s awaited)
    (hc : s.calling = some (c, idx)) {i : Fin n} (hi : i.val ≠ idx) :
    (s.workers i).control = .idle := by
  by_contra hne
  have hrun := hd.idle i hne
  rw [hc] at hrun
  cases hrun
  exact hi rfl

private theorem Driven.not_run {c : Call} {idx : Nat} (hd : Driven s awaited)
    (hc : s.calling = some (c, idx)) (hne : c ≠ .run) (i : Fin n) :
    (s.workers i).control = .idle := by
  by_contra hi
  have hrun := hd.idle i hi
  rw [hc] at hrun
  cases hrun
  exact hne rfl

theorem Driven.fail (hd : Driven s h.awaited) (hs : s.proceed .fail = some s') :
    Driven s' (h.record s .fail).awaited := by
  have hquiet := proceed_quiet hd.quiet hs
  simp only [Workload.proceed, Workload.fail] at hs
  (repeat' split at hs)
  · rename_i idx hc hidx
    obtain ⟨w, hw, rfl⟩ := Option.map_eq_some_iff.mp hs
    simp only [ThreadedWorker.step] at hw
    split at hw <;> cases hw
    refine ⟨hquiet, fun i hi => ?_, fun _ hx => (by cases hx), fun _ hx => (by cases hx),
      fun ha => absurd hc ((hd.joined ha).2 idx), fun _ hx => (by cases hx)⟩
    by_cases hx : i = ⟨idx, hidx⟩
    · simp [Workload.set, hx] at hi
    · simp only [Workload.set, Function.update_of_ne hx] at hi
      exact absurd (hd.elsewhere hc fun he => hx (Fin.ext he)) hi
  · cases hs
  · rename_i idx hc hidx
    cases hs
    exact ⟨hquiet, fun i hi => absurd (hd.not_run hc (by decide) i) hi, fun _ hx => (by cases hx),
      fun _ hx => (by cases hx), fun ha => ⟨(hd.joined ha).1, fun _ hx => (by cases hx)⟩,
      fun _ hx => (by cases hx)⟩
  all_goals cases hs

private theorem visit_run {w w' : ThreadedWorker} {b : Bool} (hj : w.joinable = false)
    (hv : visit w .run = some (w', b)) :
    (b = true → w'.control = .idle) ∧ (b = false → w'.joinable = false) := by
  simp only [visit] at hv
  split at hv
  · rename_i hidle
    obtain ⟨x, hstep, he⟩ := Option.map_eq_some_iff.mp hv
    cases he
    simp only [ThreadedWorker.step, if_pos hidle] at hstep
    cases hstep
    exact ⟨fun hb => (by cases hb), fun _ => hj⟩
  · obtain ⟨x, hstep, he⟩ := Option.map_eq_some_iff.mp hv
    cases he
    simp only [ThreadedWorker.step, ThreadedWorker.runThread] at hstep
    split at hstep <;> cases hstep <;> simp [hj]

private theorem Driven.next_run {idx : Nat} (hd : Driven s h.awaited)
    (hc : s.calling = some (.run, idx)) (hidx : idx < n) (hs : s.proceed .next = some s') :
    Driven s' (h.record s .next).awaited := by
  have hquiet := proceed_quiet hd.quiet hs
  have hnot : h.awaited = false := by
    cases ha : h.awaited with
    | false => rfl
    | true => exact absurd hc ((hd.joined ha).2 idx)
  have hrecord : (h.record s .next).awaited = false := by simp [History.record, hc, hnot]
  have hjoinable := hd.ahead idx hc ⟨idx, hidx⟩ (Nat.le_refl idx)
  simp only [Workload.proceed, Workload.next, hc, hidx, dif_pos] at hs
  obtain ⟨⟨w, b⟩, hv, rfl⟩ := Option.map_eq_some_iff.mp hs
  have hw := visit_run hjoinable hv
  refine ⟨hquiet, fun i hi => ?_, fun k hk i hi => ?_, fun k hk => (by cases hk), fun ha => ?_,
    fun k hk => (by cases hk)⟩
  · by_cases hx : i = ⟨idx, hidx⟩
    · subst hx
      simp only [Workload.set, Function.update_self] at hi
      cases b with
      | true => exact absurd (hw.1 rfl) hi
      | false => rfl
    · simp only [Workload.set, Function.update_of_ne hx] at hi
      exact absurd (hd.elsewhere hc fun he => hx (Fin.ext he)) hi
  · by_cases hx : i = ⟨idx, hidx⟩
    · subst hx
      cases b with
      | true =>
        cases hk
        exact absurd hi (Nat.not_succ_le_self idx)
      | false => simpa [Workload.set] using hw.2 rfl
    · have hle : idx ≤ k := by
        cases b <;> cases hk
        · exact Nat.le_refl idx
        · exact Nat.le_succ idx
      simpa only [Workload.set, Function.update_of_ne hx] using
        hd.ahead idx hc i (Nat.le_trans hle hi)
  · rw [hrecord] at ha
    cases ha

private theorem Driven.next_wait {idx : Nat} (hd : Driven s h.awaited)
    (hc : s.calling = some (.wait_completion, idx)) (hidx : idx < n)
    (hs : s.proceed .next = some s') : Driven s' (h.record s .next).awaited := by
  have hquiet := proceed_quiet hd.quiet hs
  have hrecord : (h.record s .next).awaited = h.awaited := by simp [History.record, hc, hidx]
  have hcontrol := hd.not_run hc (by decide)
  simp only [Workload.proceed, Workload.next, hc, hidx, dif_pos] at hs
  obtain ⟨⟨w, b⟩, hv, rfl⟩ := Option.map_eq_some_iff.mp hs
  obtain ⟨w', hstep, he⟩ := Option.map_eq_some_iff.mp hv
  cases he
  obtain ⟨hj, hidle⟩ : w.joinable = false ∧ w.control = .idle := by
    simp only [ThreadedWorker.step] at hstep
    split at hstep <;> cases hstep
    · exact ⟨by assumption, by assumption⟩
    · exact ⟨rfl, by assumption⟩
  refine ⟨hquiet, fun i hi => ?_, fun k hk => (by cases hk), fun k hk i hi => ?_, fun ha => ?_,
    fun k hk => (by cases hk)⟩
  · by_cases hx : i = ⟨idx, hidx⟩
    · simp [Workload.set, hx, hidle] at hi
    · simp only [Workload.set, Function.update_of_ne hx] at hi
      exact absurd (hcontrol i) hi
  · cases hk
    by_cases hx : i = ⟨idx, hidx⟩
    · simpa [Workload.set, hx] using hj
    · simp only [Workload.set, Function.update_of_ne hx]
      exact hd.behind idx hc i (Nat.lt_of_le_of_ne (Nat.le_of_lt_succ hi) fun he => hx (Fin.ext he))
  · rw [hrecord] at ha
    refine ⟨fun i => ?_, fun k hk => (by cases hk)⟩
    by_cases hx : i = ⟨idx, hidx⟩
    · simpa [Workload.set, hx] using hj
    · simp only [Workload.set, Function.update_of_ne hx]
      exact (hd.joined ha).1 i

private theorem Driven.next_over {c : Call} {idx : Nat} (hd : Driven s h.awaited)
    (hc : s.calling = some (c, idx)) (hidx : ¬ idx < n) (hs : s.proceed .next = some s') :
    Driven s' (h.record s .next).awaited := by
  have hcontrol (i : Fin n) : (s.workers i).control = .idle :=
    hd.elsewhere hc (Nat.ne_of_lt (Nat.lt_of_lt_of_le i.2 (Nat.le_of_not_lt hidx)))
  have hjoined : (h.record s .next).awaited = true → ∀ i, (s.workers i).joinable = false := by
    intro ha i
    cases c with
    | wait_completion =>
      exact hd.behind idx hc i (Nat.lt_of_lt_of_le i.2 (Nat.le_of_not_lt hidx))
    | run | reconnect_workers =>
      simp only [History.record, hc] at ha
      exact (hd.joined ha).1 i
  simp only [Workload.proceed, Workload.next, hc, hidx, dif_neg, not_false_eq_true] at hs
  cases hs
  exact ⟨hd.quiet, fun i hi => absurd (hcontrol i) hi, fun _ hx => (by cases hx),
    fun _ hx => (by cases hx), fun ha => ⟨hjoined ha, fun _ hx => (by cases hx)⟩,
    fun _ hx => (by cases hx)⟩

private theorem driven_step (hs : s.step l = some s') (hg : Awaits (s, h) l)
    (hd : Driven s h.awaited) :
    Driven s' (h.record s l).awaited := by
  obtain ⟨_, hs⟩ := Workload.step_eq_some.mp hs
  by_cases hl : l.Calls
  · cases l with
    | call c => exact hd.call hg hs
    | fail => exact hd.fail hs
    | next =>
      rcases hc : s.calling with _ | ⟨c, idx⟩
      · simp [Workload.proceed, Workload.next, hc] at hs
      · by_cases hidx : idx < n
        · cases c with
          | run => exact hd.next_run hc hidx hs
          | wait_completion => exact hd.next_wait hc hidx hs
          | reconnect_workers =>
            have hrecord : (h.record s .next).awaited = h.awaited := by simp [History.record, hc]
            rw [hrecord]
            have hcontrol := hd.not_run hc (by decide)
            simp only [Workload.proceed, Workload.next, hc, hidx, dif_pos, visit, Option.map_some]
              at hs
            cases hs
            simp only [Workload.set, Function.update_eq_self]
            exact ⟨hd.quiet, fun i hi => absurd (hcontrol i) hi, fun _ hx => (by cases hx),
              fun _ hx => (by cases hx),
              fun ha => ⟨(hd.joined ha).1, fun _ hx => (by cases hx)⟩,
              fun _ _ => hd.reconnects idx hc⟩
        · exact hd.next_over hc hidx hs
    | _ => cases hl
  · have hcalling := proceed_calling hl hs
    have hthreads := proceed_threads hl hs
    have hrecord : (h.record s l).awaited = h.awaited := by
      cases l with
      | call | next | fail => exact absurd trivial hl
      | _ => rfl
    rw [hrecord]
    refine ⟨proceed_quiet hd.quiet hs, fun i hi => ?_, fun idx hidx i hi => ?_,
      fun idx hidx i hi => ?_, fun ha => ⟨fun i => ?_, fun idx hidx => ?_⟩,
      fun idx hidx => hd.reconnects idx (hcalling.symm.trans hidx)⟩
    · rw [(hthreads i).1] at hi
      exact hcalling.trans (hd.idle i hi)
    · rw [(hthreads i).2]
      exact hd.ahead idx (hcalling.symm.trans hidx) i hi
    · rw [(hthreads i).2]
      exact hd.behind idx (hcalling.symm.trans hidx) i hi
    · rw [(hthreads i).2]
      exact (hd.joined ha).1 i
    · exact (hd.joined ha).2 idx (hcalling.symm.trans hidx)

/-- Outside of `run_thread` the counters of a worker are those of its last run. -/
def Counts (s : Workload n) (runs : Fin n → Run) : Prop :=
  ∀ i, (s.workers i).control = .idle → (s.workers i).Agrees (runs i)

private theorem run_agrees {w w' : ThreadedWorker} {e : ThreadEvent} {run : Run} (he : ¬ Own e)
    (hjoin : e ≠ .join) (hq : w.Quiet) (hj : w.joinable = false) (hstep : w.step e = some w')
    (hidle : w'.control = .idle) : w'.Agrees (note w e run) := by
  cases e with
  | loop | count | store => exact absurd trivial he
  | join => exact absurd rfl hjoin
  | runThread =>
    simp only [ThreadedWorker.step] at hstep
    split at hstep <;> cases hstep
    cases hidle
  | control =>
    have hjoinable : w'.joinable = true := by
      simp only [ThreadedWorker.step, ThreadedWorker.runThread] at hstep
      split at hstep <;> cases hstep <;> simp [hj] at hidle ⊢
    refine ThreadedWorker.Agrees.control hq (fun ht => ?_) (fun ht => ?_) hstep hjoinable
    · rw [hj] at ht
      cases ht
    · rw [hj] at ht
      cases ht
  | launchFails =>
    simp only [ThreadedWorker.step] at hstep
    split at hstep <;> cases hstep
    rename_i hc
    have hpc := hq.exited hj
    have hnone : w.counting = none := hq.counting_none (by simp [hpc])
    refine ⟨?_, ?_, ?_⟩
    · simpa [note, ThreadedWorker.successes, hnone] using
        (hq.resetSuccessful hj (.inr (.inr hc))).symm
    · simpa [note, ThreadedWorker.failures, hnone] using (hq.resetFailed hj (.inr hc)).symm
    · simp [note, ThreadedWorker.ongoing, hpc]

private theorem join_agrees {w w' : ThreadedWorker} {run : Run} (ha : w.Agrees run)
    (hstep : w.step .join = some w') : w'.Agrees (note w .join run) := by
  simp only [ThreadedWorker.step] at hstep
  split at hstep <;> cases hstep
  · exact ha
  · exact ha.congr rfl rfl

/-- Only a call touches a thread. -/
private theorem calling_of_event {i : Fin n} {e : ThreadEvent} (he : s.event l = some (i, e))
    (hown : ¬ Own e) (hjoin : e ≠ .join) : s.calling = some (.run, i.val) := by
  by_cases hl : l.Calls
  · cases l with
    | call => cases he
    | next =>
      simp only [Workload.event] at he
      split at he
      · rename_i idx hc
        split at he <;> cases he
        exact hc
      · split at he <;> cases he
        exact absurd rfl hjoin
      · cases he
      · cases he
    | fail =>
      simp only [Workload.event] at he
      split at he
      · rename_i idx hc
        split at he <;> cases he
        exact hc
      all_goals cases he
    | _ => cases hl
  · exact absurd (event_own hl he) hown

private theorem counts_step (hs : s.step l = some s') (hd : Driven s h.awaited)
    (hc : Counts s h.runs) : Counts s' (h.record s l).runs := by
  intro j hidle
  obtain ⟨_, hs⟩ := Workload.step_eq_some.mp hs
  obtain ⟨he, hw⟩ | ⟨i, e, w, he, hstep, hw⟩ := Workload.step_event hs
  · rw [hw] at hidle ⊢
    simp only [History.record, he]
    exact hc j hidle
  · rw [hw] at hidle ⊢
    simp only [History.record, he]
    by_cases hj : j = i
    · subst hj
      simp only [Function.update_self] at hidle ⊢
      by_cases hown : Own e
      · have ha := hc j ((own_thread hown hstep).1 ▸ hidle)
        have hnote : note (s.workers j) e (h.runs j) = Run.record (s.workers j) e (h.runs j) := by
          cases e with
          | launchFails => cases hown
          | _ => rfl
        rw [hnote]
        exact own_agrees hown (hd.quiet j) ha hstep
      · by_cases hjoin : e = .join
        · subst hjoin
          refine join_agrees (hc j ?_) hstep
          simp only [ThreadedWorker.step] at hstep
          split at hstep <;> cases hstep <;> exact hidle
        · have hcalling := calling_of_event he hown hjoin
          exact run_agrees hown hjoin (hd.quiet j)
            (hd.ahead _ hcalling j (Nat.le_refl _)) hstep hidle
    · simp only [Function.update_of_ne hj] at hidle ⊢
      exact hc j hidle

def Linked (s : Workload n) : Prop :=
  ∀ i, ((∀ action, (s.workers i).worker.pc ≠ .execute action) ∨
    (s.workers i).counting.isSome) → AtRest s.state i

private theorem atRest_of_ended {i : Fin n} {thrown : Bool} (he : s.ended i = some thrown) :
    AtRest s.state i := by
  simp only [Workload.ended] at he
  split at he
  · rename_i hpc hp
    exact ⟨hpc, by rw [hp]; rfl⟩
  · rename_i hpc hp
    exact ⟨hpc, by rw [hp]; rfl⟩
  · cases he

private theorem ended_of_count {i : Fin n} {thrown : Bool}
    (he : s.event l = some (i, .count thrown)) :
    s.ended i = some thrown := by
  cases l with
  | count j =>
    obtain ⟨b, hb, hx⟩ := Option.map_eq_some_iff.mp he
    cases hx
    exact hb
  | next | fail | edit =>
    simp only [Workload.event] at he
    (repeat' split at he) <;> cases he
  | _ => cases he

theorem lookup_of_begin {i : Fin n} {a : Action} {k : Nat} (hd : s.deed l = some (.begin i a k)) :
    l = .lookup i k := by
  cases l with
  | lookup j attempts =>
    simp only [Workload.deed] at hd
    (repeat' split at hd) <;> cases hd
    rfl
  | _ => cases hd

private theorem linked_lookup {i : Fin n} {attempts : Nat}
    (hs : s.proceed (.lookup i attempts) = some s')
    (hq : ∀ i, (s.workers i).Quiet) (hl : Linked s) : Linked s' := by
  obtain ⟨w, hstep, hw, _, hbegin⟩ := Workload.proceed_lookup hs
  have hpc : ∀ action, (s.workers i).worker.pc ≠ .execute action := by
    intro action hpc
    obtain ⟨worker, hworker, _⟩ := Option.map_eq_some_iff.mp hstep
    simp [RandomWorker.step, hpc] at hworker
  have hnone : w.counting = none := by
    obtain ⟨worker, _, rfl, _⟩ := ThreadedWorker.step_loop hstep
    exact (hq i).counting_none hpc
  intro j hj
  rw [hw] at hj
  by_cases hji : j = i
  · subst hji
    rw [Function.update_self] at hj
    obtain ⟨action, hexecute, _⟩ | ⟨_, hsame⟩ := hbegin
    · obtain hleft | hcounting := hj
      · exact absurd hexecute (hleft action)
      · simp [hnone] at hcounting
    · rw [hsame]
      exact hl j (.inl hpc)
  · rw [Function.update_of_ne hji] at hj
    obtain ⟨action, _, hstate⟩ | ⟨_, hsame⟩ := hbegin
    · exact (hl j hj).frame hstate hji
    · rw [hsame]
      exact hl j hj

theorem linked_step (hs : s.step l = some s') (hq : ∀ i, (s.workers i).Quiet)
    (hl : Linked s) : Linked s' := by
  obtain ⟨_, hs⟩ := Workload.step_eq_some.mp hs
  by_cases hlook : ∃ i attempts, l = .lookup i attempts
  · obtain ⟨i, attempts, rfl⟩ := hlook
    exact linked_lookup hs hq hl
  · intro j hj
    have before : AtRest s.state j := by
      obtain ⟨_, hw⟩ | ⟨i, e, w, he, hstep, hw⟩ := Workload.step_event hs
      · rw [hw] at hj
        exact hl j hj
      · rw [hw] at hj
        by_cases hji : j = i
        · subst hji
          rw [Function.update_self] at hj
          obtain hleft | hcounting := hj
          · by_cases hpc : ∃ action, (s.workers j).worker.pc = .execute action
            · obtain ⟨action, hpc⟩ := hpc
              exact hl j (.inr (leaves_execute (hq j) hstep hpc hleft))
            · exact hl j (.inl fun action ha => hpc ⟨action, ha⟩)
          · obtain hsome | ⟨thrown, rfl⟩ := begins_counting hstep hcounting
            · exact hl j (.inr hsome)
            · exact atRest_of_ended (ended_of_count he)
        · rw [Function.update_of_ne hji] at hj
          exact hl j hj
    obtain ⟨_, hsame⟩ | ⟨d, hd, hdeed⟩ := Workload.step_deed hs
    · rw [hsame]
      exact before
    · by_cases hjd : j = d.worker
      · subst hjd
        obtain ⟨i, a, k, rfl⟩ := before.begins hdeed
        exact absurd ⟨i, k, lookup_of_begin hd⟩ hlook
      · exact before.frame hdeed hjd

end Calls

section Runs
variable {params : WorkloadParams} {config : AllConfig} {actions : ActionRegistry}
  {g : GapFree Actions.Table} {s : Workload params.worker_count}
  {h : History params.worker_count}

/-- The scenario waits, and a container found empty is found empty again. -/
structure Disciplined (x : Workload n × History n) (l : Label n) : Prop where
  awaits : Awaits x l
  stable : ∀ d ∈ x.1.deed l, ∀ o ∈ x.1.state.operation d, EmptyStable x.1.state.metadata o

instance (x : Workload n × History n) (l : Label n) : Decidable (Disciplined x l) :=
  decidable_of_iff (Awaits x l ∧
      ∀ d ∈ x.1.deed l, ∀ o ∈ x.1.state.operation d, EmptyStable x.1.state.metadata o)
    ⟨fun h => ⟨h.1, h.2⟩, fun h => ⟨h.awaits, h.stable⟩⟩

/-- What holds along a run of a scenario that waits. -/
structure Conducted (s : Workload n) (h : History n) : Prop where
  driven : Driven s h.awaited
  counts : Counts s h.runs
  linked : Linked s

private theorem conducted_create (params : WorkloadParams) (config : AllConfig)
    (actions : ActionRegistry) (g : GapFree Actions.Table) :
    Conducted (.create params config actions g) .start where
  driven := by
    refine ⟨fun _ => ThreadedWorker.quiet_create config actions, fun i hi => absurd rfl hi,
      fun _ hx => (by cases hx), fun _ hx => (by cases hx),
      fun _ => ⟨fun _ => rfl, fun _ hx => (by cases hx)⟩, fun _ hx => (by cases hx)⟩
  counts := fun _ _ => ⟨rfl, rfl, rfl⟩
  linked := fun _ _ => ⟨rfl, rfl⟩

theorem conducted_of_reach
    (hr : Reach (recorded Workload.step History.record) Disciplined
      (.create params config actions g, .start) (s, h)) : Conducted s h := by
  refine hr.invariant (I := fun x => Conducted x.1 x.2)
    (conducted_create params config actions g) ?_
  rintro ⟨s, h⟩ l ⟨s', h'⟩ ⟨hd, hc, hl⟩ hg he
  obtain ⟨hs, rfl⟩ := recorded_eq_some.mp he
  exact ⟨driven_step hs hg.awaits hd, counts_step hs hd hc, linked_step hs hd.quiet hl⟩

/-- Once `wait_completion()` has returned, until the next `run()`, and all the while connections are
replaced: every thread was joined, the statistics are the numbers of actions of the last run that
returned and that threw, one for each iteration, every action has ended and given up its
reservation, and the metadata is a container without gaps again, with no mutex taken. -/
theorem wait_completion_quiesces
    (hr : Reach (recorded Workload.step History.record) Disciplined
      (.create params config actions g, .start) (s, h))
    (hquiet : h.awaited = true ∨ ∃ idx, s.calling = some (.reconnect_workers, idx)) :
    (∀ i, (s.workers i).joinable = false ∧ (s.workers i).worker.pc = .exited ∧
      (s.workers i).worker.successfulActions = (h.runs i).returned ∧
      (s.workers i).worker.failedActions = (h.runs i).threw ∧
      (h.runs i).iterations = (h.runs i).returned + (h.runs i).threw) ∧
    (∀ i, (s.state.metadata.threads i).pc = .idle ∧
      (s.state.metadata.threads i).res.isOpen = false) ∧
    ∃ g' : GapFree Actions.Table, s.state.metadata.data = g'.data := by
  obtain ⟨hd, hc, hl⟩ := conducted_of_reach hr
  have ha : h.awaited = true := hquiet.elim id fun ⟨idx, hidx⟩ => hd.reconnects idx hidx
  have hstate : Reach Actions.step (fun s d => ∀ o ∈ s.operation d, EmptyStable s.metadata o)
      (.at g.data) s.state := Workload.reach_deeds (fun _ _ hg => hg.stable) hr
  have hexited (i) : (s.workers i).worker.pc = .exited := (hd.quiet i).exited ((hd.joined ha).1 i)
  have hrest (i) : AtRest s.state i := hl i (.inl fun action hx => by
    rw [hexited i] at hx
    cases hx)
  have hsettled (i) := (hrest i).settled hstate
  refine ⟨fun i => ?_, fun i => ⟨(hrest i).idle, (hsettled i).not_open⟩, ?_⟩
  · have hidle : (s.workers i).control = .idle := by
      by_contra hne
      exact (hd.joined ha).2 _ (hd.idle i hne)
    have hnone : (s.workers i).counting = none := (hd.quiet i).counting_none (by simp [hexited i])
    obtain ⟨hreturned, hthrew, hiterations⟩ := hc i hidle
    simp only [ThreadedWorker.successes, ThreadedWorker.failures, ThreadedWorker.ongoing, hnone,
      hexited i] at hreturned hthrew hiterations
    exact ⟨(hd.joined ha).1 i, hexited i, hreturned.symm, hthrew.symm, hiterations⟩
  · exact Metadata.gapFree_of_settled (Actions.reach_operations (fun _ _ hx => hx) hstate)
      fun i => ⟨(hrest i).idle, hsettled i⟩

/-- A worker draws the action at this offset and carries it through, with what its requests read;
`none` is a step of an operation. -/
def carries (i : Fin n) (offset : Nat) (inputs : List (Option Actions.Input)) : List (Label n) :=
  [.loop i .totalWeight, .loop i (.draw offset), .lookup i 1] ++
    inputs.map (fun x => x.elim (.tick i) (.go i ·)) ++ [.count i, .store i]

def creating (steps : Nat) : List (Option Actions.Input) :=
  [some .none, some .none, none, some .none] ++
    [1, 2, 7, 8, 0].map (fun v => some (.drawn v)) ++
    [some .none, some (.sql (.returned .success)), some .none, some .none] ++
    List.replicate steps none ++ [some .none, some .none]

def updating : List (Option Actions.Input) :=
  [some .none, some .none, some (.drawn 0), some .none, none, none, none, some (.drawn 5),
    some (.sql (.returned .error))]

/-- Two workers are started, and waited for: one creates a table, and the other one updates it. -/
def twoWorkers (i j : Fin n) : List (Label n) :=
  [.call .run] ++ List.replicate 11 .next ++ carries i 50 (creating 6) ++
    carries j 3000 updating ++ [.loop i .expire, .loop j .expire, .call .wait_completion, .next,
      .next, .next]

private theorem wait_completion_quiesces_two :
    ∃ (s : Workload (WorkloadParams.worker_count ⟨1, 2⟩)) (h : History _),
      execute (recorded Workload.step History.record) Disciplined
        (twoWorkers ⟨0, by decide⟩ ⟨1, by decide⟩)
        (.create ⟨1, 2⟩ {} initializeDefaultRegisty .empty, .start) = some (s, h) ∧
      h.runs ⟨0, by decide⟩ = ⟨1, 1, 0⟩ ∧ h.runs ⟨1, by decide⟩ = ⟨1, 0, 1⟩ ∧
      (s.workers ⟨0, by decide⟩).worker.successfulActions = 1 ∧
      (s.workers ⟨1, by decide⟩).worker.failedActions = 1 ∧
      ∃ g' : GapFree Actions.Table, s.state.metadata.data = g'.data ∧ g'.tables.length = 1 := by
  obtain ⟨⟨s, h⟩, he, hs⟩ := Option.map_eq_some_iff.mp
    (show (execute (recorded Workload.step History.record) Disciplined
      (twoWorkers ⟨0, by decide⟩ ⟨1, by decide⟩)
      (Workload.create ⟨1, 2⟩ {} initializeDefaultRegisty .empty, .start)).map
        (fun (x : Workload (WorkloadParams.worker_count ⟨1, 2⟩) × History _) =>
          (x.2.awaited, x.2.runs ⟨0, by decide⟩, x.2.runs ⟨1, by decide⟩,
            x.1.state.metadata.data.tableCount)) = some (true, ⟨1, 1, 0⟩, ⟨1, 0, 1⟩, 1) by
      decide +kernel)
  simp only [Prod.mk.injEq] at hs
  obtain ⟨ha, hfirst, hsecond, hcount⟩ := hs
  obtain ⟨hworkers, _, g', hdata⟩ := wait_completion_quiesces (reach_of_execute _ he) (.inl ha)
  rw [hdata] at hcount
  exact ⟨s, h, he, hfirst, hsecond, (hworkers _).2.2.1.trans (congrArg Run.returned hfirst),
    (hworkers _).2.2.2.1.trans (congrArg Run.threw hsecond), g', hdata, hcount⟩

end Runs
end PStress.Scenario
