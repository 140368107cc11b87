import PStress.Actions.NeverStuck
import PStress.Scenario.Completion

/-! `wait_completion()` does not hang. A thread that is still there can take its next step, or the
action it executes waits for that of another thread, which can. -/
namespace PStress.Scenario
open Interleaving Registry
open Actions (AtRest CanGoOn Unhindered)
open Metadata (GapFree)
variable {n : Nat}

/-- A step of the worker's own thread, other than the end of its loop. -/
def Label.Of (i : Fin n) : Label n → Prop
  | .loop j e => j = i ∧ ∀ e', e ≠ .expire ∧ e ≠ .edit e'
  | .lookup j _ | .go j _ | .tick j | .count j | .store j => j = i
  | .call _ | .next | .fail | .edit .. => False

/-- The scenario waits, and its workers' actions do not hinder each other. -/
structure Attentive (x : Workload n × History n) (l : Label n) : Prop where
  awaits : Awaits x l
  unhindered : ∀ d ∈ x.1.deed l, Unhindered x.1.state d

instance (x : Workload n × History n) (l : Label n) : Decidable (Attentive x l) :=
  decidable_of_iff (Awaits x l ∧ ∀ d ∈ x.1.deed l, Unhindered x.1.state d)
    ⟨fun h => ⟨h.1, h.2⟩, fun h => ⟨h.awaits, h.unhindered⟩⟩

section Steps
variable {s : Workload n} {i : Fin n}

private theorem step_isSome {l : Label n} (hup : ∀ i, terminated (s.workers i).worker.pc = false)
    (h : (s.proceed l).isSome) : (s.step l).isSome := by
  obtain ⟨s', hs⟩ := Option.isSome_iff_exists.mp h
  rw [Workload.step_eq_some.mpr ⟨hup, hs⟩]
  rfl

private theorem proceed_action (h : CanGoOn s.state i) :
    ∃ l : Label n, l.Of i ∧ (s.proceed l).isSome := by
  obtain ⟨x, hx⟩ | htick := h
  · exact ⟨.go i x, rfl, by simpa [Workload.proceed] using hx⟩
  · exact ⟨.tick i, rfl, by simpa [Workload.proceed] using htick⟩

private theorem proceed_count (hrest : AtRest s.state i) {action : Actions.Action}
    (hpc : (s.workers i).worker.pc = .execute action) (hnone : (s.workers i).counting = none) :
    (s.proceed (.count i)).isSome := by
  have hfinished := hrest.finished
  have hended : ∃ thrown, s.ended i = some thrown := by
    cases hp : (s.state.workers i).program with
    | done => exact ⟨false, by simp [Workload.ended, hrest.idle, hp]⟩
    | stop e =>
      rw [hp] at hfinished
      cases e with
      | thrown => exact ⟨true, by simp [Workload.ended, hrest.idle, hp]⟩
      | undefined | unfinished => cases hfinished
    | ask =>
      rw [hp] at hfinished
      cases hfinished
  obtain ⟨thrown, ht⟩ := hended
  simp [Workload.proceed, ht, ThreadedWorker.step, hpc, hnone]

private theorem proceed_look_up (hrest : AtRest s.state i) {w : Nat}
    (hpc : (s.workers i).worker.pc = .lookup w) : (s.proceed (.lookup i 0)).isSome := by
  simp only [Workload.proceed, ThreadedWorker.step, RandomWorker.step, hpc]
  cases (s.workers i).worker.actions.lookupByWeightOffset w with
  | error e => rfl
  | ok f =>
    have hthread : s.state.metadata.threads i =
        ⟨(s.state.metadata.threads i).res, .idle⟩ := by rw [← hrest.idle]
    simp only [Option.map_some, Option.bind_some, Option.isSome_map, Actions.step]
    rw [hthread]
    simp [hrest.finished]

end Steps

section Runs
variable {params : WorkloadParams} {config : AllConfig} {actions : ActionRegistry}
  {g : GapFree Actions.Table} {s : Workload params.worker_count}
  {h : History params.worker_count}

/-- No thread hangs. -/
private theorem threads_go_on
    (hr : Reach (recorded Workload.step History.record) Attentive
      (.create params config actions g, .start) (s, h))
    (hup : ∀ i, terminated (s.workers i).worker.pc = false)
    (hrun : ∀ i e, (s.state.workers i).program = .stop e → e = .thrown)
    {i : Fin params.worker_count} (hi : (s.workers i).worker.pc ≠ .exited) :
    ∃ j, Relation.ReflTransGen (WaitsFor s.state.metadata.Wants s.state.metadata.Owns) i j ∧
      ∃ l : Label params.worker_count, l.Of j ∧ (s.proceed l).isSome := by
  obtain ⟨_, _, hlinked⟩ := conducted_of_reach (hr.weaken fun _ _ _ hg =>
    ⟨hg.awaits, fun d hd => (hg.unhindered d hd).stable⟩)
  cases hpc : (s.workers i).worker.pc with
  | exited => exact absurd hpc hi
  | terminated e =>
    have hdown := hup i
    rw [hpc] at hdown
    cases hdown
  | total =>
    refine ⟨i, .refl, .loop i .totalWeight, ⟨rfl, by simp⟩, ?_⟩
    simp [Workload.proceed, ThreadedWorker.step, RandomWorker.step, hpc]
  | draw total =>
    obtain ⟨v, hv⟩ := Actions.exists_drawn 0 total
    refine ⟨i, .refl, .loop i (.draw v), ⟨rfl, by simp⟩, ?_⟩
    simp [Workload.proceed, ThreadedWorker.step, RandomWorker.step, hpc, hv]
  | lookup w =>
    have hrest : AtRest s.state i := hlinked i (.inl fun action hx => by simp [hpc] at hx)
    exact ⟨i, .refl, .lookup i 0, rfl, proceed_look_up hrest hpc⟩
  | execute action =>
    cases hcounting : (s.workers i).counting with
    | some c =>
      obtain ⟨thrown, m⟩ := c
      refine ⟨i, .refl, .store i, rfl, ?_⟩
      cases thrown <;> simp [Workload.proceed, ThreadedWorker.step, hcounting]
    | none =>
      by_cases hrest : AtRest s.state i
      · exact ⟨i, .refl, .count i, rfl, proceed_count hrest hpc hcounting⟩
      · have hstate : Reach Actions.step Unhindered (.at g.data) s.state :=
          Workload.reach_deeds (fun _ _ hg => hg.unhindered) hr
        obtain ⟨j, hj, hcan⟩ := (Actions.unblocked_of_reach hstate).leads hrun hrest
        exact ⟨j, hj, proceed_action hcan⟩

/-- `wait_completion()` never hangs: while it does not go on itself, the thread that it waits for
can take a step of its loop or of its action, or it waits, directly or through others, for one that
can. -/
theorem wait_completion_goes_on
    (hr : Reach (recorded Workload.step History.record) Attentive
      (.create params config actions g, .start) (s, h))
    (hup : ∀ i, terminated (s.workers i).worker.pc = false)
    (hrun : ∀ i e, (s.state.workers i).program = .stop e → e = .thrown) {idx : Nat}
    (hcall : s.calling = some (.wait_completion, idx)) :
    (s.step .next).isSome ∨ ∃ (hidx : idx < params.worker_count) (j : Fin params.worker_count),
      Relation.ReflTransGen (WaitsFor s.state.metadata.Wants s.state.metadata.Owns) ⟨idx, hidx⟩ j ∧
        ∃ l : Label params.worker_count, l.Of j ∧ (s.step l).isSome := by
  by_cases hidx : idx < params.worker_count
  · by_cases hexited : (s.workers ⟨idx, hidx⟩).worker.pc = .exited
    · have hd := (conducted_of_reach (hr.weaken fun _ _ _ hg =>
        ⟨hg.awaits, fun d hd => (hg.unhindered d hd).stable⟩)).driven
      have hidle : (s.workers ⟨idx, hidx⟩).control = .idle := by
        by_contra hne
        cases hcall.symm.trans (hd.idle _ hne)
      refine .inl (step_isSome hup ?_)
      cases hj : (s.workers ⟨idx, hidx⟩).joinable <;>
        simp [Workload.proceed, Workload.next, hcall, hidx, visit, ThreadedWorker.step, hidle, hj,
          hexited]
    · obtain ⟨j, hj, l, hl, hs⟩ := threads_go_on hr hup hrun hexited
      exact .inr ⟨hidx, j, hj, l, hl, step_isSome hup hs⟩
  · exact .inl (step_isSome hup (by simp [Workload.proceed, Workload.next, hcall, hidx]))

def single : WorkloadParams := ⟨1, 1⟩

def waitWhileDrawing (i : Fin n) : List (Label n) :=
  [.call .run] ++ List.replicate 6 .next ++ [.loop i .totalWeight, .call .wait_completion]

theorem wait_completion_goes_on_single : ∃ (s : Workload single.worker_count)
    (h : History single.worker_count),
    execute (recorded Workload.step History.record) Attentive (waitWhileDrawing ⟨0, by decide⟩)
      (.create single {} initializeDefaultRegisty .empty, .start) = some (s, h) ∧
    (s.step .next).isNone ∧
    ((s.step .next).isSome ∨ ∃ (hidx : 0 < single.worker_count) (j : Fin single.worker_count),
      Relation.ReflTransGen (WaitsFor s.state.metadata.Wants s.state.metadata.Owns) ⟨0, hidx⟩ j ∧
        ∃ l : Label single.worker_count, l.Of j ∧ (s.step l).isSome) := by
  obtain ⟨⟨s, h⟩, he, hs⟩ := Option.map_eq_some_iff.mp
    (show (execute (recorded Workload.step History.record) Attentive
      (waitWhileDrawing ⟨0, by decide⟩)
      (.create single {} initializeDefaultRegisty .empty, .start)).map (fun x =>
        (x.1.calling, (x.1.step .next).isNone,
          decide (∀ i, terminated (x.1.workers i).worker.pc = false ∧
            Actions.finished (x.1.state.workers i).program = true))) =
      some (some (.wait_completion, 0), true, true) by decide +kernel)
  obtain ⟨hcall, hs⟩ := Prod.mk.inj hs
  obtain ⟨hnone, hall⟩ := Prod.mk.inj hs
  have hrest := of_decide_eq_true hall
  refine ⟨s, h, he, hnone, wait_completion_goes_on (reach_of_execute _ he) (fun i => (hrest i).1)
    (fun i e hp => ?_) hcall⟩
  have hfinished := (hrest i).2
  rw [hp] at hfinished
  cases e with
  | thrown => rfl
  | undefined | unfinished => cases hfinished

end Runs
end PStress.Scenario
