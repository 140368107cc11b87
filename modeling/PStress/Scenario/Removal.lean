import PStress.Registry.Kinds
import PStress.Scenario.Workload

/-! An action that a scenario removes from the registry of a worker while the worker runs: an
action already looked up is carried through, and none is begun afterwards. -/
namespace PStress.Scenario
open Interleaving Registry ActionRegistry
open Actions (Action)
open Metadata (GapFree)
variable {n : Nat}

/-- From which registries the action was removed, and how many actions of its kind were begun by
each worker since then. -/
structure Removals (n : Nat) where
  removed : Fin n → Bool
  begun : Fin n → Nat

def Removals.start : Removals n := ⟨fun _ => false, fun _ => 0⟩

def Removals.record (kind : Action → Bool) (name : String) (s : Workload n) (l : Label n)
    (h : Removals n) : Removals n :=
  match l, s.deed l with
  | .edit idx (.remove m), _ =>
    match s.worker idx with
    | .ok i => if m = name then { h with removed := Function.update h.removed i true } else h
    | .error _ => h
  | _, some (.begin i action _) =>
    if kind action && h.removed i then { h with begun := Function.update h.begun i (h.begun i + 1) }
    else h
  | _, _ => h

/-- Registries that are used have distinct names, only the action of this name is of the kind, and
nobody puts one back into a registry from which it was removed. -/
def KeepsOut (kind : Action → Bool) (name : String) (x : Workload n × Removals n) :
    Label n → Prop
  | .edit idx e => ∀ i, x.1.worker idx = .ok i →
    (∀ other, e = .use other → other.Distinct) ∧ e.Adds (Named kind name) ∧
      (x.2.removed i = true → e.Adds (Without kind))
  | _ => True

/-- What holds of a worker and its registry. -/
structure Barred (kind : Action → Bool) (name : String) (x : Workload n × Removals n)
    (i : Fin n) : Prop where
  distinct : (x.1.workers i).worker.actions.Distinct
  named : (x.1.workers i).worker.actions.All (Named kind name)
  without : x.2.removed i = true → (x.1.workers i).worker.actions.All (Without kind)
  none : x.2.begun i = 0

section Steps
variable {kind : Action → Bool} {name : String} {s s' : Workload n} {h : Removals n} {l : Label n}

private theorem actions_of_step {w w' : ThreadedWorker} {e : ThreadEvent}
    (hs : w.step e = some w') :
    w'.worker.actions = w.worker.actions ∨ ∃ d, e = .loop (.edit d) ∧
      w'.worker.actions = w.worker.actions.edit d := by
  cases e with
  | loop e =>
    cases e with
    | edit d =>
      cases hs
      exact .inr ⟨d, rfl, rfl⟩
    | run | finish => cases hs
    | expire | totalWeight | draw | lookup =>
      obtain ⟨worker, hw, rfl⟩ := Option.map_eq_some_iff.mp hs
      simp only [RandomWorker.step] at hw
      (repeat' split at hw) <;> cases hw <;> exact .inl rfl
  | control =>
    simp only [ThreadedWorker.step, ThreadedWorker.runThread] at hs
    split at hs <;> cases hs <;> exact .inl rfl
  | count | store | runThread | launchFails | join =>
    simp only [ThreadedWorker.step] at hs
    split at hs <;> cases hs <;> exact .inl rfl

private theorem proceed_actions (hl : ∀ idx e, l ≠ .edit idx e) (hs : s.proceed l = some s')
    (i : Fin n) :
    (s'.workers i).worker.actions = (s.workers i).worker.actions := by
  obtain ⟨_, hw⟩ | ⟨j, e, w, he, hstep, hw⟩ := Workload.step_event hs
  · rw [hw]
  · rw [hw]
    by_cases hi : i = j
    · subst hi
      rw [Function.update_self]
      obtain hsame | ⟨d, rfl, _⟩ := actions_of_step hstep
      · exact hsame
      · cases l with
        | edit idx d' => exact absurd rfl (hl idx d')
        | loop k e =>
          cases he
          cases hs
        | next | fail =>
          simp only [Workload.event] at he
          (repeat' split at he) <;> cases he
        | count k =>
          obtain ⟨b, _, hx⟩ := Option.map_eq_some_iff.mp he
          cases hx
        | call | lookup | go | tick | store => cases he
    · rw [Function.update_of_ne hi]

/-- The action that is begun comes from the registry. -/
theorem mem_of_begin {i : Fin n} {action : Action} {attempts k : Nat}
    (hd : s.deed (.lookup i attempts) = some (.begin i action k)) :
    ∃ f ∈ (s.workers i).worker.actions.factories,
      action = f.builder (s.workers i).worker.config := by
  simp only [Workload.deed] at hd
  split at hd
  · rename_i w hw
    split at hd <;> cases hd
    rename_i hpc
    obtain ⟨worker, hstep, rfl⟩ := Option.map_eq_some_iff.mp hw
    simp only [RandomWorker.step] at hstep
    split at hstep
    · split at hstep <;> cases hstep
      · rename_i f hf
        cases hpc
        exact ⟨f, mem_of_lookup hf, rfl⟩
      · cases hpc
    · cases hstep
  · cases hd

private theorem record_of_ne (hedit : ∀ idx e, l ≠ .edit idx e) (hbegin : ∀ i a k,
    s.deed l = some (.begin i a k) → kind a = true → h.removed i = true → False) :
    h.record kind name s l = h := by
  unfold Removals.record
  split
  · exact absurd rfl (hedit _ _)
  · rename_i i a k _ hd
    refine if_neg fun hk => ?_
    obtain ⟨ha, hr⟩ := (Bool.and_eq_true _ _).mp hk
    exact hbegin i a k hd ha hr
  · rfl

private theorem record_edit (kind : Action → Bool) (name : String) (s : Workload n) (h : Removals n)
    (idx : Nat) (e : Edit) :
    (h.record kind name s (.edit idx e)).begun = h.begun ∧
      ∀ i, (h.record kind name s (.edit idx e)).removed i = true →
        h.removed i = true ∨ s.worker idx = .ok i ∧ e = .remove name := by
  cases e with
  | remove m =>
    simp only [Removals.record]
    split
    · rename_i j hj
      split
      · rename_i hm
        refine ⟨rfl, fun i hi => ?_⟩
        by_cases hij : i = j
        · exact .inr ⟨hij ▸ hj, hm ▸ rfl⟩
        · simp only [Function.update_of_ne hij] at hi
          exact .inl hi
      · exact ⟨rfl, fun i hi => .inl hi⟩
    · exact ⟨rfl, fun i hi => .inl hi⟩
  | _ => exact ⟨rfl, fun i hi => .inl hi⟩

private theorem barred_edit {idx : Nat} {e : Edit} (hb : ∀ i, Barred kind name (s, h) i)
    (hg : KeepsOut kind name (s, h) (.edit idx e)) (hs : s.proceed (.edit idx e) = some s')
    (i : Fin n) : Barred kind name (s', h.record kind name s (.edit idx e)) i := by
  obtain ⟨hdistinct, hnamed, hwithout, hnone⟩ := hb i
  obtain ⟨hbegun, hremoved⟩ := record_edit kind name s h idx e
  have hnone' : (h.record kind name s (.edit idx e)).begun i = 0 := by rw [hbegun, hnone]
  by_cases hi : s.worker idx = .ok i
  · have hactions : (s'.workers i).worker.actions = (s.workers i).worker.actions.edit e := by
      simp only [Workload.proceed, hi] at hs
      split at hs <;> cases hs
      simp [Workload.set]
    obtain ⟨hother, hadds, hkept⟩ := hg i hi
    refine ⟨?_, ?_, fun hr => ?_, hnone'⟩
    · rw [hactions]
      exact edit_distinct hdistinct hother
    · rw [hactions]
      exact all_edit hnamed hadds
    · rw [hactions]
      obtain hold | ⟨_, rfl⟩ := hremoved i hr
      · exact all_edit (hwithout hold) (hkept hold)
      · exact without_of_removed hdistinct hnamed
  · have hactions : (s'.workers i).worker.actions = (s.workers i).worker.actions := by
      simp only [Workload.proceed] at hs
      split at hs
      · split at hs <;> cases hs
        · rename_i j hj
          have hij : i ≠ j := fun he => hi (he ▸ hj)
          simp [Workload.set, Function.update_of_ne hij]
        · rfl
      · cases hs
    refine ⟨hactions ▸ hdistinct, hactions ▸ hnamed, fun hr => ?_, hnone'⟩
    obtain hold | ⟨hj, _⟩ := hremoved i hr
    · exact hactions ▸ hwithout hold
    · exact absurd hj hi

private theorem barred_step {l : Label n} (hb : ∀ i, Barred kind name (s, h) i)
    (hg : KeepsOut kind name (s, h) l) (hs : s.step l = some s') (i : Fin n) :
    Barred kind name (s', h.record kind name s l) i := by
  obtain ⟨_, hs⟩ := Workload.step_eq_some.mp hs
  by_cases hl : ∃ idx e, l = .edit idx e
  · obtain ⟨idx, e, rfl⟩ := hl
    exact barred_edit hb hg hs i
  · have hedit : ∀ idx e, l ≠ .edit idx e := fun idx e he => hl ⟨idx, e, he⟩
    have hactions := proceed_actions hedit hs i
    have hrecord : h.record kind name s l = h := by
      refine record_of_ne hedit fun j a k hd ha hr => ?_
      cases l with
      | lookup j' attempts =>
        have hj : j' = j := by
          simp only [Workload.deed] at hd
          (repeat' split at hd) <;> cases hd
          rfl
        subst hj
        obtain ⟨f, hf, rfl⟩ := mem_of_begin hd
        rw [(hb j').without hr f hf] at ha
        cases ha
      | _ => cases hd
    rw [hrecord]
    obtain ⟨hdistinct, hnamed, hwithout, hnone⟩ := hb i
    exact ⟨hactions ▸ hdistinct, hactions ▸ hnamed, fun hr => hactions ▸ hwithout hr, hnone⟩

end Steps

section Runs
variable {kind : Action → Bool} {name : String} {params : WorkloadParams} {config : AllConfig}
  {actions : ActionRegistry} {g : GapFree Actions.Table} {s : Workload params.worker_count}
  {h : Removals params.worker_count}

theorem barred_of_reach (hdistinct : actions.Distinct) (hnamed : actions.All (Named kind name))
    (hr : Reach (recorded Workload.step (Removals.record kind name)) (KeepsOut kind name)
      (.create params config actions g, .start) (s, h)) (i : Fin params.worker_count) :
    Barred kind name (s, h) i := by
  refine hr.invariant (I := fun x => ∀ i, Barred kind name x i) (fun i => ?_) ?_ i
  · exact ⟨hdistinct, hnamed, fun hx => (by cases hx), rfl⟩
  · rintro ⟨s, h⟩ l ⟨s', h'⟩ hb hg he i
    obtain ⟨hs, rfl⟩ := recorded_eq_some.mp he
    exact barred_step hb hg hs i

/-- Once a scenario has removed an action from the registry of a worker, even while the worker
runs, the worker begins no action of that kind again; one that it had begun may still go on. -/
theorem removed_action_not_begun (hdistinct : actions.Distinct)
    (hnamed : actions.All (Named kind name))
    (hr : Reach (recorded Workload.step (Removals.record kind name)) (KeepsOut kind name)
      (.create params config actions g, .start) (s, h)) (i : Fin params.worker_count) :
    h.begun i = 0 ∧ (h.removed i = true →
      (s.workers i).worker.actions.All (Without kind) ∧
      ∀ attempts j action k, s.deed (.lookup i attempts) = some (.begin j action k) →
        kind action = false) := by
  obtain ⟨_, _, hwithout, hnone⟩ := barred_of_reach hdistinct hnamed hr i
  refine ⟨hnone, fun hrem => ⟨hwithout hrem, ?_⟩⟩
  intro attempts j action k hd
  have hj : j = i := by
    simp only [Workload.deed] at hd
    (repeat' split at hd) <;> cases hd
    rfl
  subst hj
  obtain ⟨f, hf, rfl⟩ := mem_of_begin hd
  exact hwithout hrem f hf _

def removes : Edit → Bool
  | .remove _ => true
  | _ => false

def OnlyRemoves (_ : Workload n × Removals n) : Label n → Prop
  | .edit _ e => removes e = true
  | _ => True

instance (x : Workload n × Removals n) : (l : Label n) → Decidable (OnlyRemoves x l)
  | .edit _ e => inferInstanceAs (Decidable (removes e = true))
  | .call _ | .next | .fail | .loop .. | .lookup .. | .go .. | .tick _ | .count _ | .store _ =>
    inferInstanceAs (Decidable True)

theorem keepsOut_of_onlyRemoves {x : Workload n × Removals n} {l : Label n}
    (h : OnlyRemoves x l) : KeepsOut kind name x l := by
  cases l with
  | edit idx e =>
    cases e with
    | remove m => exact fun _ _ => ⟨fun _ he => (by cases he), trivial, fun _ => trivial⟩
    | _ => cases h
  | _ => trivial

def alters : Action → Bool
  | .alterTable .. => true
  | _ => false

theorem mem_default {f : ActionFactory} (h : f ∈ initializeDefaultRegisty.factories) :
    f = createNormalTable ∨ f = dropTable ∨ f = alterTable ∨ f = insertSomeData ∨
      f = deleteSomeData ∨ f = updateOneRow := by
  have hall : initializeDefaultRegisty.factories = [createNormalTable, dropTable, alterTable,
      insertSomeData, deleteSomeData, updateOneRow] := rfl
  simpa [hall] using h

private theorem named_default : initializeDefaultRegisty.All (Named alters alterTable.name) := by
  intro f hf config hk
  obtain rfl | rfl | rfl | rfl | rfl | rfl := mem_default hf <;> first | rfl | cases hk

def removeAlter (i : Fin n) : List (Label n) :=
  [.call .run] ++ List.replicate 6 .next ++
    [.edit 1 (.remove alterTable.name), .loop i .totalWeight, .loop i (.draw 201)]

theorem removed_action_not_begun_alter : ∃ (s : Workload (WorkloadParams.worker_count ⟨1, 1⟩))
    (h : Removals (WorkloadParams.worker_count ⟨1, 1⟩)),
    execute (recorded Workload.step (Removals.record alters alterTable.name)) OnlyRemoves
      (removeAlter ⟨0, by decide⟩) (.create ⟨1, 1⟩ {} initializeDefaultRegisty .empty, .start) =
        some (s, h) ∧
    h.removed ⟨0, by decide⟩ = true ∧
    ∀ attempts j action k, s.deed (.lookup ⟨0, by decide⟩ attempts) = some (.begin j action k) →
      alters action = false := by
  obtain ⟨⟨s, h⟩, he, hs⟩ := Option.map_eq_some_iff.mp
    (show (execute (recorded Workload.step (Removals.record alters alterTable.name)) OnlyRemoves
      (removeAlter ⟨0, by decide⟩)
        (.create ⟨1, 1⟩ {} initializeDefaultRegisty .empty, .start)).map
          (fun x => x.2.removed ⟨0, by decide⟩) = some true by decide +kernel)
  have hr : Reach _ (KeepsOut alters alterTable.name) _ _ :=
    (reach_of_execute _ he).weaken fun _ _ _ => keepsOut_of_onlyRemoves
  exact ⟨s, h, he, hs, ((removed_action_not_begun (by decide +kernel) named_default hr _).2 hs).2⟩

end Runs
end PStress.Scenario
