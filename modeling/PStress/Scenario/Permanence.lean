import PStress.Actions.WithoutDrops
import PStress.Scenario.Completion
import PStress.Scenario.Removal

/-! A scenario that removes `drop_table` from the registry of every worker: once the DROPs already
begun are over, no table is lost. -/
namespace PStress.Scenario
open Interleaving Registry ActionRegistry
open Actions (Action AtRest DropsNothing NoDrop)
open Metadata (GapFree EmptyStable Keeping)
variable {n : Nat}

section Steps
variable {s s' : Workload n} {l : Label n} {j : Fin n}
  {guard : Actions.State (Fin n) → Actions.Label (Fin n) → Prop} {g : GapFree Actions.Table}

private theorem same_action {w w' : ThreadedWorker} {e : ThreadEvent} (hq : w.Quiet)
    (h : w.step e = some w') {a a' : Action} (ha : w.worker.pc = .execute a)
    (ha' : w'.worker.pc = .execute a') : a = a' := by
  obtain hkept | ⟨_, htotal⟩ := execute_step hq h ha
  · rw [hkept] at ha'
    cases ha'
    rfl
  · rw [htotal] at ha'
    cases ha'

private theorem execute_of_step (hq : ∀ i, (s.workers i).Quiet) (hs : s.proceed l = some s')
    {a a' : Action} (ha : (s.workers j).worker.pc = .execute a)
    (ha' : (s'.workers j).worker.pc = .execute a') : a = a' := by
  obtain ⟨_, hw⟩ | ⟨i, e, w, _, hstep, hw⟩ := Workload.step_event hs
  · rw [hw, ha] at ha'
    cases ha'
    rfl
  · rw [hw] at ha'
    by_cases hj : j = i
    · subst hj
      rw [Function.update_self] at ha'
      exact same_action (hq j) hstep ha ha'
    · rw [Function.update_of_ne hj, ha] at ha'
      cases ha'
      rfl

private theorem execute_of_begin {a : Action} {k : Nat} (hs : s.proceed l = some s')
    (hd : s.deed l = some (.begin j a k)) : (s'.workers j).worker.pc = .execute a := by
  obtain rfl := lookup_of_begin hd
  obtain ⟨w, hstep, hw, _⟩ := Workload.proceed_lookup hs
  simp only [Workload.deed, hstep] at hd
  split at hd <;> cases hd
  rw [hw, Function.update_self]
  assumption

/-- A worker that does not execute a DROP has nothing left to do that drops a table. -/
def Spared (s : Workload n) : Prop :=
  ∀ i, (∀ action, (s.workers i).worker.pc = .execute action → action.drops = false) →
    DropsNothing s.state i

private theorem spared_step (hs : s.step l = some s') (hq : ∀ i, (s.workers i).Quiet)
    (hl : Linked s) (hr : Reach Actions.step guard (.at g.data) s.state)
    (hr' : Reach Actions.step guard (.at g.data) s'.state) (hsp : Spared s) : Spared s' := by
  intro j hj
  have hp := (Workload.step_eq_some.mp hs).2
  by_cases hrest : ∀ action, (s'.workers j).worker.pc ≠ .execute action
  · exact (linked_step hs hq hl j (.inl hrest)).dropsNothing hr'
  · obtain ⟨a', ha'⟩ := not_forall_not.mp hrest
    have hbefore : DropsNothing s.state j := by
      refine hsp j fun a ha => ?_
      rw [execute_of_step hq hp ha ha']
      exact hj a' ha'
    obtain ⟨_, hsame⟩ | ⟨d, hd, hdeed⟩ := Workload.step_deed hp
    · exact hsame ▸ hbefore
    · refine Actions.dropsNothing_step hdeed (Actions.allOwned_of_reach hr) (fun hw => ?_) hbefore
      cases d with
      | begin i a k =>
        obtain rfl : j = i := hw
        exact hj a (execute_of_begin hp hd)
      | go | tick => trivial

end Steps

section Runs
variable {params : WorkloadParams} {config : AllConfig} {actions : ActionRegistry}
  {g : GapFree Actions.Table} {s₁ s : Workload params.worker_count}
  {h₁ h : Removals params.worker_count}

private theorem spared_of_reach {H : Type} {record : Workload params.worker_count → Label _ → H → H}
    {guard : Workload params.worker_count × H → Label _ → Prop} {h₀ : H}
    {x : Workload params.worker_count × H}
    (hr : Reach (recorded Workload.step record) guard (.create params config actions g, h₀) x) :
    Spared x.1 := by
  have hdeeds {x : Workload params.worker_count × H}
      (hx : Reach (recorded Workload.step record) guard (.create params config actions g, h₀) x) :
      Reach Actions.step always (.at g.data) x.1.state :=
    Workload.reach_deeds (fun _ _ _ _ _ => trivial) hx
  have hstart : Linked (Workload.create params config actions g) := fun _ _ => ⟨rfl, rfl⟩
  refine (hr.invariant_with
    (I := fun x => (∀ i, (x.1.workers i).Quiet) ∧ Linked x.1 ∧ Spared x.1)
    (fun _ hx => hdeeds hx) ⟨fun _ => ThreadedWorker.quiet_create config actions, hstart,
      fun i _ => AtRest.dropsNothing ⟨rfl, rfl⟩ (hdeeds .start)⟩ ?_).2.2
  rintro x l y hx hy ⟨hq, hl, hsp⟩ _ he
  have hs := (recorded_eq_some.mp he).1
  exact ⟨proceed_quiet hq (Workload.step_eq_some.mp hs).2, linked_step hs hq hl,
    spared_step hs hq hl hx hy hsp⟩

/-- The scenario never puts `drop_table` back, and a container found empty is found empty again. -/
structure WithoutDropTable (x : Workload n × Removals n) (l : Label n) : Prop where
  out : KeepsOut Action.drops dropTable.name x l
  stable : ∀ d ∈ x.1.deed l, ∀ o ∈ x.1.state.operation d, EmptyStable x.1.state.metadata o

private theorem removed_record {kind : Action → Bool} {name : String} {w : Workload n} {l : Label n}
    {r : Removals n} {i : Fin n} (hi : r.removed i = true) :
    (r.record kind name w l).removed i = true := by
  unfold Removals.record
  split
  · split
    · split
      · simp only [Function.update_apply]
        split <;> [rfl; exact hi]
      · exact hi
    · exact hi
  · split <;> exact hi
  · exact hi

/-- Once `drop_table` was removed from the registry of every worker, even while they run, and the
DROPs being executed then are over, every table stays at its slot with its identity, whatever the
workers and the scenario do, and the number of tables never goes down. -/
theorem tables_stay_without_drop_table (hdistinct : actions.Distinct)
    (hnamed : actions.All (Named Action.drops dropTable.name))
    (hr₁ : Reach (recorded Workload.step (Removals.record Action.drops dropTable.name))
      WithoutDropTable (.create params config actions g, .start) (s₁, h₁))
    (hremoved : ∀ i, h₁.removed i = true)
    (hover : ∀ i action, (s₁.workers i).worker.pc = .execute action → action.drops = false)
    (hr : Reach (recorded Workload.step (Removals.record Action.drops dropTable.name))
      WithoutDropTable (s₁, h₁) (s, h)) :
    Keeping s₁.state.metadata.data s.state.metadata.data := by
  have hout {x : Workload params.worker_count × Removals params.worker_count}
      (hx : Reach (recorded Workload.step (Removals.record Action.drops dropTable.name))
        WithoutDropTable (s₁, h₁) x) (i) :
      (x.1.workers i).worker.actions.All (Without Action.drops) := by
    have hb := barred_of_reach hdistinct hnamed
      ((hr₁.trans hx).weaken fun _ _ _ hg => hg.out) i
    exact hb.without (hx.invariant (I := fun x => ∀ i, x.2.removed i = true) hremoved
      (fun _ _ _ hi _ he i => (recorded_eq_some.mp he).2 ▸ removed_record (hi i)) i)
  have hdeeds : Reach Actions.step (fun s d => (∀ o ∈ s.operation d, EmptyStable s.metadata o) ∧
      NoDrop s d) s₁.state s.state := by
    have hguards : Reach (recorded Workload.step (Removals.record Action.drops dropTable.name))
        (fun x l => ∀ d ∈ x.1.deed l,
          (∀ o ∈ x.1.state.operation d, EmptyStable x.1.state.metadata o) ∧ NoDrop x.1.state d)
        (s₁, h₁) (s, h) := hr.weaken fun x l hx hg d hd => ⟨hg.stable d hd, ?_⟩
    · exact Workload.reach_deeds (G := fun s d =>
        (∀ o ∈ s.operation d, EmptyStable s.metadata o) ∧ NoDrop s d) (fun _ _ hg => hg) hguards
    cases d with
    | begin i action k =>
      obtain rfl := lookup_of_begin hd
      obtain ⟨f, hf, rfl⟩ := mem_of_begin hd
      exact hout hx i f hf _
    | go | tick => trivial
  exact Actions.keeping_of_noDrop (fun _ _ hg => hg)
    (Workload.reach_deeds (fun _ _ hg => hg.stable) hr₁)
    (fun i => spared_of_reach hr₁ i (hover i)) hdeeds

/-- The only edits are removals, and a container found empty is found empty again. -/
def RemovesStably (x : Workload n × Removals n) (l : Label n) : Prop :=
  OnlyRemoves x l ∧ ∀ d ∈ x.1.deed l, ∀ o ∈ x.1.state.operation d,
    EmptyStable x.1.state.metadata o

instance (x : Workload n × Removals n) (l : Label n) : Decidable (RemovesStably x l) :=
  inferInstanceAs (Decidable (_ ∧ _))

private theorem withoutDropTable_of_removesStably {x : Workload n × Removals n} {l : Label n}
    (hg : RemovesStably x l) : WithoutDropTable x l := ⟨keepsOut_of_onlyRemoves hg.1, hg.2⟩

private theorem named_drops_default :
    initializeDefaultRegisty.All (Named Action.drops dropTable.name) := by
  intro f hf config hk
  obtain rfl | rfl | rfl | rfl | rfl | rfl := mem_default hf <;> first | rfl | cases hk

def executing : Pc → Option Action
  | .execute action => some action
  | _ => none

def removeDrop : List (Label n) :=
  [.call .run] ++ List.replicate 6 .next ++ [.edit 1 (.remove dropTable.name)]

def altering : List (Option Actions.Input) :=
  [some .none, some (.drawn 0), some .none, none, none, some .none, some .none, some (.drawn 1),
    some (.drawn 0), some (.drawn 7), some (.drawn 0), some .none, some .none,
    some (.sql (.returned .success)), some .none, some .none, none, none, some .none, some .none]

def altersAndCreates (i : Fin n) : List (Label n) :=
  carries i 101 altering ++ carries i 50 (creating 10)

theorem tables_stay_without_drop_table_altered :
    ∃ (s₁ s : Workload (WorkloadParams.worker_count ⟨1, 1⟩)) (h₁ h : Removals _),
      execute (recorded Workload.step (Removals.record Action.drops dropTable.name))
        RemovesStably removeDrop
        (.create ⟨1, 1⟩ {} initializeDefaultRegisty Actions.twoTables, .start) = some (s₁, h₁) ∧
      execute (recorded Workload.step (Removals.record Action.drops dropTable.name))
        RemovesStably (altersAndCreates ⟨0, by decide⟩) (s₁, h₁) = some (s, h) ∧
      s.state.metadata.data.tableCount = 3 ∧
      (s.state.metadata.data.tables 0).map (fun p => p.value.columns.length) = some 3 ∧
      Keeping s₁.state.metadata.data s.state.metadata.data := by
  obtain ⟨⟨s₁, h₁⟩, he₁, hsecond⟩ := Option.bind_eq_some_iff.mp
    (show ((execute (recorded Workload.step (Removals.record Action.drops dropTable.name))
      RemovesStably removeDrop
      (.create ⟨1, 1⟩ {} initializeDefaultRegisty Actions.twoTables, .start)).bind
        fun (x : Workload (WorkloadParams.worker_count ⟨1, 1⟩) × Removals _) =>
          (execute (recorded Workload.step (Removals.record Action.drops dropTable.name))
            RemovesStably (altersAndCreates ⟨0, by decide⟩) x).map fun y =>
              (decide (∀ i, x.2.removed i = true),
                decide (∀ i, (executing (x.1.workers i).worker.pc).isNone = true),
                y.1.state.metadata.data.tableCount,
                (y.1.state.metadata.data.tables 0).map fun p => p.value.columns.length)) =
        some (true, true, 3, some 3) by decide +kernel)
  obtain ⟨⟨s, h⟩, he, hs⟩ := Option.map_eq_some_iff.mp hsecond
  simp only [Prod.mk.injEq, decide_eq_true_eq] at hs
  obtain ⟨hremoved, hnone, hcount, hcolumns⟩ := hs
  have hr₁ : Reach _ WithoutDropTable _ _ :=
    (reach_of_execute _ he₁).weaken fun _ _ _ => withoutDropTable_of_removesStably
  have hr : Reach _ WithoutDropTable _ _ :=
    (reach_of_execute _ he).weaken fun _ _ _ => withoutDropTable_of_removesStably
  refine ⟨s₁, s, h₁, h, he₁, he, hcount, hcolumns, tables_stay_without_drop_table
    (by decide +kernel) named_drops_default hr₁ hremoved (fun i action ha => ?_) hr⟩
  have hpc := hnone i
  rw [ha] at hpc
  cases hpc

end Runs
end PStress.Scenario
