import PStress.Actions.Mirror

/-! Workers between two actions: no action leaves a reservation behind. -/
namespace PStress.Actions
open Interaction Interleaving Metadata Program
variable {ι : Type}

/-- The contract that asks for nothing but that reservations are given up. -/
def leavesNothing : Contract where
  stored _ := True
  draws _ _ := True
  counts _ _ := True
  asks _ _ := True

private theorem leavesNothing_kept (a : Action) (attempts : Nat) :
    leavesNothing.Kept (some a) .closed (a.execute attempts) := by
  have hl : leavesNothing.Lenient (some a) := ⟨fun _ _ => trivial, fun _ => trivial,
    fun _ _ => ⟨trivial, trivial, trivial⟩⟩
  cases a with
  | createTable config => exact Contract.kept_create hl trivial (fun _ _ _ _ _ _ _ => trivial) _
  | dropTable config => exact Contract.kept_drop hl _
  | alterTable config commands => exact Contract.kept_alter hl trivial (fun _ _ _ _ => trivial) _
  | insertData table rows => exact Contract.kept_insert hl _
  | deleteData config => exact Contract.kept_delete hl trivial _
  | updateOneRow => exact Contract.kept_update hl _
  | customSql c => exact Contract.kept_custom hl _

/-- A worker is between two actions. -/
structure AtRest (s : State ι) (i : ι) : Prop where
  idle : (s.metadata.threads i).pc = .idle
  finished : finished (s.workers i).program = true

section Steps
variable [DecidableEq ι] {guard : State ι → Label ι → Prop} {g : GapFree Table} {s s' : State ι}
  {d : Label ι} {j : ι}

/-- A worker between two actions has no reservation. -/
theorem AtRest.settled {i : ι} (h : AtRest s i) (hr : Reach step guard (.at g.data) s) :
    (s.metadata.threads i).res.Settled := by
  have holds : leavesNothing.Holds s := by
    refine Contract.holds_of_reach (fun _ _ => trivial) (fun s l _ _ => ⟨?_, ?_, ?_⟩) hr
    · rintro i a n rfl
      exact leavesNothing_kept a n
    · intros
      trivial
    · intros
      trivial
  have hkept := holds.kept i (.of (s.metadata.threads i).res) (by rw [Contract.Outcome, h.idle])
  have hclosed : Handle.of (s.metadata.threads i).res = .closed := by
    have hfin := h.finished
    cases hp : (s.workers i).program with
    | done =>
      rw [hp] at hkept
      exact hkept
    | stop e =>
      rw [hp] at hkept hfin
      cases e with
      | thrown => exact hkept rfl
      | undefined | unfinished => cases hfin
    | ask =>
      rw [hp] at hfin
      cases hfin
  have hok := (allOwned_of_reach hr i).ok
  rw [h.idle] at hok
  obtain hs | hc | ⟨⟨b, hb⟩, _⟩ := hok
  · exact hs
  · obtain ⟨p, _, hof⟩ := Handle.of_creating hc
    rw [hof] at hclosed
    cases hclosed
  · obtain ⟨p, _, hof⟩ := Handle.of_holding hb
    rw [hof] at hclosed
    cases b <;> cases hclosed

/-- The other workers stay where they are. -/
theorem step_frame (hs : step s d = some s') (hj : j ≠ d.worker) :
    s'.metadata.threads j = s.metadata.threads j ∧ s'.workers j = s.workers j := by
  cases d with
  | begin i a k =>
    replace hj : j ≠ i := hj
    obtain ⟨_, _, rfl⟩ := step_begin hs
    simp [State.set, hj]
  | go i x =>
    replace hj : j ≠ i := hj
    obtain ⟨_, _, _, _, _, _, _, _, _, rfl⟩ := step_go hs
    simp [State.set, hj]
  | tick i =>
    replace hj : j ≠ i := hj
    obtain ⟨_, _, _, rfl⟩ := step_tick hs
    simp [State.set, hj]

theorem AtRest.frame (hr : AtRest s j) (hs : step s d = some s') (hj : j ≠ d.worker) :
    AtRest s' j := by
  obtain ⟨hthread, hworker⟩ := step_frame hs hj
  exact ⟨by rw [hthread, hr.idle], by rw [hworker, hr.finished]⟩

/-- A worker between two actions only begins one. -/
theorem AtRest.begins (hr : AtRest s d.worker) (hs : step s d = some s') :
    ∃ i a k, d = .begin i a k := by
  obtain ⟨hidle, hfinished⟩ := hr
  cases d with
  | begin i a k => exact ⟨i, a, k, rfl⟩
  | go i x =>
    obtain ⟨_, q, k, _, _, _, _, hp, _⟩ := step_go hs
    simp [Label.worker, hp, Actions.finished] at hfinished
  | tick i =>
    obtain ⟨_, _, ht, _⟩ := step_tick hs
    simp only [Label.worker] at hidle
    simp [hidle, Metadata.tick] at ht

/-- The operations the workers' steps consist of. -/
theorem reach_operations {G : Metadata.State ι Table → Metadata.Label ι Table → Prop}
    {s₀ : State ι} (hg : ∀ s l, guard s l → ∀ o ∈ s.operation l, G s.metadata o)
    (hr : Reach step guard s₀ s) : Reach Metadata.step G s₀.metadata s.metadata := by
  refine hr.along (fun x => x.metadata) fun s l s' hl he => ?_
  obtain ⟨_, hsame⟩ | ⟨o, ho, hstep⟩ := step_operation he
  · exact .inl hsame
  · exact .inr ⟨o, hg s l hl o (by simp [ho]), hstep⟩

def StablyEmpty (s : State ι) (l : Label ι) : Prop := ∀ o ∈ s.operation l, EmptyStable s.metadata o

omit [DecidableEq ι] in
instance (s : State ι) (l : Label ι) : Decidable (StablyEmpty s l) :=
  inferInstanceAs (Decidable (∀ _ ∈ s.operation l, _))

end Steps
end PStress.Actions
