import Mathlib.Logic.Function.Basic
import Mathlib.Tactic.Common

/-! Runs of a partial, labelled step function. A guard restricts the steps a run may take;
an invariant is proved once for every guarded run. -/
namespace PStress.Interleaving
variable {S L H : Type*}

/-- States reached from `s₀` by enabled steps that all satisfy the guard. -/
inductive Reach (step : S → L → Option S) (guard : S → L → Prop) (s₀ : S) : S → Prop where
  | start : Reach step guard s₀ s₀
  | next {s t : S} (l : L) : Reach step guard s₀ s → guard s l → step s l = some t →
      Reach step guard s₀ t

def always (_ : S) (_ : L) : Prop := True

instance (s : S) (l : L) : Decidable (always s l) := inferInstanceAs (Decidable True)

namespace Reach
variable {step : S → L → Option S} {guard guard' : S → L → Prop} {s₀ s t : S}

theorem invariant {I : S → Prop} (h₀ : I s₀)
    (hstep : ∀ s l t, I s → guard s l → step s l = some t → I t)
    (h : Reach step guard s₀ s) : I s := by
  induction h with
  | start => exact h₀
  | next l _ hg he ih => exact hstep _ l _ ih hg he

/-- An invariant may lean on facts already known of every reached state. -/
theorem invariant_with {I J : S → Prop} (hJ : ∀ s, Reach step guard s₀ s → J s) (h₀ : I s₀)
    (hstep : ∀ s l t, J s → J t → I s → guard s l → step s l = some t → I t)
    (h : Reach step guard s₀ s) : I s := by
  induction h with
  | start => exact h₀
  | next l hr hg he ih => exact hstep _ l _ (hJ _ hr) (hJ _ (.next l hr hg he)) ih hg he

/-- Another guard allows the same run if it allows each of its steps. -/
theorem weaken (hw : ∀ s l, Reach step guard s₀ s → guard s l → guard' s l)
    (h : Reach step guard s₀ s) : Reach step guard' s₀ s := by
  induction h with
  | start => exact .start
  | next l hr hg he ih => exact .next l ih (hw _ l hr hg) he

theorem trans (h : Reach step guard s₀ s) (k : Reach step guard s t) :
    Reach step guard s₀ t := by
  induction k with
  | start => exact h
  | next l _ hg he ih => exact .next l ih hg he

end Reach

/-- Replay of a list of labels; `none` when one of them is not enabled or not allowed. -/
def execute (step : S → L → Option S) (guard : S → L → Prop) [∀ s l, Decidable (guard s l)] :
    List L → S → Option S
  | [], s => some s
  | l :: ls, s => if guard s l then (step s l).bind (execute step guard ls) else none

theorem reach_of_execute {step : S → L → Option S} {guard : S → L → Prop}
    [∀ s l, Decidable (guard s l)] (ls : List L) {s t : S}
    (h : execute step guard ls s = some t) : Reach step guard s t := by
  induction ls generalizing s with
  | nil => cases h; exact .start
  | cons l ls ih =>
    simp only [execute] at h
    split at h
    · obtain ⟨u, hu, ht⟩ := Option.bind_eq_some_iff.mp h
      exact (Reach.next l .start (by assumption) hu).trans (ih ht)
    · cases h

/-- A run that also keeps a record of what happened: the record is computed from the state
before each step and never read by the step. -/
def recorded (step : S → L → Option S) (record : S → L → H → H) (x : S × H) (l : L) :
    Option (S × H) :=
  (step x.1 l).map fun t => (t, record x.1 l x.2)

section Recorded
variable {step : S → L → Option S} {record : S → L → H → H} {guard : S → L → Prop}

theorem recorded_eq_some {x y : S × H} {l : L} :
    recorded step record x l = some y ↔ step x.1 l = some y.1 ∧ y.2 = record x.1 l x.2 := by
  obtain ⟨t, k⟩ := y
  simp only [recorded, Option.map_eq_some_iff, Prod.mk.injEq]
  constructor
  · rintro ⟨_, hs, rfl, rfl⟩
    exact ⟨hs, rfl⟩
  · rintro ⟨hs, rfl⟩
    exact ⟨t, hs, rfl, rfl⟩

theorem Reach.forget {x₀ x : S × H}
    (h : Reach (recorded step record) (fun x l => guard x.1 l) x₀ x) :
    Reach step guard x₀.1 x.1 := by
  induction h with
  | start => exact .start
  | next l _ hg he ih => exact .next l ih hg (recorded_eq_some.mp he).1

theorem Reach.unrecorded {G : S × H → L → Prop} {x₀ x : S × H}
    (h : Reach (recorded step record) G x₀ x) : Reach step always x₀.1 x.1 := by
  induction h with
  | start => exact .start
  | next l _ _ he ih => exact .next l ih trivial (recorded_eq_some.mp he).1

/-- Every run can be recorded. -/
theorem Reach.remember {s₀ s : S} (h : Reach step guard s₀ s) (k₀ : H) :
    ∃ k, Reach (recorded step record) (fun x l => guard x.1 l) (s₀, k₀) (s, k) := by
  induction h with
  | start => exact ⟨k₀, .start⟩
  | next l _ hg he ih =>
    obtain ⟨k, hk⟩ := ih
    exact ⟨_, .next l hk hg (recorded_eq_some.mpr ⟨he, rfl⟩)⟩

/-- A run with a record can keep another one besides. -/
theorem Reach.besides {H' : Type*} {record' : S → L → H' → H'} {s₀ s : S} {k₀ k : H}
    (h : Reach (recorded step record) (fun x l => guard x.1 l) (s₀, k₀) (s, k)) (k₀' : H') :
    ∃ k', Reach (recorded step fun s l y => (record s l y.1, record' s l y.2))
      (fun x l => guard x.1 l) (s₀, k₀, k₀') (s, k, k') := by
  generalize hx : (s, k) = x at h
  induction h generalizing s k with
  | start =>
    cases hx
    exact ⟨k₀', .start⟩
  | next l _ hg he ih =>
    cases hx
    obtain ⟨hs, rfl⟩ := recorded_eq_some.mp he
    obtain ⟨k', hk⟩ := ih rfl
    exact ⟨_, .next l hk hg (recorded_eq_some.mpr ⟨hs, rfl⟩)⟩

/-- A record that another one determines. -/
theorem Reach.project {H' : Type*} {record' : S → L → H' → H'} (π : H → H')
    (hπ : ∀ s l k, π (record s l k) = record' s l (π k)) {s₀ s : S} {k₀ k : H}
    (h : Reach (recorded step record) (fun x l => guard x.1 l) (s₀, k₀) (s, k)) :
    Reach (recorded step record') (fun x l => guard x.1 l) (s₀, π k₀) (s, π k) := by
  generalize hx : (s, k) = x at h
  induction h generalizing s k with
  | start =>
    cases hx
    exact .start
  | next l _ hg he ih =>
    cases hx
    obtain ⟨hs, rfl⟩ := recorded_eq_some.mp he
    exact .next l (ih rfl) hg (recorded_eq_some.mpr ⟨hs, hπ _ l _⟩)

end Recorded
end PStress.Interleaving
