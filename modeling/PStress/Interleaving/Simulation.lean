import Mathlib.Data.List.Induction
import PStress.Interleaving.Reach

/-! Runs explained by another machine. Each step of a run stands for at most one event of that
machine; the events of the run, in their order, are then a run of the machine. -/
namespace PStress.Interleaving
variable {S L A E : Type*}

/-- The events lead from one state to the other. -/
inductive Events (Next : A → E → A → Prop) (m₀ : A) : List E → A → Prop where
  | nil : Events Next m₀ [] m₀
  | snoc {es : List E} {m n : A} (e : E) : Events Next m₀ es m → Next m e n →
      Events Next m₀ (es ++ [e]) n

def Does (Next : A → E → A → Prop) (m : A) : Option E → A → Prop
  | none, n => n = m
  | some e, n => Next m e n

def logged (event : S → L → Option E) (s : S) (l : L) (es : List E) : List E :=
  es ++ (event s l).toList

namespace Events
variable {Next : A → E → A → Prop} {m₀ m n : A} {es fs : List E}

theorem does {o : Option E} (h : Events Next m₀ es m) (hd : Does Next m o n) :
    Events Next m₀ (es ++ o.toList) n := by
  cases o with
  | none =>
    cases hd
    simpa using h
  | some e => exact .snoc e h hd

theorem invariant {I : A → Prop} (h₀ : I m₀) (hstep : ∀ m e n, I m → Next m e n → I n)
    (h : Events Next m₀ es m) : I m := by
  induction h with
  | nil => exact h₀
  | snoc e _ he ih => exact hstep _ e _ ih he

theorem snoc_inv {e : E} (h : Events Next m₀ (es ++ [e]) n) :
    ∃ m, Events Next m₀ es m ∧ Next m e n := by
  generalize hx : es ++ [e] = fs at h
  cases h with
  | nil => simp at hx
  | snoc e' h he =>
    obtain ⟨rfl, he'⟩ := List.append_inj' hx rfl
    cases List.singleton_inj.mp he'
    exact ⟨_, h, he⟩

/-- A log can be cut in two. -/
theorem split (h : Events Next m₀ (es ++ fs) n) :
    ∃ m, Events Next m₀ es m ∧ Events Next m fs n := by
  induction fs using List.reverseRecOn generalizing n with
  | nil => exact ⟨n, by simpa using h, .nil⟩
  | append_singleton fs e ih =>
    obtain ⟨k, hk, he⟩ := snoc_inv (by simpa [← List.append_assoc] using h)
    obtain ⟨m, hm, hf⟩ := ih hk
    exact ⟨m, hm, .snoc e hf he⟩

end Events

/-- A forward simulation: the relation goes through every step, whose event the other machine
follows. It may lean on facts known of every reached state. -/
theorem Reach.explained {step : S → L → Option S} {guard : S → L → Prop}
    {event : S → L → Option E} {Next : A → E → A → Prop} {R : S → A → Prop} {s₀ s : S} {m₀ : A}
    {es : List E} (h₀ : R s₀ m₀)
    (hstep : ∀ s l t m, Reach step guard s₀ s → R s m → guard s l → step s l = some t →
      ∃ n, Does Next m (event s l) n ∧ R t n)
    (h : Reach (recorded step (logged event)) (fun x l => guard x.1 l) (s₀, []) (s, es)) :
    ∃ m, Events Next m₀ es m ∧ R s m := by
  refine h.invariant_with (I := fun x => ∃ m, Events Next m₀ x.2 m ∧ R x.1 m)
    (J := fun x => Reach step guard s₀ x.1) (fun x hx => hx.forget) ⟨m₀, .nil, h₀⟩ ?_
  rintro ⟨s, es⟩ l ⟨t, fs⟩ hs _ ⟨m, hm, hr⟩ hg he
  obtain ⟨ht, rfl⟩ := recorded_eq_some.mp he
  obtain ⟨n, hd, hn⟩ := hstep s l t m hs hr hg ht
  exact ⟨n, hm.does hd, hn⟩

/-- What a run of a system makes of a part of it is a run of the part. -/
theorem Reach.along {S' L' : Type*} {step : S → L → Option S} {guard : S → L → Prop}
    {step' : S' → L' → Option S'} {guard' : S' → L' → Prop} (part : S → S') {s₀ s : S}
    (hstep : ∀ s l t, guard s l → step s l = some t →
      part t = part s ∨ ∃ l', guard' (part s) l' ∧ step' (part s) l' = some (part t))
    (h : Reach step guard s₀ s) : Reach step' guard' (part s₀) (part s) := by
  induction h with
  | start => exact .start
  | next l _ hg he ih =>
    obtain hsame | ⟨l', hg', he'⟩ := hstep _ l _ hg he
    · rw [hsame]
      exact ih
    · exact .next l' ih hg' he'

end PStress.Interleaving
