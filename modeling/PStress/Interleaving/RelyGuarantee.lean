import Mathlib.Logic.Function.Basic
import Mathlib.Tactic.Common

/-! Proof outlines for threads over shared data. Each thread has an assertion about the shared
data and its own local state; it relies on what the other threads leave alone. -/
namespace PStress.Interleaving
variable {ι D T A : Type*}

/-- `act i a d t` is one atomic step of thread `i`. An outline asserts something at every local
state, keeps it across the thread's own steps and across what it relies on from the others.
`given` collects what is known elsewhere about a step. -/
structure Outline (act : ι → A → D → T → Option (D × T)) (given : ι → A → D → T → Prop) where
  holds : ι → D → T → Prop
  rely : ι → D → D → Prop
  stable : ∀ {i d d' t}, rely i d d' → holds i d t → holds i d' t
  sound : ∀ {i a d t d' t'}, act i a d t = some (d', t') → given i a d t → holds i d t →
    holds i d' t'
  guarantee : ∀ {i j a d t d' t'}, act i a d t = some (d', t') → given i a d t → holds i d t →
    j ≠ i → rely j d d'

/-- One thread's step keeps every thread's assertion. -/
theorem Outline.preserved [DecidableEq ι] {act : ι → A → D → T → Option (D × T)}
    {given : ι → A → D → T → Prop} (P : Outline act given) {threads : ι → T} {i : ι} {a : A}
    {d d' : D} {t' : T} (h : ∀ j, P.holds j d (threads j))
    (hs : act i a d (threads i) = some (d', t')) (hg : given i a d (threads i)) :
    ∀ j, P.holds j d' (Function.update threads i t' j) := by
  intro j
  by_cases hj : j = i
  · subst hj
    simpa using P.sound hs hg (h j)
  · rw [Function.update_of_ne hj]
    exact P.stable (P.guarantee hs hg (h i) hj) (h j)

end PStress.Interleaving
