import Mathlib.Data.Fintype.EquivFin
import Mathlib.Logic.Relation
import Mathlib.Order.Basic
import Mathlib.Order.WellFounded
import Mathlib.Tactic.Common

/-! Waiting for locks. If every thread that waits for a lock owns only smaller ones, no thread
waits, directly or through others, for itself. -/
namespace PStress.Interleaving
variable {ι K : Type*}

/-- `i` waits for a lock that `j` owns. -/
def WaitsFor (wants owns : ι → K → Prop) (i j : ι) : Prop := ∃ k, wants i k ∧ owns j k

/-- A nonempty chain of waiting threads that closes; a chain of one is a thread that waits for
its own lock. -/
def Deadlocked (wants owns : ι → K → Prop) (i : ι) : Prop :=
  Relation.TransGen (WaitsFor wants owns) i i

/-- Where no thread waits for itself, the threads that a blocked one waits for lead to one that is
not blocked. -/
theorem waits_for_unblocked [Finite ι] {wants owns : ι → K → Prop} {p : ι → Prop}
    (hnone : ∀ i, ¬ Deadlocked wants owns i)
    (hnext : ∀ i, p i → ∃ j, WaitsFor wants owns i j) {i : ι} (hi : p i) :
    ∃ j, ¬ p j ∧ Relation.TransGen (WaitsFor wants owns) i j := by
  have hwf : WellFounded (fun a b => Relation.TransGen (WaitsFor wants owns) b a) :=
    haveI : IsTrans ι fun a b => Relation.TransGen (WaitsFor wants owns) b a :=
      ⟨fun _ _ _ h h' => h'.trans h⟩
    haveI : Std.Irrefl fun a b : ι => Relation.TransGen (WaitsFor wants owns) b a := ⟨hnone⟩
    Finite.wellFounded_of_trans_of_irrefl _
  obtain ⟨j, hj, hlast⟩ := hwf.has_min
    {j | Relation.TransGen (WaitsFor wants owns) i j} ((hnext i hi).imp fun _ h => .single h)
  refine ⟨j, fun hb => ?_, hj⟩
  obtain ⟨l, hl⟩ := hnext j hb
  exact hlast l (hj.tail hl) (.single hl)

variable [Preorder K] {wants owns : ι → K → Prop}

private theorem chain_ascends (hord : ∀ i k l, wants i k → owns i l → l < k) {i j : ι}
    (h : Relation.TransGen (WaitsFor wants owns) i j) :
    ∃ k l, wants i k ∧ owns j l ∧ k ≤ l := by
  induction h with
  | single h =>
    obtain ⟨k, hw, ho⟩ := h
    exact ⟨k, k, hw, ho, le_rfl⟩
  | tail _ h ih =>
    obtain ⟨k, l, hw, ho, hkl⟩ := ih
    obtain ⟨m, hm, hom⟩ := h
    exact ⟨k, m, hw, hom, hkl.trans (hord _ m l hm ho).le⟩

theorem not_deadlocked_of_ordered (hord : ∀ i k l, wants i k → owns i l → l < k) (i : ι) :
    ¬ Deadlocked wants owns i := by
  intro h
  obtain ⟨k, l, hw, ho, hkl⟩ := chain_ascends hord h
  exact absurd (hord i k l hw ho) (not_lt_of_ge hkl)

end PStress.Interleaving
