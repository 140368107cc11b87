import Mathlib.Data.Fintype.Basic
import Mathlib.Logic.Hydra
import Mathlib.Order.WellFounded

/-! Systems of threads that come to a stop. A step brings one thread down in a well-founded order
and leaves the others where they are, or it changes none of them and lowers a potential they
share. -/
namespace PStress.Interleaving
open Relation
variable {ι A S : Type*}

/-- One thread has come down, the others are where they were. -/
def OneBelow (r : A → A → Prop) (f' f : ι → A) : Prop :=
  ∃ i, r (f' i) (f i) ∧ ∀ j, j ≠ i → f' j = f j

private theorem oneBelow_wf [Finite ι] {r : A → A → Prop} (hr : WellFounded r) :
    WellFounded (OneBelow r : (ι → A) → (ι → A) → Prop) := by
  classical
  have := Fintype.ofFinite ι
  have : Std.Irrefl r := ⟨fun a ha => hr.asymmetric a a ha ha⟩
  refine Subrelation.wf ?_
    (InvImage.wf (fun f : ι → A => Finset.univ.val.map f) hr.cutExpand)
  rintro f' f ⟨i, hi, hrest⟩
  have split (f : ι → A) : Finset.univ.val.map f = (Finset.univ.val.erase i).map f + {f i} := by
    conv_lhs => rw [← Multiset.cons_erase (Finset.mem_univ_val i)]
    rw [Multiset.map_cons, Multiset.add_comm, Multiset.singleton_add]
  have same : (Finset.univ.val.erase i).map f' = (Finset.univ.val.erase i).map f := by
    refine Multiset.map_congr rfl fun j hj => hrest j ?_
    exact ((Multiset.Nodup.mem_erase_iff Finset.univ.nodup).mp hj).1
  rw [InvImage, split f', split f, same]
  exact cutExpand_add_single _ hi

/-- No infinite sequence of steps: each brings a thread down, or lowers what they share. -/
theorem wellFounded_of_ranks [Finite ι] {r : A → A → Prop} (hr : WellFounded r) {R : S → S → Prop}
    (rank : S → ι → A) (Φ : S → Nat)
    (h : ∀ s s', R s' s → OneBelow r (rank s') (rank s) ∨ rank s' = rank s ∧ Φ s' < Φ s) :
    WellFounded R := by
  refine Subrelation.wf ?_ (InvImage.wf (fun s => (rank s, Φ s))
    (WellFounded.prod_lex (oneBelow_wf hr) Nat.lt_wfRel.wf))
  intro s' s hs
  obtain hdown | ⟨hsame, hless⟩ := h s s' hs
  · exact .left _ _ hdown
  · rw [InvImage, hsame]
    exact .right _ hless

end PStress.Interleaving
