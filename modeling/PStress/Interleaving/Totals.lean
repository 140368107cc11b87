import Mathlib.Algebra.BigOperators.Group.Finset.Basic
import Mathlib.Algebra.Order.BigOperators.Group.Finset
import Mathlib.Tactic.Common

/-! Counting over the entries of a function: how a total changes when one entry does. -/
namespace PStress.Interleaving
variable {κ κ' T T' : Type*}

def total (s : Finset κ) (w : T → Nat) (f : κ → T) : Nat := ∑ k ∈ s, w (f k)

theorem total_eq_zero {s : Finset κ} {w : T → Nat} {f : κ → T} (h : ∀ k, w (f k) = 0) :
    total s w f = 0 := Finset.sum_eq_zero fun k _ => h k

theorem le_total {s : Finset κ} (w : T → Nat) (f : κ → T) {k : κ} (hk : k ∈ s) :
    w (f k) ≤ total s w f :=
  Finset.single_le_sum (f := fun k => w (f k)) (fun _ _ => Nat.zero_le _) hk

theorem total_update [DecidableEq κ] {s : Finset κ} (w : T → Nat) (f : κ → T) {k : κ}
    (hk : k ∈ s) (x : T) :
    total s w (Function.update f k x) + w (f k) = total s w f + w x := by
  have split (g : κ → T) : total s w g = ∑ j ∈ s.erase k, w (g j) + w (g k) :=
    (Finset.sum_erase_add s (fun j => w (g j)) hk).symm
  rw [split, split f, Function.update_self, Finset.sum_congr rfl fun j hj =>
    congrArg w (Function.update_of_ne (Finset.ne_of_mem_erase hj) x f)]
  omega

/-- One entry changes while every other one comes to count at most `c` more. -/
theorem total_update_le [DecidableEq κ] {s : Finset κ} {w v : T → Nat} {f : κ → T} {c : Nat}
    (hc : ∀ k ∈ s, v (f k) ≤ w (f k) + c) {k : κ} (hk : k ∈ s) (x : T) :
    total s v (Function.update f k x) + w (f k) ≤ total s w f + v x + s.card * c := by
  have split (w : T → Nat) (g : κ → T) : total s w g = ∑ j ∈ s.erase k, w (g j) + w (g k) :=
    (Finset.sum_erase_add s (fun j => w (g j)) hk).symm
  have hrest : ∑ j ∈ s.erase k, v (f j) ≤ ∑ j ∈ s.erase k, w (f j) + s.card * c :=
    calc ∑ j ∈ s.erase k, v (f j) ≤ ∑ j ∈ s.erase k, (w (f j) + c) :=
          Finset.sum_le_sum fun j hj => hc j (Finset.mem_of_mem_erase hj)
      _ = ∑ j ∈ s.erase k, w (f j) + (s.erase k).card * c := by
          rw [Finset.sum_add_distrib, Finset.sum_const_nat fun _ _ => rfl]
      _ ≤ ∑ j ∈ s.erase k, w (f j) + s.card * c :=
          Nat.add_le_add_left (Nat.mul_le_mul_right c (Finset.card_erase_le)) _
  rw [split v, split w, Function.update_self, Finset.sum_congr rfl fun j hj =>
    congrArg v (Function.update_of_ne (Finset.ne_of_mem_erase hj) x f)]
  omega

/-- An entry moves to a place that counted as much as what stays behind. -/
theorem total_transfer [DecidableEq κ] {s : Finset κ} (w : T → Nat) (f : κ → T) {i j : κ}
    (hi : i ∈ s) (hj : j ∈ s) (hij : i ≠ j) {x : T} (hx : w x = w (f j)) :
    total s w (Function.update (Function.update f i x) j (f i)) = total s w f := by
  have h₁ := total_update w f hi x
  have h₂ := total_update w (Function.update f i x) hj (f i)
  rw [Function.update_of_ne hij.symm] at h₂
  omega

/-- Entries that count one and stand for distinct entries of another function are no more than
those. -/
theorem total_le_total {s : Finset κ} {t : Finset κ'} {w : T → Nat} {v : T' → Nat} {f : κ → T}
    {g : κ' → T'} (σ : κ → κ') (hone : ∀ i, w (f i) ≤ 1)
    (hσ : ∀ i, w (f i) = 1 → σ i ∈ t ∧ 1 ≤ v (g (σ i)))
    (hinj : ∀ i j, w (f i) = 1 → w (f j) = 1 → σ i = σ j → i = j) :
    total s w f ≤ total t v g := by
  classical
  calc total s w f = ∑ i ∈ s.filter (fun i => w (f i) = 1), 1 := by
        rw [total, Finset.sum_filter]
        refine Finset.sum_congr rfl fun i _ => ?_
        have := hone i
        split <;> omega
    _ = (s.filter (fun i => w (f i) = 1)).card := by simp
    _ ≤ (t.filter (fun k => 1 ≤ v (g k))).card := by
        refine Finset.card_le_card_of_injOn σ (fun i hi => ?_) (fun i hi j hj he => ?_)
        · simpa using hσ i (by simpa using (Finset.mem_filter.mp hi).2)
        · exact hinj i j (Finset.mem_filter.mp hi).2 (Finset.mem_filter.mp hj).2 he
    _ = ∑ k ∈ t.filter (fun k => 1 ≤ v (g k)), 1 := by simp
    _ ≤ ∑ k ∈ t.filter (fun k => 1 ≤ v (g k)), v (g k) :=
        Finset.sum_le_sum fun k hk => (Finset.mem_filter.mp hk).2
    _ ≤ total t v g := Finset.sum_le_sum_of_subset (Finset.filter_subset _ _)

end PStress.Interleaving
