import PStress.Registry.Registry

/-! The offsets a lookup accepts, and the offsets below the total weight. The two are computed by
sums of different types. -/
namespace PStress.Registry
open Actions Selection
namespace ActionRegistry
variable (r : ActionRegistry)

def sum : Nat := weight ActionFactory.size r.factories

/-- The largest of the sums of the first weights, reduced to `std::size_t`. -/
def peak : Nat :=
  ((List.range r.factories.length).map fun i =>
    weight ActionFactory.size (r.factories.take (i + 1)) % 18446744073709551616).foldr max 0

/-- An offset the lookup has an action for. -/
def Accepts (o : Nat) : Prop := ∃ f, r.lookupByWeightOffset o = .ok f

end ActionRegistry

section Numbers

private theorem narrow_toSize_add (a : Int) (n : Nat) :
    narrow ((toSize a + n) % 18446744073709551616 : Nat) = narrow (a + n) := by
  simp only [narrow, toSize, Int.bmod_def]
  omega

private theorem narrow_narrow_add (a : Int) (n : Nat) : narrow (narrow a + n) = narrow (a + n) := by
  simp only [narrow, Int.bmod_def]
  omega

private theorem toSize_lt (v : Int) : toSize v < 18446744073709551616 := by
  simp only [toSize]
  omega

private theorem toSize_narrow_eq {n : Nat} (h : n < 18446744073709551616) :
    toSize (narrow n) = n ↔ n < 2147483648 ∨ 18446744071562067968 ≤ n := by
  simp only [narrow, toSize, Int.bmod_def]
  omega

private theorem toSize_narrow_le {n : Nat} (h : 0 ≤ narrow n) :
    toSize (narrow n) ≤ n % 18446744073709551616 := by
  simp only [narrow, toSize, Int.bmod_def] at h ⊢
  omega

private theorem le_foldr_max {l : List Nat} (hl : l ≠ []) (n : Nat) :
    n ≤ l.foldr max 0 ↔ ∃ x ∈ l, n ≤ x := by
  induction l with
  | nil => exact absurd rfl hl
  | cons a l ih =>
    rw [List.foldr_cons, le_max_iff, List.exists_mem_cons_iff]
    by_cases h : l = []
    · subst h
      simp
      omega
    · rw [ih h]

end Numbers

namespace ActionRegistry
variable {r : ActionRegistry}

private theorem foldl_narrow (l : List ActionFactory) (a : Int) :
    l.foldl (fun a b => narrow ((toSize a + b.size) % 18446744073709551616 : Nat)) (narrow a) =
      narrow (a + weight ActionFactory.size l) := by
  induction l generalizing a with
  | nil => simp
  | cons f l ih =>
    rw [List.foldl_cons, narrow_toSize_add, narrow_narrow_add, ih, weight_cons, Nat.cast_add,
      Int.add_assoc]

/-- The total weight is the sum as an `int`, converted back. -/
theorem totalWeight_eq : r.totalWeight = toSize (narrow r.sum) := by
  have h := foldl_narrow r.factories 0
  rw [Int.zero_add] at h
  rw [totalWeight, sum, ← h]
  rfl

theorem totalWeight_of_lt (h : r.sum < 2147483648) : r.totalWeight = r.sum := by
  rw [totalWeight_eq]
  exact (toSize_narrow_eq (by omega)).mpr (.inl h)

private theorem accepts_iff_isSome (o : Nat) : r.Accepts o ↔
    (findRunning (fun accum (f : ActionFactory) => (accum + f.size) % 18446744073709551616)
      (o ≤ ·) 0 r.factories).isSome := by
  simp only [Accepts, lookupByWeightOffset]
  split <;> simp [*]

/-- A lookup has an action for the offsets up to the largest running sum. -/
theorem accepts_iff (hr : r.factories ≠ []) (o : Nat) : r.Accepts o ↔ o ≤ r.peak := by
  have hl : (List.range r.factories.length).map (fun i =>
      weight ActionFactory.size (r.factories.take (i + 1)) % 18446744073709551616) ≠ [] := by
    simpa using hr
  rw [accepts_iff_isSome, findRunning_isSome, running_mod, peak, le_foldr_max hl]
  simp

private theorem peak_lt : r.peak < 18446744073709551616 := by
  by_contra h
  by_cases hl : (List.range r.factories.length).map (fun i =>
      weight ActionFactory.size (r.factories.take (i + 1)) % 18446744073709551616) = []
  · rw [peak, hl] at h
    exact h (by decide)
  · obtain ⟨x, hx, hle⟩ := (le_foldr_max hl _).mp (Nat.not_lt.mp h)
    obtain ⟨i, _, rfl⟩ := List.mem_map.mp hx
    omega

private theorem sum_mod_le_peak (hr : r.factories ≠ []) :
    r.sum % 18446744073709551616 ≤ r.peak := by
  have hlen := List.length_pos_iff.mpr hr
  refine (le_foldr_max (by simpa using hr) _).mpr ⟨_, List.mem_map.mpr
    ⟨r.factories.length - 1, by simpa using hlen, rfl⟩, ?_⟩
  rw [Nat.sub_add_cancel hlen, List.take_length]
  exact Nat.le_refl _

private theorem weight_take_le (l : List ActionFactory) (n : Nat) :
    weight ActionFactory.size (l.take n) ≤ weight ActionFactory.size l := by
  rw [← Nat.add_zero (weight _ (l.take n)), ← List.take_append_drop n l, weight_append]
  simp

private theorem peak_of_lt (hr : r.factories ≠ []) (h : r.sum < 18446744073709551616) :
    r.peak = r.sum := by
  apply Nat.le_antisymm
  · by_contra hn
    obtain ⟨x, hx, hle⟩ := (le_foldr_max (by simpa using hr) _).mp (Nat.not_le.mp hn)
    obtain ⟨i, _, rfl⟩ := List.mem_map.mp hx
    have := weight_take_le r.factories (i + 1)
    have := Nat.mod_le (weight ActionFactory.size (r.factories.take (i + 1)))
      18446744073709551616
    simp only [sum] at hle
    omega
  · have := sum_mod_le_peak hr
    rwa [Nat.mod_eq_of_lt h] at this

/-- The largest offset of a draw that is not beyond the `int` range has an action. -/
theorem totalWeight_le_peak (hr : r.factories ≠ []) (h : 0 ≤ narrow r.sum) :
    r.totalWeight ≤ r.peak := by
  rw [totalWeight_eq]
  exact Nat.le_trans (toSize_narrow_le h) (sum_mod_le_peak hr)

theorem mem_of_lookup {o : Nat} {f : ActionFactory} (h : r.lookupByWeightOffset o = .ok f) :
    f ∈ r.factories := by
  simp only [lookupByWeightOffset] at h
  split at h
  · cases h
  · rename_i hf
    cases h
    exact mem_of_findRunning hf

private theorem exists_error_iff (o : Nat) : (∃ e, r.lookupByWeightOffset o = .error e) ↔
    ¬r.Accepts o := by
  rw [Accepts]
  cases r.lookupByWeightOffset o <;> simp

private theorem ranges_agree_iff (hr : r.factories ≠ []) :
    (∀ o < 18446744073709551616, r.Accepts o ↔ o ≤ r.totalWeight) ↔
      r.peak = r.totalWeight := by
  have ht : r.totalWeight < 18446744073709551616 := by
    rw [totalWeight_eq]
    exact toSize_lt _
  simp only [accepts_iff hr]
  constructor
  · intro h
    apply Nat.le_antisymm
    · exact (h r.peak peak_lt).mp (Nat.le_refl _)
    · exact (h r.totalWeight ht).mpr (Nat.le_refl _)
  · intro h o _
    rw [h]

/-- When the sum of the weights and the largest running sum are the same. -/
private theorem peak_eq_totalWeight_iff (hr : r.factories ≠ []) : r.peak = r.totalWeight ↔
    r.sum < 2147483648 ∨
      (18446744071562067968 ≤ r.sum ∧ r.sum < 18446744073709551616) ∨
      (18446744073709551616 ≤ r.sum ∧ r.peak = toSize (narrow r.sum)) := by
  rw [totalWeight_eq]
  by_cases h : r.sum < 18446744073709551616
  · rw [peak_of_lt hr h, eq_comm, toSize_narrow_eq h]
    omega
  · constructor
    · intro he
      exact .inr (.inr ⟨Nat.not_lt.mp h, he⟩)
    · rintro (hs | ⟨_, hs⟩ | ⟨_, he⟩)
      · omega
      · exact absurd hs h
      · exact he

/-- The lookup finds an action for the offsets up to the total weight, and for no others, exactly
if an `int` can hold the sum of the weights, or the conversion to `int` and back restores it, or
the running sums wrap around and the largest is what that conversion makes of the sum. -/
theorem found_up_to_totalWeight_iff (r : ActionRegistry) (hr : r.factories ≠ []) :
    (∀ o < 18446744073709551616,
      (o ≤ r.totalWeight → ∃ f ∈ r.factories, r.lookupByWeightOffset o = .ok f) ∧
      (r.totalWeight < o → ∃ e, r.lookupByWeightOffset o = .error e)) ↔
    r.sum < 2147483648 ∨
      (18446744071562067968 ≤ r.sum ∧ r.sum < 18446744073709551616) ∨
      (18446744073709551616 ≤ r.sum ∧ r.peak = toSize (narrow r.sum)) := by
  rw [← peak_eq_totalWeight_iff hr, ← ranges_agree_iff hr]
  refine forall_congr' fun o => imp_congr_right fun _ => ?_
  have hmem : (∃ f ∈ r.factories, r.lookupByWeightOffset o = .ok f) ↔ r.Accepts o :=
    ⟨fun ⟨f, _, hf⟩ => ⟨f, hf⟩, fun ⟨f, hf⟩ => ⟨f, mem_of_lookup hf, hf⟩⟩
  rw [hmem, exists_error_iff]
  constructor
  · intro h
    refine ⟨fun ha => ?_, h.1⟩
    by_contra hn
    exact h.2 (Nat.not_le.mp hn) ha
  · intro h
    exact ⟨h.mpr, fun hn ha => Nat.not_lt.mpr (h.mp ha) hn⟩

/-- An action that is never drawn, between two others. -/
def neverDrawn : ActionRegistry :=
  ⟨[{ alterTable with weight := 30 }, { dropTable with weight := 0 },
    { createNormalTable with weight := 70 }]⟩

private theorem found_up_to_totalWeight_three : neverDrawn.totalWeight = 100 ∧
    (∃ f ∈ neverDrawn.factories, neverDrawn.lookupByWeightOffset 31 = .ok f) ∧
    (∃ f ∈ neverDrawn.factories, neverDrawn.lookupByWeightOffset 100 = .ok f) ∧
      ∃ e, neverDrawn.lookupByWeightOffset 101 = .error e := by
  have htotal : neverDrawn.totalWeight = 100 := by decide +kernel
  have hall := (found_up_to_totalWeight_iff neverDrawn (by simp [neverDrawn])).mpr
    (.inl (by decide))
  exact ⟨htotal, (hall 31 (by decide)).1 (by omega), (hall 100 (by decide)).1 (by omega),
    (hall 101 (by decide)).2 (by omega)⟩

def single (w : UInt64) : ActionRegistry := ⟨[{ dropTable with weight := w }]⟩

/-- A weight of 2^31 makes a total of 2^64 - 2^31, but the lookup refuses all offsets above the
weight. -/
theorem refused_below_totalWeight : 2147483649 ≤ (single 2147483648).totalWeight ∧
    ∃ e, (single 2147483648).lookupByWeightOffset 2147483649 = .error e :=
  ⟨by decide +kernel, _, rfl⟩

end ActionRegistry
end PStress.Registry
