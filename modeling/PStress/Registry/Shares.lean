import Mathlib.Data.Rat.Defs
import Mathlib.Order.Interval.Finset.Nat
import Mathlib.Tactic.Positivity
import Mathlib.Tactic.Linarith
import Mathlib.Tactic.NormNum
import PStress.Registry.Ranges

/-! How often each action is chosen: the offsets a worker can draw that fall on it. -/
namespace PStress.Registry
open Actions Selection
namespace ActionRegistry
variable (r : ActionRegistry)

def Distinct : Prop := (r.factories.map ActionFactory.name).Nodup

instance : Decidable r.Distinct :=
  inferInstanceAs (Decidable (r.factories.map ActionFactory.name).Nodup)

def chosen (offset : Nat) : Option String :=
  match r.lookupByWeightOffset offset with
  | .ok f => some f.name
  | .error _ => none

/-- The offsets that choose an action, among those from 0 to the total weight. -/
def offsets (name : String) : Finset Nat :=
  (Finset.range (r.totalWeight + 1)).filter fun o => r.chosen o = some name

def share (name : String) : ℚ := (r.offsets name).card / (r.totalWeight + 1)

variable {r}

private theorem drawn_offset_iff (h : r.sum < 2147483648) (o : Nat) :
    (∃ v, Drawn 0 r.totalWeight v ∧ toSize v = o) ↔ o ≤ r.totalWeight := by
  rw [totalWeight_of_lt h]
  constructor
  · rintro ⟨v, hv, rfl⟩
    have hv' : Drawn (0 : Nat) r.sum v := hv
    exact (hv'.toSize_between h (Nat.zero_le _)).2
  · intro ho
    have hint : IsInt (o : Int) := ⟨by omega, by omega⟩
    have hmax : IsInt (r.sum : Int) := ⟨by omega, by omega⟩
    refine ⟨o, ⟨hint, fun _ => ?_⟩, ?_⟩
    · have h0 : narrow 0 = 0 := by decide
      rw [h0, narrow_of_isInt hmax]
      omega
    · have := toSize_of_isInt hint (by omega)
      omega

/-- Without overflow a lookup goes by the sums of the weights. -/
theorem lookup_eq_ok_iff (h : r.sum < 18446744073709551616) {o : Nat} {f : ActionFactory} :
    r.lookupByWeightOffset o = .ok f ↔ pick ActionFactory.size o 0 r.factories = some f := by
  have hs : 0 + weight ActionFactory.size r.factories < 18446744073709551616 := by
    rwa [Nat.zero_add]
  rw [lookupByWeightOffset, findRunning_mod hs, pick]
  split <;> simp [*]

theorem lookup_congr {r' : ActionRegistry} (h : r.sum < 18446744073709551616)
    (h' : r'.sum < 18446744073709551616) {o o' : Nat} {f : ActionFactory}
    (hp : pick ActionFactory.size o 0 r.factories = some f)
    (hp' : pick ActionFactory.size o' 0 r'.factories = some f) :
    r'.lookupByWeightOffset o' = r.lookupByWeightOffset o := by
  rw [(lookup_eq_ok_iff h).mpr hp, (lookup_eq_ok_iff h').mpr hp']

private theorem chosen_eq (h : r.sum < 18446744073709551616) (o : Nat) :
    r.chosen o = (pick ActionFactory.size o 0 r.factories).map ActionFactory.name := by
  cases hp : pick ActionFactory.size o 0 r.factories with
  | some f => simp [chosen, (lookup_eq_ok_iff h).mpr hp]
  | none =>
    cases hl : r.lookupByWeightOffset o with
    | ok f => rw [(lookup_eq_ok_iff h).mp hl] at hp; cases hp
    | error e => simp [chosen, hl]

theorem name_ne_of_mem {l l' : List ActionFactory} {f g : ActionFactory}
    (hd : ((l ++ f :: l').map ActionFactory.name).Nodup) (hg : g ∈ l ∨ g ∈ l') :
    g.name ≠ f.name := by
  rw [List.map_append, List.map_cons, List.nodup_middle, List.nodup_cons, List.mem_append] at hd
  intro he
  apply hd.1
  rw [← he]
  exact hg.imp (List.mem_map_of_mem) (List.mem_map_of_mem)

/-- An action is chosen by the offsets above the weight before it that it reaches; the first one
also by 0. -/
private theorem chosen_iff {l l' : List ActionFactory} {f : ActionFactory}
    (hr : r.factories = l ++ f :: l') (hd : r.Distinct) (h : r.sum < 18446744073709551616)
    (o : Nat) : r.chosen o = some f.name ↔
      (l = [] ∨ weight ActionFactory.size l < o) ∧ o ≤ weight ActionFactory.size l + f.size := by
  rw [Distinct, hr] at hd
  rw [chosen_eq h, hr]
  by_cases hhi : o ≤ weight ActionFactory.size l + f.size
  · by_cases hlo : weight ActionFactory.size l < o
    · rw [pick_eq_some (by omega) (by omega)]
      simp [hhi, hlo]
    · by_cases hl : l = []
      · subst hl
        rw [weight_nil, Nat.zero_add] at hhi
        rw [List.nil_append, pick_head (by omega)]
        simp [hhi]
      · have hs := pick_isSome (w := ActionFactory.size) (o := o) (b := 0) hl (by omega)
        obtain ⟨g, hg⟩ := Option.isSome_iff_exists.mp hs
        rw [pick_append, hg, Option.some_or]
        have := name_ne_of_mem hd (.inl (mem_of_findRunning hg))
        simp [hl, hlo, this]
  · rw [pick_append, pick_eq_none (by omega), Option.none_or]
    have hskip : pick ActionFactory.size o (0 + weight ActionFactory.size l) (f :: l') =
        pick ActionFactory.size o (weight ActionFactory.size l + f.size) l' := by
      rw [pick, findRunning, Nat.zero_add]
      exact if_neg (by simpa using hhi)
    rw [hskip]
    simp only [hhi, and_false, iff_false]
    intro he
    obtain ⟨g, hg, hn⟩ := Option.map_eq_some_iff.mp he
    exact name_ne_of_mem hd (.inr (mem_of_findRunning hg)) hn

private theorem card_offsets {l l' : List ActionFactory} {f : ActionFactory}
    (hr : r.factories = l ++ f :: l') (hd : r.Distinct) (h : r.sum < 2147483648) :
    (r.offsets f.name).card = if l = [] then f.size + 1 else f.size := by
  have hsum : r.sum = weight ActionFactory.size l + (f.size + weight ActionFactory.size l') := by
    rw [sum, hr, weight_append, weight_cons]
  have hiff := chosen_iff hr hd (by omega)
  rw [offsets, totalWeight_of_lt h]
  by_cases hl : l = []
  · have he : (Finset.range (r.sum + 1)).filter (fun o => r.chosen o = some f.name) =
        Finset.range (f.size + 1) := by
      ext o
      simp only [Finset.mem_filter, Finset.mem_range, hiff, hl, weight_nil, true_or, true_and]
      omega
    rw [he, if_pos hl, Finset.card_range]
  · have he : (Finset.range (r.sum + 1)).filter (fun o => r.chosen o = some f.name) =
        Finset.Ioc (weight ActionFactory.size l) (weight ActionFactory.size l + f.size) := by
      ext o
      simp only [Finset.mem_filter, Finset.mem_range, hiff, hl, false_or, Finset.mem_Ioc]
      omega
    rw [he, if_neg hl, Nat.card_Ioc, Nat.add_sub_cancel_left]

/-- The first action has one offset too many, and every total one offset more than it says. -/
theorem share_eq_weight_iff (r : ActionRegistry) (hd : r.Distinct) (ht : 0 < r.totalWeight)
    (h : r.sum < 2147483648) {k : Nat} {f : ActionFactory} (hf : r.factories[k]? = some f) :
    r.share f.name = f.size / r.totalWeight ↔
      (k = 0 ∧ f.size = r.totalWeight) ∨ (k ≠ 0 ∧ f.size = 0) := by
  obtain ⟨hk, hfk⟩ := List.getElem?_eq_some_iff.mp hf
  have hr : r.factories = r.factories.take k ++ f :: r.factories.drop (k + 1) := by
    rw [← hfk, ← List.drop_eq_getElem_cons hk, List.take_append_drop]
  have hnil : r.factories.take k = [] ↔ k = 0 := by
    rw [List.take_eq_nil_iff]
    exact or_iff_left (List.ne_nil_of_length_pos (Nat.zero_lt_of_lt hk))
  have ht' : (r.totalWeight : ℚ) ≠ 0 := by
    exact_mod_cast Nat.ne_of_gt ht
  have ht1 : (r.totalWeight : ℚ) + 1 ≠ 0 := by positivity
  rw [share, card_offsets hr hd h, div_eq_div_iff ht1 ht']
  by_cases hk0 : k = 0
  · rw [if_pos (hnil.mpr hk0)]
    simp only [hk0, true_and, ne_eq, not_true, false_and, or_false]
    push_cast
    constructor
    · intro he
      have : (r.totalWeight : ℚ) = f.size := by linarith
      exact_mod_cast this.symm
    · intro he
      rw [he]
      exact mul_comm _ _
  · rw [if_neg (fun hn => hk0 (hnil.mp hn))]
    simp only [hk0, false_and, ne_eq, not_false_eq_true, true_and, false_or]
    constructor
    · intro he
      have : (f.size : ℚ) = 0 := by linarith
      exact_mod_cast this
    · intro he
      rw [he]
      simp

/-- `drop_table` is chosen less often than its weight says. -/
theorem share_ne_weight_drop_table : initializeDefaultRegisty.share dropTable.name ≠
    dropTable.size / initializeDefaultRegisty.totalWeight := by
  intro h
  have hiff := share_eq_weight_iff initializeDefaultRegisty (by decide +kernel)
    (by decide +kernel) (by decide +kernel) (k := 1) (f := dropTable) rfl
  exact absurd (hiff.mp h) (by decide +kernel)

def weightless : ActionRegistry :=
  ⟨[{ createNormalTable with weight := 0 }, { dropTable with weight := 1 }]⟩

/-- An action of weight 0 is chosen half of the time. -/
theorem weightless_chosen : weightless.Distinct ∧ weightless.totalWeight = 1 ∧
    weightless.factories.head?.map ActionFactory.size = some 0 ∧
    weightless.share createNormalTable.name = 1 / 2 := by
  refine ⟨by decide +kernel, by decide +kernel, by decide +kernel, ?_⟩
  have hcard : (weightless.offsets createNormalTable.name).card = 1 := by decide +kernel
  have htotal : weightless.totalWeight = 1 := by decide +kernel
  rw [share, hcard, htotal]
  norm_num

end ActionRegistry
end PStress.Registry
