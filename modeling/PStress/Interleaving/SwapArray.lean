import Mathlib.Data.List.Infix
import Mathlib.Data.List.Nodup
import Mathlib.Data.List.Perm.Basic
import Mathlib.Data.Set.Basic
import Mathlib.Logic.Function.Basic
import Mathlib.Tactic.Common

/-! An array without gaps that takes new entries at its end and fills the place of a removed entry
with its last one. An insertion or a removal is several writes: one to a cell, one to the count.
The list an array stands for changes with the first of them. -/
namespace PStress.Interleaving
variable {α : Type*}

/-- The entry at `k` leaves and the last entry takes its place. -/
def swapRemove (cs : List α) (k : Nat) : List α :=
  match cs.getLast? with
  | some x => (cs.set k x).dropLast
  | none => []

@[simp] theorem length_swapRemove (cs : List α) (k : Nat) :
    (swapRemove cs k).length = cs.length - 1 := by
  cases h : cs.getLast? with
  | none => simp [swapRemove, List.getLast?_eq_none_iff.mp h]
  | some x => simp [swapRemove, h]

theorem getElem?_swapRemove (cs : List α) {k j : Nat} (hj : j + 1 < cs.length) :
    (swapRemove cs k)[j]? = if j = k then cs[cs.length - 1]? else cs[j]? := by
  have hlast : cs.getLast? = cs[cs.length - 1]? := List.getLast?_eq_getElem?
  rw [List.getElem?_eq_getElem (by omega)] at hlast
  simp only [swapRemove, hlast]
  rw [List.getElem?_dropLast, List.length_set, if_pos (by omega), List.getElem?_set]
  by_cases hk : k = j
  · rw [if_pos hk, if_pos (by omega), if_pos hk.symm, List.getElem?_eq_getElem (by omega)]
  · rw [if_neg hk, if_neg (Ne.symm hk)]

/-- Entries other than the removed and the last one stay. -/
theorem getElem?_swapRemove_of_ne (cs : List α) {k j : Nat} (hj : j ≠ k)
    (hlast : j + 1 ≠ cs.length) : (swapRemove cs k)[j]? = cs[j]? := by
  by_cases hlt : j + 1 < cs.length
  · rw [getElem?_swapRemove cs hlt, if_neg hj]
  · rw [List.getElem?_eq_none (by simp; omega), List.getElem?_eq_none (by omega)]

/-- A change of the removed entry is lost with it. -/
theorem swapRemove_modify (cs : List α) (k : Nat) (f : α → α) :
    swapRemove (cs.modify k f) k = swapRemove cs k := by
  refine List.ext_getElem? fun l => ?_
  by_cases hl : l + 1 < cs.length
  · rw [getElem?_swapRemove _ (by simpa using hl), getElem?_swapRemove _ hl, List.length_modify]
    split
    · exact List.getElem?_modify_ne f cs (by omega)
    · rename_i hne
      exact List.getElem?_modify_ne f cs (Ne.symm hne)
  · rw [List.getElem?_eq_none (by simp; omega), List.getElem?_eq_none (by simp; omega)]

theorem mem_of_mem_swapRemove {cs : List α} {k : Nat} {x : α} (h : x ∈ swapRemove cs k) :
    x ∈ cs := by
  simp only [swapRemove] at h
  split at h
  · rename_i y hy
    rcases List.mem_or_eq_of_mem_set ((List.dropLast_subset _) h) with hx | rfl
    · exact hx
    · exact List.mem_of_getLast? hy
  · cases h

/-- Nothing but the removed entry is lost. -/
theorem perm_swapRemove {cs : List α} {k : Nat} {x : α} (h : cs[k]? = some x) :
    (x :: swapRemove cs k).Perm cs := by
  obtain ⟨hk, rfl⟩ := List.getElem?_eq_some_iff.mp h
  have hne : cs ≠ [] := List.ne_nil_of_length_pos (by omega)
  set y := cs.getLast hne with hy
  have hset : cs.set k y ≠ [] := by simpa using hne
  have hlast : (cs.set k y).getLast hset = y := by
    rw [List.getLast_eq_getElem, List.getElem_set]
    split
    · rfl
    · simp [hy, List.getLast_eq_getElem]
  have hsplit : cs.set k y = swapRemove cs k ++ [y] := by
    rw [← List.dropLast_append_getLast hset, hlast]
    simp [swapRemove, List.getLast?_eq_getLast_of_ne_nil hne, ← hy]
  have hswap : (cs[k] :: cs.set k y).Perm (y :: cs) := by
    simpa [hk] using List.getD_set_perm_cons cs k y
  rw [hsplit] at hswap
  refine List.Perm.cons_inv (a := y) (.trans ?_ hswap)
  exact (List.perm_append_singleton y (cs[k] :: swapRemove cs k)).symm

/-- The cells and the count of an array, and the list it stands for. -/
structure SwapArray (α : Type*) where
  cells : Nat → Option α
  count : Nat
  contents : List α

namespace SwapArray
variable {v v' : SwapArray α} {owned : Set Nat} {k : Nat}

/-- Cell `k` and the list agree, and the count agrees with the list as far as cell `k` can tell. -/
structure InStep (v : SwapArray α) (k : Nat) : Prop where
  cell : v.cells k = v.contents[k]?
  below : k < v.count ↔ k < v.contents.length
  last : v.count = k + 1 → v.contents.length = k + 1

/-- What is known about cell `k` does not change. -/
structure Leaves (v v' : SwapArray α) (k : Nat) : Prop where
  cell : v'.cells k = v.cells k
  entry : v'.contents[k]? = v.contents[k]?
  below : k < v'.count ↔ k < v.count
  last : (v.count = k + 1 → v.contents.length = k + 1) →
    v'.count = k + 1 → v'.contents.length = k + 1

/-- The cells whose owner may change the count: the last filled one, or the first of an empty
array. -/
def AtEnd (v : SwapArray α) (owned : Set Nat) : Prop :=
  if v.count = 0 then 0 ∈ owned else v.count - 1 ∈ owned

theorem AtEnd.meet {owned' : Set Nat} (h : v.AtEnd owned) (h' : v.AtEnd owned') :
    ∃ k ∈ owned, k ∈ owned' := by
  by_cases hc : v.count = 0
  · exact ⟨0, by simpa [AtEnd, hc] using h, by simpa [AtEnd, hc] using h'⟩
  · exact ⟨v.count - 1, by simpa [AtEnd, hc] using h, by simpa [AtEnd, hc] using h'⟩

/-- One write by the owner of some cells. -/
inductive Write (v : SwapArray α) (owned : Set Nat) : SwapArray α → Prop where
  | replace (k : Nat) (x : α) : k ∈ owned → k < v.contents.length →
      Write v owned ⟨Function.update v.cells k (some x), v.count, v.contents.set k x⟩
  | insert (n : Nat) (x : α) : n ∈ owned → (n = 0 ∨ n - 1 ∈ owned) → v.count = n →
      v.contents.length = n →
      Write v owned ⟨Function.update v.cells n (some x), v.count, v.contents ++ [x]⟩
  | countUp (n : Nat) : n ∈ owned → (n = 0 ∨ n - 1 ∈ owned) → v.count = n →
      v.contents.length = n + 1 → Write v owned ⟨v.cells, n + 1, v.contents⟩
  | removeLast (k : Nat) : k ∈ owned → v.count = k + 1 → v.contents.length = k + 1 →
      Write v owned ⟨Function.update v.cells k none, v.count, swapRemove v.contents k⟩
  | removeMoved (k l : Nat) : k ∈ owned → l ∈ owned → k < l → v.count = l + 1 →
      v.contents.length = l + 1 →
      Write v owned ⟨Function.update v.cells k (v.cells l), v.count, swapRemove v.contents k⟩
  | countDown (k : Nat) : k ∈ owned → v.count = k + 1 → v.contents.length = k →
      Write v owned ⟨v.cells, k, v.contents⟩
  | clear (k : Nat) : k ∈ owned →
      Write v owned ⟨Function.update v.cells k none, v.count, v.contents⟩

theorem Leaves.refl (v : SwapArray α) (k : Nat) : v.Leaves v k := ⟨rfl, rfl, .rfl, id⟩

private theorem Leaves.length_iff (h : v.Leaves v' k) :
    k < v'.contents.length ↔ k < v.contents.length := by
  rw [← not_iff_not, Nat.not_lt, Nat.not_lt, ← List.getElem?_eq_none_iff, h.entry,
    List.getElem?_eq_none_iff]

theorem InStep.leaves (hs : v.InStep k) (hl : v.Leaves v' k) : v'.InStep k :=
  ⟨by rw [hl.cell, hl.entry, hs.cell], by rw [hl.below, hl.length_iff, hs.below], hl.last hs.last⟩

/-- When every cell agrees with the list, so does the count. -/
theorem count_eq (h : ∀ k, v.InStep k) : v.count = v.contents.length := by
  refine Nat.le_antisymm ?_ ?_
  · by_contra hlt
    exact absurd ((h v.contents.length).below.mp (by omega)) (lt_irrefl _)
  · by_contra hlt
    exact absurd ((h v.count).below.mpr (by omega)) (lt_irrefl _)

/-- A write does not concern the cells the writer does not own. -/
theorem Write.leaves (hw : v.Write owned v') (hk : k ∉ owned) : v.Leaves v' k := by
  cases hw with
  | replace j x hj hlen =>
    have hne : j ≠ k := fun h => hk (h ▸ hj)
    exact ⟨by simp [hne.symm], by simp [hne], .rfl, by simp⟩
  | insert n x hn hp hc hlen =>
    have hne : k ≠ n := fun h => hk (h ▸ hn)
    refine ⟨by simp [hne], ?_, .rfl, fun _ hc' => ?_⟩
    · by_cases hlt : k < v.contents.length
      · simp [List.getElem?_append_left hlt]
      · rw [List.getElem?_eq_none (by simp; omega), List.getElem?_eq_none (by omega)]
    · obtain rfl | hp := hp
      · simp only at hc'
        omega
      · exact absurd hp (by simp only at hc'; rwa [show n - 1 = k by omega])
  | countUp n hn hp hc hlen =>
    have hne : k ≠ n := fun h => hk (h ▸ hn)
    exact ⟨rfl, rfl, by simp only; omega, fun _ hc' => absurd hc' (by simp only; omega)⟩
  | removeLast j hj hc hlen =>
    have hne : k ≠ j := fun h => hk (h ▸ hj)
    exact ⟨by simp [hne], getElem?_swapRemove_of_ne _ hne (by omega), .rfl,
      fun _ hc' => absurd hc' (by simp only; omega)⟩
  | removeMoved j l hj hl hlt hc hlen =>
    have hne : k ≠ j := fun h => hk (h ▸ hj)
    have hne' : k ≠ l := fun h => hk (h ▸ hl)
    exact ⟨by simp [hne], getElem?_swapRemove_of_ne _ hne (by omega), .rfl,
      fun _ hc' => absurd hc' (by simp only; omega)⟩
  | countDown j hj hc hlen =>
    have hne : k ≠ j := fun h => hk (h ▸ hj)
    exact ⟨rfl, rfl, by simp only; omega, fun _ hc' => by simp only at hc'; simp only; omega⟩
  | clear j hj =>
    have hne : k ≠ j := fun h => hk (h ▸ hj)
    exact ⟨by simp [hne], rfl, .rfl, id⟩

/-- Only the owner of the end changes the count or the length. -/
theorem Write.counts (hw : v.Write owned v') (he : ¬ v.AtEnd owned) :
    v'.count = v.count ∧ v'.contents.length = v.contents.length := by
  have below {n : Nat} (hp : n ∈ owned) (hc : v.count = n + 1) : v.AtEnd owned := by
    simp [AtEnd, hc, hp]
  have at_end {n : Nat} (hn : n ∈ owned) (hp : n = 0 ∨ n - 1 ∈ owned) (hc : v.count = n) :
      v.AtEnd owned := by
    cases n with
    | zero => simp [AtEnd, hc, hn]
    | succ n => exact below (by simpa using hp) hc
  cases hw with
  | replace => simp
  | insert n x hn hp hc => exact absurd (at_end hn hp hc) he
  | countUp n hn hp hc => exact absurd (at_end hn hp hc) he
  | removeLast k hk hc => exact absurd (below hk hc) he
  | removeMoved k l _ hl _ hc => exact absurd (below hl hc) he
  | countDown k hk hc => exact absurd (below hk hc) he
  | clear => simp

end SwapArray
end PStress.Interleaving
