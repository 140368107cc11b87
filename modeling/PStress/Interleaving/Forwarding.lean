import PStress.Interleaving.SwapArray

/-! Forwarding addresses in an array whose removals move the last entry: the place the entry left
keeps the index it went to. As long as nothing is added, an entry is found again from each place it
ever had. -/
namespace PStress.Interleaving
variable {α : Type*}

/-- From place `k`, each place without a wanted entry forwards to a smaller one, until place `j`
holds one. -/
inductive LeadsTo (cells : Nat → Option α) (address : Nat → Nat) (wanted : α → Prop) :
    Nat → Nat → Prop where
  | here {k : Nat} {x : α} : cells k = some x → wanted x → LeadsTo cells address wanted k k
  | forward {k j : Nat} : (∀ x, cells k = some x → ¬ wanted x) → address k < k →
      LeadsTo cells address wanted (address k) j → LeadsTo cells address wanted k j

theorem LeadsTo.arrives {cells : Nat → Option α} {address : Nat → Nat} {wanted : α → Prop}
    {k j : Nat} (h : LeadsTo cells address wanted k j) : ∃ x, cells j = some x ∧ wanted x := by
  induction h with
  | here hk hx => exact ⟨_, hk, hx⟩
  | forward _ _ _ ih => exact ih

/-- The places without a wanted entry on the way are beyond the end, where nothing is written any
more. -/
inductive Forwarded (cs : List α) (address : Nat → Nat) (wanted : α → Prop) : Nat → Prop where
  | here {k : Nat} {x : α} : cs[k]? = some x → wanted x → Forwarded cs address wanted k
  | beyond {k : Nat} : cs.length ≤ k → address k < k → Forwarded cs address wanted (address k) →
      Forwarded cs address wanted k

namespace Forwarded
variable {cs : List α} {address : Nat → Nat} {wanted : α → Prop} {k i l : Nat} {x y : α}

theorem leadsTo (h : Forwarded cs address wanted k) :
    ∃ j, LeadsTo (fun k => cs[k]?) address wanted k j := by
  induction h with
  | here hk hx => exact ⟨_, .here hk hx⟩
  | @beyond k hk hlt _ ih =>
    obtain ⟨j, hj⟩ := ih
    have hnone : cs[k]? = none := List.getElem?_eq_none hk
    exact ⟨j, .forward (fun x hx => by simp [hnone] at hx) hlt hj⟩

/-- An entry is replaced by one that is wanted just as much. -/
theorem replace (h : Forwarded cs address wanted k) (hi : cs[i]? = some x)
    (hxy : wanted x ↔ wanted y) : Forwarded (cs.set i y) address wanted k := by
  have hlt : i < cs.length := (List.getElem?_eq_some_iff.mp hi).1
  induction h with
  | @here k z hk hz =>
    by_cases hik : i = k
    · subst hik
      cases hi.symm.trans hk
      exact .here (by simp [hlt]) (hxy.mp hz)
    · exact .here (by simpa [hik] using hk) hz
  | beyond hk hlt _ ih => exact .beyond (by simpa using hk) hlt ih

/-- The last entry goes. -/
theorem removeLast (h : Forwarded cs address wanted k) (hlen : cs.length = l + 1)
    (hl : cs[l]? = some x) (hx : ¬ wanted x) (v : Nat) :
    Forwarded (swapRemove cs l) (Function.update address l v) wanted k := by
  induction h with
  | @here k y hk hy =>
    have hne : k ≠ l := by
      rintro rfl
      cases hl.symm.trans hk
      exact hx hy
    exact .here (by rw [getElem?_swapRemove_of_ne cs hne (by omega), hk]) hy
  | @beyond k hk hlt _ ih =>
    have haddress : Function.update address l v k = address k := Function.update_of_ne (by omega) ..
    exact .beyond (by simp; omega) (by rwa [haddress]) (by rwa [haddress])

/-- Another entry goes, and the last one takes its place. -/
theorem removeMoved (h : Forwarded cs address wanted k) (hlen : cs.length = l + 1) (hil : i < l)
    (hi : cs[i]? = some x) (hx : ¬ wanted x) :
    Forwarded (swapRemove cs i) (Function.update address l i) wanted k := by
  induction h with
  | @here k y hk hy =>
    have hne : k ≠ i := by
      rintro rfl
      cases hi.symm.trans hk
      exact hx hy
    by_cases hkl : k = l
    · subst hkl
      have hmoved : (swapRemove cs i)[i]? = some y := by
        rw [getElem?_swapRemove cs (by omega), if_pos rfl, hlen, Nat.add_sub_cancel, hk]
      refine .beyond (by simp [hlen]) ?_ ?_
      · rwa [Function.update_self]
      · rw [Function.update_self]
        exact .here hmoved hy
    · exact .here (by rw [getElem?_swapRemove_of_ne cs hne (by omega), hk]) hy
  | @beyond k hk hlt _ ih =>
    have haddress : Function.update address l i k = address k := Function.update_of_ne (by omega) ..
    exact .beyond (by simp; omega) (by rwa [haddress]) (by rwa [haddress])

end Forwarded
end PStress.Interleaving
