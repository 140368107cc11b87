import Mathlib.Logic.Function.Basic
import Mathlib.Tactic.Common

/-! Objects that are known under their names: every object is listed under its own name, nothing
else is listed, and no two objects share a name. -/
namespace PStress.Records
variable {K N T D : Type*}

/-- The directory lists just the objects, each under its name and as `R` relates them. -/
structure Lists (R : T → D → Prop) (name : T → N) (objects : K → Option T) (db : N → Option D) :
    Prop where
  found : ∀ x t, objects x = some t → ∃ d, db (name t) = some d ∧ R t d
  known : ∀ n d, db n = some d → ∃ x t, objects x = some t ∧ name t = n
  apart : ∀ x y t u, objects x = some t → objects y = some u → name t = name u → x = y

namespace Lists
variable {R : T → D → Prop} {name : T → N} {objects : K → Option T} {db : N → Option D}
  {x : K} {t u : T} {d : D}

theorem empty : Lists R name (fun _ : K => none) (fun _ => none) :=
  ⟨fun _ _ h => (by cases h), fun _ _ h => (by cases h), fun _ _ _ _ h => (by cases h)⟩

/-- The same objects under other keys. -/
theorem rekey {L : Type*} {o : L → Option T} (h : Lists R name objects db) (e : L → K → Prop)
    (hto : ∀ l t, o l = some t → ∃ x, e l x ∧ objects x = some t)
    (hfrom : ∀ x t, objects x = some t → ∃ l, o l = some t)
    (hinj : ∀ l l' x, e l x → e l' x → l = l') : Lists R name o db := by
  refine ⟨fun l t hl => ?_, fun n d hn => ?_, fun l l' t u hl hl' he => ?_⟩
  · obtain ⟨x, _, hx⟩ := hto l t hl
    exact h.found x t hx
  · obtain ⟨x, t, hx, ht⟩ := h.known n d hn
    obtain ⟨l, hl⟩ := hfrom x t hx
    exact ⟨l, t, hl, ht⟩
  · obtain ⟨x, hlx, hx⟩ := hto l t hl
    obtain ⟨y, hly, hy⟩ := hto l' u hl'
    obtain rfl := h.apart x y t u hx hy he
    exact hinj l l' x hlx hly

variable [DecidableEq K] [DecidableEq N]

/-- An object comes in, or takes the place of one with its name. -/
theorem put (h : Lists R name objects db) (hr : R u d)
    (hname : ∀ y t, objects y = some t → name t = name u → y = x)
    (hold : ∀ t, objects x = some t → name t = name u) :
    Lists R name (Function.update objects x (some u)) (Function.update db (name u) (some d)) := by
  refine ⟨fun y t hy => ?_, fun n e hn => ?_, fun y z t t' hy hz he => ?_⟩
  · by_cases hyx : y = x
    · subst hyx
      obtain rfl : u = t := by simpa using hy
      exact ⟨d, by simp, hr⟩
    · have hy' : objects y = some t := by simpa [hyx] using hy
      have hne : name t ≠ name u := fun he => hyx (hname y t hy' he)
      simpa [hne] using h.found y t hy'
  · by_cases hnu : n = name u
    · exact ⟨x, u, by simp, hnu.symm⟩
    · obtain ⟨y, t, hy, rfl⟩ := h.known n e (by simpa [hnu] using hn)
      have hyx : y ≠ x := by
        rintro rfl
        exact hnu (hold t hy)
      exact ⟨y, t, by simpa [hyx] using hy, rfl⟩
  · by_cases hyx : y = x
    · by_cases hzx : z = x
      · exact hyx.trans hzx.symm
      · subst hyx
        obtain rfl : u = t := by simpa using hy
        exact (hname z t' (by simpa [hzx] using hz) he.symm).symm
    · by_cases hzx : z = x
      · subst hzx
        obtain rfl : u = t' := by simpa using hz
        exact hname y t (by simpa [hyx] using hy) he
      · exact h.apart y z t t' (by simpa [hyx] using hy) (by simpa [hzx] using hz) he

theorem insert (h : Lists R name objects db) (hx : objects x = none) (hn : db (name u) = none)
    (hr : R u d) :
    Lists R name (Function.update objects x (some u)) (Function.update db (name u) (some d)) := by
  refine h.put hr (fun y t hy he => ?_) fun t ht => ?_
  · obtain ⟨e, he', _⟩ := h.found y t hy
    rw [he, hn] at he'
    cases he'
  · rw [hx] at ht
    cases ht

theorem replace (h : Lists R name objects db) (hx : objects x = some t) (hname : name u = name t)
    (hr : R u d) :
    Lists R name (Function.update objects x (some u)) (Function.update db (name u) (some d)) := by
  refine h.put hr (fun y t' hy he => h.apart y x t' t hy hx (he.trans hname)) fun t' ht => ?_
  cases hx.symm.trans ht
  exact hname.symm

theorem remove (h : Lists R name objects db) (hx : objects x = some t) :
    Lists R name (Function.update objects x none) (Function.update db (name t) none) := by
  have other {y : K} {u : T} (hy : Function.update objects x none y = some u) :
      y ≠ x ∧ objects y = some u := by
    by_cases hyx : y = x
    · simp [hyx] at hy
    · exact ⟨hyx, by simpa [hyx] using hy⟩
  refine ⟨fun y u hy => ?_, fun n e hn => ?_, fun y z u v hy hz he => ?_⟩
  · obtain ⟨hyx, hy⟩ := other hy
    have hne : name u ≠ name t := fun he => hyx (h.apart y x u t hy hx he)
    simpa [hne] using h.found y u hy
  · have hnt : n ≠ name t := by
      rintro rfl
      simp at hn
    obtain ⟨y, u, hy, rfl⟩ := h.known n e (by simpa [hnt] using hn)
    have hyx : y ≠ x := by
      rintro rfl
      cases hy.symm.trans hx
      exact hnt rfl
    exact ⟨y, u, by simpa [hyx] using hy, rfl⟩
  · exact h.apart y z u v (other hy).2 (other hz).2 he

end Lists
end PStress.Records
