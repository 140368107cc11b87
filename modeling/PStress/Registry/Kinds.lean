import PStress.Registry.Edits

/-! Which kinds of actions a registry offers: what edits put in, and what is left once an action
was removed. -/
namespace PStress.Registry
open Actions

def ActionRegistry.All (Q : String → (AllConfig → Action) → Prop) (r : ActionRegistry) : Prop :=
  ∀ f ∈ r.factories, Q f.name f.builder

/-- What an edit puts into a registry. -/
def Edit.Adds (Q : String → (AllConfig → Action) → Prop) : Edit → Prop
  | .insert f => Q f.name f.builder
  | .makeCustomSqlAction name sql _ =>
    Q name fun _ => .customSql ⟨sql, [], ActionRegistry.known_of_nil⟩
  | .makeCustomTableSqlAction name sql _ =>
    Q name fun _ => .customSql ⟨sql, ["table"], ActionRegistry.known_of_table⟩
  | .use other => other.All Q
  | .remove _ | .setWeight .. => True

namespace ActionRegistry
variable {r : ActionRegistry} {Q : String → (AllConfig → Action) → Prop}

private theorem all_insert (h : r.All Q) {f : ActionFactory} (hf : Q f.name f.builder) :
    (r.insert f).2.All Q := by
  by_cases hhas : r.has f.name
  · obtain ⟨e, he⟩ := insert_of_has hhas
    rw [he]
    exact h
  · rw [insert_of_not_has hhas]
    intro g hg
    rcases List.mem_append.mp hg with hg | hg
    · exact h g hg
    · rw [List.mem_singleton.mp hg]
      exact hf

private theorem all_remove (h : r.All Q) (name : String) : (r.remove name).2.All Q := by
  simp only [remove]
  split
  · exact h
  · exact fun g hg => h g (List.mem_of_mem_eraseIdx hg)

private theorem all_setWeight (h : r.All Q) (name : String) (v : UInt64) :
    (r.setWeight name v).2.All Q := by
  simp only [setWeight]
  split
  · exact h
  · rename_i i _
    intro g hg
    obtain ⟨k, hk⟩ := List.mem_iff_getElem?.mp hg
    rw [List.getElem?_modify] at hk
    cases hf : r.factories[k]? with
    | none => simp [hf] at hk
    | some f =>
      have hQ := h f (List.mem_of_getElem? hf)
      rw [hf] at hk
      split at hk <;> cases hk <;> exact hQ

theorem all_edit (h : r.All Q) {e : Edit} (he : e.Adds Q) : (r.edit e).All Q := by
  cases e with
  | insert f => exact all_insert h he
  | makeCustomSqlAction | makeCustomTableSqlAction => exact all_insert h he
  | remove name => exact all_remove h name
  | setWeight name v => exact all_setWeight h name v
  | use other => exact he

private theorem all_removed (hd : r.Distinct) (name : String) :
    (r.remove name).2.All fun n _ => n ≠ name := by
  by_cases hhas : r.has name
  · obtain ⟨f, hf, hname⟩ : ∃ f ∈ r.factories, f.name = name := by simpa [has] using hhas
    obtain ⟨l, l', hsplit⟩ := List.append_of_mem hf
    rw [← hname, remove_of_middle hd hsplit]
    rw [Distinct, hsplit] at hd
    exact fun g hg => name_ne_of_mem hd (List.mem_append.mp hg)
  · obtain ⟨e, he⟩ := remove_of_not_has hhas
    rw [he]
    intro g hg hname
    exact hhas (has_iff.mpr (hname ▸ List.mem_map_of_mem hg))

def Named (kind : Action → Bool) (name : String) : String → (AllConfig → Action) → Prop :=
  fun n build => ∀ config, kind (build config) = true → n = name

def Without (kind : Action → Bool) : String → (AllConfig → Action) → Prop :=
  fun _ build => ∀ config, kind (build config) = false

theorem without_of_removed {kind : Action → Bool} {name : String} (hd : r.Distinct)
    (hn : r.All (Named kind name)) : (r.remove name).2.All (Without kind) := by
  intro f hf config
  by_contra hk
  exact all_removed hd name f hf (all_remove hn name f hf config (by simpa using hk))

end ActionRegistry
end PStress.Registry
