import PStress.Interleaving.Reach
import PStress.Registry.Shares

/-! Edits of registries: what they leave of the names and of the offsets of other actions. -/
namespace PStress.Registry
open Interleaving Selection

/-- What a scenario does to a registry. -/
inductive Edit where
  | insert (action : ActionFactory)
  | makeCustomSqlAction (name sql : String) (weight : UInt64)
  | makeCustomTableSqlAction (name sql : String) (weight : UInt64)
  | remove (name : String)
  | setWeight (name : String) (v : UInt64)
  | use (other : ActionRegistry)

namespace ActionRegistry
variable (r : ActionRegistry)

def edit : Edit → ActionRegistry
  | .insert action => (r.insert action).2
  | .makeCustomSqlAction name sql weight => (r.makeCustomSqlAction name sql weight).2
  | .makeCustomTableSqlAction name sql weight => (r.makeCustomTableSqlAction name sql weight).2
  | .remove name => (r.remove name).2
  | .setWeight name v => (r.setWeight name v).2
  | .use other => other

variable {r}

theorem has_iff {name : String} : r.has name ↔ name ∈ r.factories.map ActionFactory.name := by
  simp [has]

theorem insert_of_has {f : ActionFactory} (h : r.has f.name) :
    ∃ e, r.insert f = (.error e, r) :=
  ⟨_, if_pos h⟩

theorem insert_of_not_has {f : ActionFactory} (h : ¬r.has f.name) :
    r.insert f = (.ok r.factories.length, ⟨r.factories ++ [f]⟩) := if_neg h

theorem remove_of_not_has {name : String} (h : ¬r.has name) :
    ∃ e, r.remove name = (.error e, r) := by
  refine ⟨⟨s!"Action {name} does not exists in this registy"⟩, ?_⟩
  have hn : r.factories.findIdx? (·.name == name) = none := by
    simpa [has] using h
  simp only [remove, hn]

private theorem findIdx?_middle {l l' : List ActionFactory} {f : ActionFactory}
    (hd : ((l ++ f :: l').map ActionFactory.name).Nodup) :
    (l ++ f :: l').findIdx? (·.name == f.name) = some l.length := by
  rw [List.findIdx?_append, Option.or_of_isNone, List.findIdx?_cons]
  · simp
  · rw [Option.isNone_iff_eq_none, List.findIdx?_eq_none_iff]
    intro g hg
    exact beq_false_of_ne (name_ne_of_mem hd (.inl hg))

theorem remove_of_middle {l l' : List ActionFactory} {f : ActionFactory} (hd : r.Distinct)
    (hr : r.factories = l ++ f :: l') : r.remove f.name = (.ok (), ⟨l ++ l'⟩) := by
  rw [Distinct, hr] at hd
  have hi : r.factories.findIdx? (·.name == f.name) = some l.length := by
    rw [hr]
    exact findIdx?_middle hd
  simp only [remove, hi]
  rw [hr, List.eraseIdx_append_of_length_le (Nat.le_refl _), Nat.sub_self, List.eraseIdx_cons_zero]

private theorem insert_distinct (hd : r.Distinct) (f : ActionFactory) :
    (r.insert f).2.Distinct := by
  by_cases h : r.has f.name
  · obtain ⟨e, he⟩ := insert_of_has h
    rwa [he]
  · rw [insert_of_not_has h, Distinct, List.map_append, List.map_singleton, List.nodup_append_comm,
      List.singleton_append, List.nodup_cons, ← has_iff]
    exact ⟨h, hd⟩

private theorem remove_distinct (hd : r.Distinct) (name : String) : (r.remove name).2.Distinct := by
  simp only [remove]
  split
  · exact hd
  · exact List.Nodup.sublist ((List.eraseIdx_sublist _ _).map _) hd

private theorem setWeight_distinct (hd : r.Distinct) (name : String) (v : UInt64) :
    (r.setWeight name v).2.Distinct := by
  simp only [setWeight]
  split
  · exact hd
  · rename_i i _
    have hn : (r.factories.modify i ({ · with weight := v })).map ActionFactory.name =
        r.factories.map ActionFactory.name := by
      apply List.ext_getElem?
      intro k
      rw [List.getElem?_map, List.getElem?_map, List.getElem?_modify]
      cases r.factories[k]? <;> split <;> rfl
    rwa [Distinct, hn]

theorem edit_distinct (hd : r.Distinct) {e : Edit} (he : ∀ other, e = .use other → other.Distinct) :
    (r.edit e).Distinct := by
  cases e with
  | insert | makeCustomSqlAction | makeCustomTableSqlAction => exact insert_distinct hd _
  | remove name => exact remove_distinct hd name
  | setWeight name v => exact setWeight_distinct hd name v
  | use other => exact he other rfl

private theorem lookup_insert {f : ActionFactory} (hf : ¬r.has f.name)
    (h : r.sum + f.size < 18446744073709551616) {o : Nat} (ho : 1 ≤ o) :
    (o ≤ r.sum → (r.insert f).2.lookupByWeightOffset o = r.lookupByWeightOffset o) ∧
      (r.sum < o → o ≤ r.sum + f.size →
        (r.insert f).2.lookupByWeightOffset o = .ok f) := by
  have hsum : (r.insert f).2.sum = r.sum + f.size := by
    simp [insert_of_not_has hf, sum]
  rw [insert_of_not_has hf] at hsum ⊢
  constructor
  · intro hle
    have hne : r.factories ≠ [] := by
      intro hnil
      rw [sum, hnil, weight_nil] at hle
      omega
    obtain ⟨g, hg⟩ := exists_pick (w := ActionFactory.size) (o := o) (b := 0) hne
      (by rwa [Nat.zero_add])
    refine lookup_congr (by omega) (by omega) hg ?_
    rw [pick_append, hg, Option.some_or]
  · intro hlt hle
    rw [lookup_eq_ok_iff (by omega)]
    exact pick_eq_some (by rwa [Nat.zero_add]) (by rwa [Nat.zero_add])

private theorem lookup_remove {l l' : List ActionFactory} {f : ActionFactory} (hd : r.Distinct)
    (hr : r.factories = l ++ f :: l') (h : r.sum < 18446744073709551616) {o : Nat} (ho : 1 ≤ o) :
    (o ≤ weight ActionFactory.size l →
        (r.remove f.name).2.lookupByWeightOffset o = r.lookupByWeightOffset o) ∧
      (weight ActionFactory.size l < o → o ≤ (r.remove f.name).2.sum →
        (r.remove f.name).2.lookupByWeightOffset o = r.lookupByWeightOffset (o + f.size)) := by
  have hsum : r.sum = weight ActionFactory.size l + (f.size + weight ActionFactory.size l') := by
    rw [sum, hr, weight_append, weight_cons]
  have hsum' : (r.remove f.name).2.sum =
      weight ActionFactory.size l + weight ActionFactory.size l' := by
    rw [remove_of_middle hd hr, sum, weight_append]
  rw [remove_of_middle hd hr] at hsum' ⊢
  constructor
  · intro hle
    have hne : l ≠ [] := by
      rintro rfl
      rw [weight_nil] at hle
      omega
    obtain ⟨g, hg⟩ := exists_pick (w := ActionFactory.size) (o := o) (b := 0) hne
      (by rwa [Nat.zero_add])
    refine lookup_congr (f := g) (by omega) (by omega) ?_ ?_
    · rw [hr, pick_append, hg, Option.some_or]
    · rw [pick_append, hg, Option.some_or]
  · intro hlt hle
    have hne : l' ≠ [] := by
      rintro rfl
      rw [weight_nil] at hsum'
      omega
    obtain ⟨g, hg⟩ := exists_pick (w := ActionFactory.size) (o := o)
      (b := weight ActionFactory.size l) hne (by omega)
    refine lookup_congr (f := g) (by omega) (by omega) ?_ ?_
    · have hlen : 0 + weight ActionFactory.size (l ++ [f]) < o + f.size := by
        rw [weight_append, weight_cons, weight_nil]
        omega
      rw [hr, List.append_cons, pick_skip l' hlen, Nat.zero_add, weight_append, weight_cons,
        weight_nil, Nat.add_zero, pick_shift, hg]
    · rw [pick_skip l' (by omega), Nat.zero_add, hg]

end ActionRegistry

variable {κ : Type*} [DecidableEq κ]

def step (s : κ → ActionRegistry) (l : κ × Edit) : Option (κ → ActionRegistry) :=
  some (Function.update s l.1 ((s l.1).edit l.2))

/-- The registries a scenario uses are its own. -/
def UsesOwn (s : κ → ActionRegistry) (l : κ × Edit) : Prop :=
  ∀ other, l.2 = .use other → ∃ j, other = s j

open ActionRegistry

private theorem distinct_of_reach {s₀ s : κ → ActionRegistry} (h₀ : ∀ i, (s₀ i).Distinct)
    (h : Reach step UsesOwn s₀ s) : ∀ i, (s i).Distinct := by
  refine h.invariant (I := fun s => ∀ i, (s i).Distinct) h₀ ?_
  rintro s ⟨j, e⟩ t hs hg he i
  cases he
  by_cases hi : i = j
  · subst hi
    rw [Function.update_self]
    refine edit_distinct (hs i) fun other ho => ?_
    obtain ⟨k, rfl⟩ := hg other ho
    exact hs k
  · rw [Function.update_of_ne hi]
    exact hs i

/-- In whatever registries a scenario makes of its registries, names stay distinct, failing edits
change nothing, and edits that succeed leave every other action the offsets it had, moved down by
the weight of a removed action before it. -/
theorem edits_keep_other_shares {s₀ s : κ → ActionRegistry} (h₀ : ∀ i, (s₀ i).Distinct)
    (h : Reach step UsesOwn s₀ s) (i : κ) :
    (s i).Distinct ∧
    ((s i).sum < 2147483648 → (s i).totalWeight = (s i).sum) ∧
    (∀ f, (s i).has f.name → ∃ e, (s i).insert f = (.error e, s i)) ∧
    (∀ name, ¬(s i).has name → ∃ e, (s i).remove name = (.error e, s i)) ∧
    (∀ f, ¬(s i).has f.name → (s i).sum + f.size < 18446744073709551616 →
      (∃ n, ((s i).insert f).1 = .ok n) ∧ ∀ o, 1 ≤ o →
        (o ≤ (s i).sum →
          ((s i).insert f).2.lookupByWeightOffset o = (s i).lookupByWeightOffset o) ∧
        ((s i).sum < o → o ≤ (s i).sum + f.size →
          ((s i).insert f).2.lookupByWeightOffset o = .ok f)) ∧
    (∀ l f l', (s i).factories = l ++ f :: l' → (s i).sum < 18446744073709551616 →
      (s i).remove f.name = (.ok (), ⟨l ++ l'⟩) ∧ ∀ o, 1 ≤ o →
        (o ≤ weight ActionFactory.size l → ((s i).remove f.name).2.lookupByWeightOffset o =
          (s i).lookupByWeightOffset o) ∧
        (weight ActionFactory.size l < o → o ≤ ((s i).remove f.name).2.sum →
          ((s i).remove f.name).2.lookupByWeightOffset o =
            (s i).lookupByWeightOffset (o + f.size))) := by
  have hd := distinct_of_reach h₀ h i
  refine ⟨hd, totalWeight_of_lt, fun f => insert_of_has, fun name => remove_of_not_has, ?_, ?_⟩
  · intro f hf hsum
    exact ⟨⟨_, congrArg Prod.fst (insert_of_not_has hf)⟩, fun o => lookup_insert hf hsum⟩
  · intro l f l' hr hsum
    exact ⟨remove_of_middle hd hr, fun o => lookup_remove hd hr hsum⟩

/-- The default registry after `drop_table` was removed from it. -/
def withoutDrops : ActionRegistry := initializeDefaultRegisty.edit (.remove dropTable.name)

private theorem factories_withoutDrops : withoutDrops.factories =
    [createNormalTable] ++ alterTable :: [insertSomeData, deleteSomeData, updateOneRow] := rfl

/-- Put back, `drop_table` gets the last offsets; if `alter_table` is removed too, what follows it
moves down. -/
theorem edits_keep_other_shares_default :
    withoutDrops.Distinct ∧ withoutDrops.totalWeight = 3200 ∧
      (withoutDrops.insert dropTable).2.lookupByWeightOffset 3200 =
        withoutDrops.lookupByWeightOffset 3200 ∧
      (withoutDrops.insert dropTable).2.lookupByWeightOffset 3300 = .ok dropTable ∧
      (withoutDrops.remove alterTable.name).2.lookupByWeightOffset 100 =
        withoutDrops.lookupByWeightOffset 100 ∧
      (withoutDrops.remove alterTable.name).2.lookupByWeightOffset 101 =
        withoutDrops.lookupByWeightOffset 201 := by
  have h : Reach step UsesOwn (fun _ : Unit => initializeDefaultRegisty)
      (Function.update (fun _ => initializeDefaultRegisty) () withoutDrops) :=
    .next ((), .remove dropTable.name) .start (fun _ ho => Edit.noConfusion ho) rfl
  have hsum : withoutDrops.sum = 3200 := by decide +kernel
  obtain ⟨hd, htotal, _, _, hinsert, hremove⟩ :=
    edits_keep_other_shares (fun _ => by decide +kernel) h ()
  obtain ⟨_, hadded⟩ := hinsert dropTable (by decide +kernel) (by decide +kernel)
  obtain ⟨_, hmoved⟩ := hremove _ _ _ factories_withoutDrops (by decide +kernel)
  refine ⟨hd, (htotal (by decide +kernel)).trans hsum, ?_, ?_, ?_, ?_⟩
  · exact (hadded 3200 (by decide)).1 hsum.ge
  · exact (hadded 3300 (by decide)).2 (by decide +kernel) (by decide +kernel)
  · exact (hmoved 100 (by decide)).1 (by decide +kernel)
  · exact (hmoved 101 (by decide)).2 (by decide +kernel) (by decide +kernel)

end PStress.Registry
