import PStress.Metadata.Identity
import PStress.Metadata.Store

/-! A second record of the tables, as a database server keeps one. A handle announces its change to
the other record before the change takes effect in the store; the two records then differ by
what is announced and has not taken effect. -/
namespace PStress.Metadata
open Interleaving
variable {ι V : Type}

/-- The tables of the other record by their identities, and whether the change of a handle has
been announced. -/
structure Shadow (ι V : Type) where
  live : Nat → Option V
  announced : ι → Bool

def Grant.announce (live : Nat → Option V) : Grant V → Nat → Option V
  | .place p | .slot false _ _ p => Function.update live p.id (some p.value)
  | .slot true _ o _ => Function.update live o.id none

namespace Shadow
variable [DecidableEq ι]

def announce (h : Shadow ι V) (i : ι) (g : Grant V) : Shadow ι V :=
  ⟨g.announce h.live, Function.update h.announced i true⟩

def reset (h : Shadow ι V) (i : ι) : Shadow ι V := ⟨h.live, Function.update h.announced i false⟩

omit [DecidableEq ι] in
/-- What may happen to the store: changes take effect when they have been announced, or when they
change nothing. -/
def Allows (m : Store ι V) (h : Shadow ι V) : Event ι V → Prop
  | .place i _ | .reserve i .. | .edit i _ | .cancel i => h.announced i = false
  | .missing .. | .read .. => True
  | .commit i => h.announced i = true ∨
    ∃ k o p, m.grants i = some (.slot false k o p) ∧ p.value = o.value
  | .move .. => False

end Shadow

/-- How the other record agrees with the store. -/
structure Shadows (m : Store ι V) (h : Shadow ι V) : Prop where
  stored : ∀ k p, m.contents[k]? = some p → (∀ i, m.Reserved i k → h.announced i = false) →
    h.live p.id = some p.value
  placed : ∀ i p, m.grants i = some (.place p) →
    h.live p.id = if h.announced i then some p.value else none
  altered : ∀ i k o p, m.grants i = some (.slot false k o p) → h.announced i = true →
    h.live p.id = some p.value
  dropped : ∀ i k o p, m.grants i = some (.slot true k o p) → h.announced i = true →
    h.live o.id = none
  known : ∀ x v, h.live x = some v → x ∈ m.contents.map TablePtr.id ∨
    ∃ i p, m.grants i = some (.place p) ∧ p.id = x

namespace Shadows
variable {m n : Store ι V} {h : Shadow ι V} {i : ι} {g : Grant V}

/-- Without reservations the two records are the same. -/
theorem settled (hs : Shadows m h) (hg : ∀ i, m.grants i = none) (x : Nat) (v : V) :
    h.live x = some v ↔ ⟨x, v⟩ ∈ m.contents := by
  have free (i : ι) (k : Nat) : ¬ m.Reserved i k := by
    rintro ⟨b, o, p, hi⟩
    simp [hg i] at hi
  constructor
  · intro hx
    obtain hmem | ⟨i, p, hi, _⟩ := hs.known x v hx
    · obtain ⟨p, hp, rfl⟩ := List.mem_map.mp hmem
      obtain ⟨k, hk⟩ := List.mem_iff_getElem?.mp hp
      have hlive := hs.stored k p hk fun i hr => absurd hr (free i k)
      cases hx.symm.trans hlive
      exact hp
    · simp [hg i] at hi
  · intro hp
    obtain ⟨k, hk⟩ := List.mem_iff_getElem?.mp hp
    exact hs.stored k _ hk fun i hr => absurd hr (free i k)

variable [DecidableEq ι]

theorem reset (hs : Shadows m h) (hi : m.grants i = none) : Shadows m (h.reset i) := by
  have other {j : ι} {x : Grant V} (hj : m.grants j = some x) : j ≠ i := by
    rintro rfl
    simp [hi] at hj
  refine ⟨fun k p hk hr => hs.stored k p hk fun j hj => ?_, fun j p hj => ?_,
    fun j k o p hj ha => ?_, fun j k o p hj ha => ?_, hs.known⟩
  · obtain ⟨b, o, q, hq⟩ := hj
    simpa [Shadow.reset, other hq] using hr j ⟨b, o, q, hq⟩
  · simpa [Shadow.reset, other hj] using hs.placed j p hj
  · exact hs.altered j k o p hj (by simpa [Shadow.reset, other hj] using ha)
  · exact hs.dropped j k o p hj (by simpa [Shadow.reset, other hj] using ha)

private theorem announce_place (hs : Shadows m h) (hm : m.Sound) {p : TablePtr V}
    (hg : m.grants i = some (.place p)) : Shadows m (h.announce i (.place p)) := by
  have hnew := hm.fresh i p hg
  have listed {k : Nat} {q : TablePtr V} (hk : m.contents[k]? = some q) : q.id ≠ p.id := fun he =>
    hnew (he ▸ List.mem_map_of_mem (List.mem_of_getElem? hk))
  have slot {j : ι} {b : Bool} {k : Nat} {o q : TablePtr V}
      (hj : m.grants j = some (.slot b k o q)) : j ≠ i := by
    rintro rfl
    cases hj.symm.trans hg
  refine ⟨fun k q hk hr => ?_, fun j q hj => ?_, fun j k o q hj ha => ?_,
    fun j k o q hj ha => ?_, fun x v hx => ?_⟩
  · have hlive := hs.stored k q hk fun j hj => by
      obtain ⟨b, o, r, hj'⟩ := id hj
      simpa [Shadow.announce, slot hj'] using hr j hj
    simpa [Shadow.announce, Grant.announce, listed hk] using hlive
  · by_cases hji : j = i
    · subst hji
      cases hj.symm.trans hg
      simp [Shadow.announce, Grant.announce]
    · have hne : q.id ≠ p.id := fun he => hji (hm.apart j i q p hj hg he)
      simpa [Shadow.announce, Grant.announce, hji, hne] using hs.placed j q hj
  · obtain ⟨hk, hid, _⟩ := hm.kept j false k o q hj
    have hne : q.id ≠ p.id := hid ▸ listed hk
    simpa [Shadow.announce, Grant.announce, hne] using
      hs.altered j k o q hj (by simpa [Shadow.announce, slot hj] using ha)
  · obtain ⟨hk, _, _⟩ := hm.kept j true k o q hj
    simpa [Shadow.announce, Grant.announce, listed hk] using
      hs.dropped j k o q hj (by simpa [Shadow.announce, slot hj] using ha)
  · by_cases hxp : x = p.id
    · exact .inr ⟨i, p, hg, hxp.symm⟩
    · exact hs.known x v (by simpa [Shadow.announce, Grant.announce, hxp] using hx)

private theorem announce_slot (hs : Shadows m h) (hm : m.Sound) {b : Bool} {k : Nat}
    {o p : TablePtr V} (hg : m.grants i = some (.slot b k o p)) {v : Option V}
    (hv : v = if b then none else some p.value) :
    Shadows m ⟨Function.update h.live o.id v, Function.update h.announced i true⟩ := by
  obtain ⟨hko, hid, _⟩ := hm.kept i b k o p hg
  have hres : m.Reserved i k := ⟨b, o, p, hg⟩
  have listed {l : Nat} {q : TablePtr V} (hl : m.contents[l]? = some q) (hlk : l ≠ k) :
      q.id ≠ o.id := entry_ne hm.distinct hl hko hlk
  have elsewhere {j : ι} {b' : Bool} {l : Nat} {o' q : TablePtr V}
      (hj : m.grants j = some (.slot b' l o' q)) (hji : j ≠ i) : l ≠ k := fun hlk =>
    hji (hm.alone j i k ⟨b', o', q, hlk ▸ hj⟩ hres)
  refine ⟨fun l q hl hr => ?_, fun j q hj => ?_, fun j l o' q hj ha => ?_,
    fun j l o' q hj ha => ?_, fun x w hx => ?_⟩
  · have hlk : l ≠ k := by
      rintro rfl
      simpa using hr i hres
    have hlive := hs.stored l q hl fun j hj => by
      by_cases hji : j = i
      · subst hji
        simpa using hr j hj
      · simpa [hji] using hr j hj
    simpa [listed hl hlk] using hlive
  · have hji : j ≠ i := by
      rintro rfl
      cases hj.symm.trans hg
    have hne : q.id ≠ o.id := fun he =>
      hm.fresh j q hj (he ▸ List.mem_map_of_mem (List.mem_of_getElem? hko))
    simpa [hji, hne] using hs.placed j q hj
  · by_cases hji : j = i
    · subst hji
      cases hj.symm.trans hg
      simpa [hid] using hv
    · obtain ⟨hl, hid', _⟩ := hm.kept j false l o' q hj
      have hne : q.id ≠ o.id := hid' ▸ listed hl (elsewhere hj hji)
      simpa [hne] using hs.altered j l o' q hj (by simpa [hji] using ha)
  · by_cases hji : j = i
    · subst hji
      cases hj.symm.trans hg
      simpa using hv
    · obtain ⟨hl, _, _⟩ := hm.kept j true l o' q hj
      simpa [listed hl (elsewhere hj hji)] using
        hs.dropped j l o' q hj (by simpa [hji] using ha)
  · by_cases hxo : x = o.id
    · exact .inl (hxo ▸ List.mem_map_of_mem (List.mem_of_getElem? hko))
    · exact hs.known x w (by simpa [hxo] using hx)

/-- A handle announces what it has been granted. -/
theorem announce (hs : Shadows m h) (hm : m.Sound) (hg : m.grants i = some g) :
    Shadows m (h.announce i g) := by
  cases g with
  | place p => exact hs.announce_place hm hg
  | slot b k o p =>
    cases b with
    | true => exact hs.announce_slot hm hg rfl
    | false =>
      have hid : p.id = o.id := (hm.kept i false k o p hg).2.1
      have hslot := hs.announce_slot hm hg rfl
      rw [← hid] at hslot
      exact hslot

/-- The grant of a handle changes that has announced nothing. -/
theorem regrant (hs : Shadows m h) (hi : h.announced i = false) {g : Option (Grant V)}
    (hplace : ∀ p, g = some (.place p) → h.live p.id = none) : Shadows (m.give i g) h := by
  have other {j : ι} {x : Grant V} (hj : (m.give i g).grants j = some x)
      (ha : h.announced j = true) : m.grants j = some x := by
    obtain ⟨rfl, _⟩ | ⟨_, hj⟩ := Store.Sound.grants_give hj
    · rw [hi] at ha
      cases ha
    · exact hj
  refine ⟨fun k p hk hr => hs.stored k p hk fun j hj => ?_, fun j p hj => ?_,
    fun j k o p hj ha => hs.altered j k o p (other hj ha) ha,
    fun j k o p hj ha => hs.dropped j k o p (other hj ha) ha, fun x v hx => ?_⟩
  · by_cases hji : j = i
    · rwa [hji]
    · obtain ⟨b, o, q, hq⟩ := hj
      exact hr j ⟨b, o, q, by simpa [Store.give, hji] using hq⟩
  · obtain ⟨rfl, he⟩ | ⟨_, hj⟩ := Store.Sound.grants_give hj
    · simpa [hi] using hplace p he
    · exact hs.placed j p hj
  · obtain hmem | ⟨j, p, hj, rfl⟩ := hs.known x v hx
    · exact .inl hmem
    · refine .inr ⟨j, p, ?_, rfl⟩
      have hji : j ≠ i := by
        rintro rfl
        have hnone := hs.placed j p hj
        simp [hi, hx] at hnone
      simpa [Store.give, hji] using hj

/-- The list changes together with the grant of handle `i`, which is used up. -/
private theorem consume (hs : Shadows m h) {cs : List (TablePtr V)}
    (hstored : ∀ l q, cs[l]? = some q → (∀ j, j ≠ i → m.Reserved j l → h.announced j = false) →
      h.live q.id = some q.value)
    (hknown : ∀ x v, h.live x = some v → x ∈ cs.map TablePtr.id ∨
      ∃ j p, j ≠ i ∧ m.grants j = some (.place p) ∧ p.id = x) :
    Shadows ⟨cs, Function.update m.grants i none⟩ h := by
  have other {j : ι} {x : Grant V} (hj : Function.update m.grants i none j = some x) :
      j ≠ i ∧ m.grants j = some x := by
    by_cases hji : j = i
    · simp [hji] at hj
    · exact ⟨hji, by simpa [hji] using hj⟩
  refine ⟨fun l q hl hr => hstored l q hl fun j hji hj => ?_,
    fun j p hj => hs.placed j p (other hj).2, fun j k o p hj => hs.altered j k o p (other hj).2,
    fun j k o p hj => hs.dropped j k o p (other hj).2, fun x v hx => ?_⟩
  · obtain ⟨b, o, p, hj⟩ := hj
    exact hr j ⟨b, o, p, by simpa [hji] using hj⟩
  · obtain hmem | ⟨j, p, hji, hj, he⟩ := hknown x v hx
    · exact .inl hmem
    · exact .inr ⟨j, p, by simpa [hji] using hj, he⟩

omit [DecidableEq ι] in
private theorem reserved_eq {j k : Nat} {b : Bool} {o p : TablePtr V}
    (hg : m.grants i = some (.slot b k o p)) (hr : m.Reserved i j) : j = k := by
  obtain ⟨b', o', p', hi⟩ := hr
  cases hi.symm.trans hg
  rfl

omit [DecidableEq ι] in
private theorem stored_elsewhere (hs : Shadows m h) {k l : Nat} {b : Bool} {o p q : TablePtr V}
    (hg : m.grants i = some (.slot b k o p)) (hlk : l ≠ k) (hl : m.contents[l]? = some q)
    (hr : ∀ j, j ≠ i → m.Reserved j l → h.announced j = false) : h.live q.id = some q.value := by
  refine hs.stored l q hl fun j hj => hr j ?_ hj
  rintro rfl
  exact hlk (reserved_eq hg hj)

omit [DecidableEq ι] in
private theorem known_elsewhere (hs : Shadows m h) {k : Nat} {b : Bool} {o p : TablePtr V}
    (hg : m.grants i = some (.slot b k o p)) {x : Nat} {v : V} (hx : h.live x = some v) :
    x ∈ m.contents.map TablePtr.id ∨
      ∃ j q, j ≠ i ∧ m.grants j = some (.place q) ∧ q.id = x := by
  obtain hmem | ⟨j, q, hj, he⟩ := hs.known x v hx
  · exact .inl hmem
  · refine .inr ⟨j, q, ?_, hj, he⟩
    rintro rfl
    cases hj.symm.trans hg

private theorem commit_insert (hs : Shadows m h) {p : TablePtr V}
    (hg : m.grants i = some (.place p)) (ha : h.announced i = true) :
    Shadows ⟨m.contents ++ [p], Function.update m.grants i none⟩ h := by
  have hlive : h.live p.id = some p.value := by simpa [ha] using hs.placed i p hg
  refine hs.consume (fun l q hl hr => ?_) fun x v hx => ?_
  · rw [List.getElem?_append] at hl
    split at hl
    · refine hs.stored l q hl fun j hj => hr j ?_ hj
      rintro rfl
      obtain ⟨b, o, r, hj⟩ := hj
      cases hj.symm.trans hg
    · obtain rfl : p = q := List.mem_singleton.mp (List.mem_of_getElem? hl) |>.symm
      exact hlive
  · obtain hmem | ⟨j, q, hj, rfl⟩ := hs.known x v hx
    · exact .inl (by simp only [List.map_append, List.mem_append, hmem, true_or])
    · by_cases hji : j = i
      · subst hji
        cases hj.symm.trans hg
        exact .inl (by simp)
      · exact .inr ⟨j, q, hji, hj, rfl⟩

private theorem commit_replace (hs : Shadows m h) {k : Nat} {o p : TablePtr V}
    (hg : m.grants i = some (.slot false k o p)) (hk : m.contents[k]? = some o)
    (hid : p.id = o.id) (hlive : h.live p.id = some p.value) :
    Shadows ⟨m.contents.set k p, Function.update m.grants i none⟩ h := by
  refine hs.consume (fun l q hl hr => ?_) fun x v hx => ?_
  · by_cases hlk : l = k
    · subst hlk
      obtain ⟨hlt, _⟩ := List.getElem?_eq_some_iff.mp hk
      obtain rfl : p = q := by simpa [hlt] using hl
      exact hlive
    · rw [List.getElem?_set_ne (Ne.symm hlk)] at hl
      exact hs.stored_elsewhere hg hlk hl hr
  · have hids : (m.contents.set k p).map TablePtr.id = m.contents.map TablePtr.id := by
      obtain ⟨hlt, rfl⟩ := List.getElem?_eq_some_iff.mp hk
      rw [List.map_set, hid, ← List.getElem_map TablePtr.id, List.set_getElem_self]
      simpa using hlt
    rw [hids]
    exact hs.known_elsewhere hg hx

private theorem commit_remove (hs : Shadows m h) {k : Nat} {o : TablePtr V}
    (hg : m.grants i = some (.slot true k o o)) (hk : m.contents[k]? = some o)
    (hlast : ∀ j l, j ≠ i → m.Reserved j l → l + 1 ≠ m.contents.length)
    (ha : h.announced i = true) :
    Shadows ⟨swapRemove m.contents k, Function.update m.grants i none⟩ h := by
  have hgone : h.live o.id = none := hs.dropped i k o o hg ha
  refine hs.consume (fun l q hl hr => ?_) fun x v hx => ?_
  · have hlen : l + 1 < m.contents.length := by
      have hlt := (List.getElem?_eq_some_iff.mp hl).1
      rw [length_swapRemove] at hlt
      omega
    rw [getElem?_swapRemove _ hlen] at hl
    split at hl
    · -- the last table, which nobody has reserved, has moved here
      rename_i hlk
      refine hs.stored _ q hl fun j hj => ?_
      by_cases hji : j = i
      · have := reserved_eq hg (hji ▸ hj)
        omega
      · exact absurd (by omega) (hlast j _ hji hj)
    · exact hs.stored_elsewhere hg (by assumption) hl hr
  · obtain hmem | hplaced := hs.known_elsewhere hg hx
    · have hmem' := ((perm_swapRemove hk).map TablePtr.id).mem_iff.mpr hmem
      rw [List.map_cons, List.mem_cons] at hmem'
      obtain rfl | hmem' := hmem'
      · rw [hgone] at hx
        cases hx
      · exact .inl hmem'
    · exact .inr hplaced

/-- A change takes effect that has been announced, or that changes nothing. -/
theorem commit (hs : Shadows m h) (hm : m.Sound) (hn : m.Next (.commit i) n)
    (ha : h.announced i = true ∨
      ∃ k o p, m.grants i = some (.slot false k o p) ∧ p.value = o.value) : Shadows n h := by
  cases hn with
  | insert _ p hg hroom =>
    obtain ha | ⟨k, o, q, hq, _⟩ := ha
    · exact hs.commit_insert hg ha
    · cases hg.symm.trans hq
  | replace _ k o p hg hk hid =>
    refine hs.commit_replace hg hk hid ?_
    cases hann : h.announced i with
    | true => exact hs.altered i k o p hg hann
    | false =>
      obtain ha | ⟨k', o', q, hq, hv⟩ := ha
      · simp [hann] at ha
      · cases hq.symm.trans hg
        rw [hid, hv]
        refine hs.stored k o hk fun j hj => ?_
        rwa [hm.alone j i k hj ⟨_, _, _, hg⟩]
  | remove _ k o hg hk hlast =>
    obtain ha | ⟨k', o', q, hq, _⟩ := ha
    · exact hs.commit_remove hg hk hlast ha
    · cases hq.symm.trans hg

/-- Whatever happens to the store as it may keeps the two records in agreement. -/
theorem next (hs : Shadows m h) (hm : m.Sound) {e : Event ι V} (hn : m.Next e n)
    (ha : Shadow.Allows m h e) : Shadows n h := by
  cases e with
  | commit i => exact hs.commit hm hn ha
  | move => exact ha.elim
  | place i p =>
    cases hn with
    | place _ _ _ hnew hapart =>
      refine hs.regrant ha fun q hq => ?_
      cases hq
      refine Option.eq_none_iff_forall_ne_some.mpr fun v hv => ?_
      obtain hmem | ⟨j, q, hj, he⟩ := hs.known p.id v hv
      · exact hnew hmem
      · exact hapart j q hj he
  | reserve i b k p =>
    cases hn
    exact hs.regrant ha (by simp)
  | missing | read =>
    cases hn
    exact hs
  | edit i f =>
    cases hn with
    | edit _ _ g hg =>
      have hnot : h.announced i = false := ha
      refine hs.regrant ha fun q hq => ?_
      cases g with
      | place p =>
        cases hq
        simpa [hnot] using hs.placed i p hg
      | slot => cases hq
  | cancel i =>
    cases hn
    exact hs.regrant ha (by simp)

end Shadows
end PStress.Metadata
