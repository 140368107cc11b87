import PStress.Interleaving.Simulation
import PStress.Interleaving.SwapArray
import PStress.Metadata.Data

/-! What a `Metadata` object is for: a list of tables and the reservations on it. Every operation is
one event here, and a reservation keeps its slot from everyone else until it is given up. -/
namespace PStress.Metadata
open Interleaving
variable {ι V : Type}

/-- What a handle has been granted: a place for a new table, or the table `original` at a slot,
to be dropped or replaced by `p`. -/
inductive Grant (V : Type) where
  | place (p : TablePtr V)
  | slot (drop : Bool) (idx : Nat) (original p : TablePtr V)
  deriving DecidableEq

def Grant.edit (f : V → V) : Grant V → Grant V
  | .place p => .place ⟨p.id, f p.value⟩
  | .slot b k o p => .slot b k o ⟨p.id, f p.value⟩

/-- The tables in their order, and what each handle has been granted. -/
structure Store (ι V : Type) where
  contents : List (TablePtr V)
  grants : ι → Option (Grant V)

/-- What can happen to a store, with the results its callers see. -/
inductive Event (ι V : Type) where
  | place (i : ι) (p : TablePtr V)
  | reserve (i : ι) (drop : Bool) (idx : Nat) (p : TablePtr V)
  | missing (i : ι) (idx : Nat)
  | read (i : ι) (idx : Nat) (found : Option (TablePtr V))
  | edit (i : ι) (f : V → V)
  | commit (i : ι)
  | cancel (i : ι)
  | move (i j : ι)

def Event.GivesUp (i : ι) : Event ι V → Prop
  | .commit j | .cancel j | .move j _ => j = i
  | _ => False

def Event.Of (i : ι) : Event ι V → Prop
  | .place j _ | .reserve j .. | .missing j _ | .read j .. | .edit j _ | .commit j | .cancel j =>
    j = i
  | .move .. => False

/-- An operation on slot `k` returns. -/
def Event.At (k : Nat) : Event ι V → Prop
  | .reserve _ _ l _ | .missing _ l | .read _ l _ => l = k
  | _ => False

namespace Store

def Reserved (m : Store ι V) (i : ι) (k : Nat) : Prop :=
  ∃ b o p, m.grants i = some (.slot b k o p)

variable [DecidableEq ι]

def give (m : Store ι V) (i : ι) (g : Option (Grant V)) : Store ι V :=
  ⟨m.contents, Function.update m.grants i g⟩

/-- What each event may find and what it leaves. -/
inductive Next (m : Store ι V) : Event ι V → Store ι V → Prop where
  | place (i : ι) (p : TablePtr V) : m.grants i = none → p.id ∉ m.contents.map TablePtr.id →
      (∀ j q, m.grants j = some (.place q) → q.id ≠ p.id) →
      Next m (.place i p) (m.give i (some (.place p)))
  | reserve (i : ι) (b : Bool) (k : Nat) (p : TablePtr V) : m.grants i = none →
      m.contents[k]? = some p → (∀ j, ¬ m.Reserved j k) →
      Next m (.reserve i b k p) (m.give i (some (.slot b k p p)))
  | missing (i : ι) (k : Nat) : m.contents[k]? = none → Next m (.missing i k) m
  | read (i : ι) (k : Nat) : (∀ j, ¬ m.Reserved j k) → Next m (.read i k m.contents[k]?) m
  | edit (i : ι) (f : V → V) (g : Grant V) : m.grants i = some g →
      (∀ k o p, g ≠ .slot true k o p) → Next m (.edit i f) (m.give i (some (g.edit f)))
  | insert (i : ι) (p : TablePtr V) : m.grants i = some (.place p) →
      m.contents.length < maximumTableCount →
      Next m (.commit i) ⟨m.contents ++ [p], Function.update m.grants i none⟩
  | replace (i : ι) (k : Nat) (o p : TablePtr V) : m.grants i = some (.slot false k o p) →
      m.contents[k]? = some o → p.id = o.id →
      Next m (.commit i) ⟨m.contents.set k p, Function.update m.grants i none⟩
  | remove (i : ι) (k : Nat) (o : TablePtr V) : m.grants i = some (.slot true k o o) →
      m.contents[k]? = some o → (∀ j l, j ≠ i → m.Reserved j l → l + 1 ≠ m.contents.length) →
      Next m (.commit i) ⟨swapRemove m.contents k, Function.update m.grants i none⟩
  | cancel (i : ι) (g : Grant V) : m.grants i = some g → Next m (.cancel i) (m.give i none)
  | move (i j : ι) (g : Grant V) : i ≠ j → m.grants i = some g → m.grants j = none →
      Next m (.move i j) ⟨m.contents, Function.update (Function.update m.grants i none) j (some g)⟩

/-- Distinct tables that fit, reservations on different slots whose tables are still there, and
places for different new tables. -/
structure Sound (m : Store ι V) : Prop where
  fits : m.contents.length ≤ maximumTableCount
  distinct : (m.contents.map TablePtr.id).Nodup
  kept : ∀ i b k o p, m.grants i = some (.slot b k o p) →
    m.contents[k]? = some o ∧ p.id = o.id ∧ (b = true → p = o)
  alone : ∀ i j k, m.Reserved i k → m.Reserved j k → i = j
  fresh : ∀ i p, m.grants i = some (.place p) → p.id ∉ m.contents.map TablePtr.id
  apart : ∀ i j p q, m.grants i = some (.place p) → m.grants j = some (.place q) →
    p.id = q.id → i = j

namespace Sound
variable {m n : Store ι V}

/-- What a handle may be granted beside what the others have. -/
structure Fits (m : Store ι V) (i : ι) (g : Option (Grant V)) : Prop where
  slot : ∀ b k o p, g = some (.slot b k o p) → m.contents[k]? = some o ∧ p.id = o.id ∧
    (b = true → p = o) ∧ ∀ j, j ≠ i → ¬ m.Reserved j k
  place : ∀ p, g = some (.place p) → p.id ∉ m.contents.map TablePtr.id ∧
    ∀ j q, j ≠ i → m.grants j = some (.place q) → q.id ≠ p.id

omit [DecidableEq ι] in
private theorem fits_none {i : ι} : Fits m i none := ⟨by simp, by simp⟩

omit [DecidableEq ι] in
private theorem fits_of_grants (h : m.Sound) {i : ι} {g : Grant V} (hg : m.grants i = some g) :
    Fits m i (some g) := by
  refine ⟨fun b k o p he => ?_, fun p he => ?_⟩ <;> cases he
  · obtain ⟨hk, hid, hb⟩ := h.kept i b k o p hg
    exact ⟨hk, hid, hb, fun j hj hr => hj (h.alone j i k hr ⟨b, o, p, hg⟩)⟩
  · exact ⟨h.fresh i p hg, fun j q hj hq he => hj (h.apart j i q p hq hg he)⟩

theorem grants_give {i j : ι} {g : Option (Grant V)} {x : Grant V}
    (h : (m.give i g).grants j = some x) : j = i ∧ g = some x ∨ j ≠ i ∧ m.grants j = some x := by
  by_cases hj : j = i
  · subst hj
    exact .inl ⟨rfl, by simpa [give] using h⟩
  · exact .inr ⟨hj, by simpa [give, hj] using h⟩

theorem regrant (h : m.Sound) {i : ι} {g : Option (Grant V)} (hg : Fits m i g) :
    (m.give i g).Sound := by
  refine ⟨h.fits, h.distinct, fun j b k o p hj => ?_, fun j l k hj hl => ?_,
    fun j p hj => ?_, fun j l p q hj hl he => ?_⟩
  · obtain ⟨rfl, rfl⟩ | ⟨_, hj⟩ := grants_give hj
    · obtain ⟨hk, hid, hb, _⟩ := hg.slot b k o p rfl
      exact ⟨hk, hid, hb⟩
    · exact h.kept j b k o p hj
  · obtain ⟨b, o, p, hj⟩ := hj
    obtain ⟨b', o', p', hl⟩ := hl
    obtain ⟨rfl, hx⟩ | ⟨hji, hj'⟩ := grants_give hj
    · obtain ⟨rfl, _⟩ | ⟨hli, hl'⟩ := grants_give hl
      · rfl
      · exact absurd ⟨b', o', p', hl'⟩ ((hg.slot b k o p hx).2.2.2 l hli)
    · obtain ⟨rfl, hx⟩ | ⟨_, hl'⟩ := grants_give hl
      · exact absurd ⟨b, o, p, hj'⟩ ((hg.slot b' k o' p' hx).2.2.2 j hji)
      · exact h.alone j l k ⟨b, o, p, hj'⟩ ⟨b', o', p', hl'⟩
  · obtain ⟨rfl, rfl⟩ | ⟨_, hj⟩ := grants_give hj
    · exact (hg.place p rfl).1
    · exact h.fresh j p hj
  · obtain ⟨rfl, hx⟩ | ⟨hji, hj'⟩ := grants_give hj
    · obtain ⟨rfl, _⟩ | ⟨hli, hl'⟩ := grants_give hl
      · rfl
      · exact absurd he.symm ((hg.place p hx).2 l q hli hl')
    · obtain ⟨rfl, hx⟩ | ⟨_, hl'⟩ := grants_give hl
      · exact absurd he ((hg.place q hx).2 j p hji hj')
      · exact h.apart j l p q hj' hl' he

omit [DecidableEq ι] in
private theorem rewrite (h : m.Sound) {cs : List (TablePtr V)}
    (hfits : cs.length ≤ maximumTableCount) (hdistinct : (cs.map TablePtr.id).Nodup)
    (hkept : ∀ j k, m.Reserved j k → cs[k]? = m.contents[k]?)
    (hfresh : ∀ j p, m.grants j = some (.place p) → p.id ∉ cs.map TablePtr.id) :
    Sound ⟨cs, m.grants⟩ :=
  ⟨hfits, hdistinct, fun i b k o p hi => by
    obtain ⟨hk, hp⟩ := h.kept i b k o p hi
    exact ⟨(hkept i k ⟨b, o, p, hi⟩).trans hk, hp⟩, h.alone, hfresh, h.apart⟩

theorem next {e : Event ι V} (h : m.Sound) (hn : m.Next e n) : n.Sound := by
  have release (i : ι) : (m.give i none).Sound := h.regrant fits_none
  have others {i j : ι} {x : Grant V} (hj : (m.give i none).grants j = some x) :
      j ≠ i ∧ m.grants j = some x := by
    obtain ⟨_, hx⟩ | hj := grants_give hj
    · cases hx
    · exact hj
  cases hn with
  | place i p _ hnew hapart =>
    refine h.regrant ⟨by simp, fun q hq => ?_⟩
    cases hq
    exact ⟨hnew, fun j q _ hq => hapart j q hq⟩
  | reserve i b k p _ hk hfree =>
    refine h.regrant ⟨fun b' k' o p' hg => ?_, by simp⟩
    cases hg
    exact ⟨hk, rfl, fun _ => rfl, fun j _ => hfree j⟩
  | missing | read => exact h
  | edit i f g hg hdrop =>
    have hfit := h.fits_of_grants hg
    cases g with
    | place p =>
      refine h.regrant ⟨fun b k o q he => (by cases he), fun q he => ?_⟩
      cases he
      exact hfit.place p rfl
    | slot b k o p =>
      obtain ⟨hk, hid, _, halone⟩ := hfit.slot b k o p rfl
      refine h.regrant ⟨fun b' k' o' q he => ?_, fun q he => (by cases he)⟩
      cases he
      exact ⟨hk, hid, fun hb => absurd (hb ▸ rfl) (hdrop k o p), halone⟩
  | insert i p hg hroom =>
    refine (release i).rewrite (by simpa using Nat.succ_le_of_lt hroom) ?_ (fun j k hj => ?_)
      fun j q hj => ?_
    · rw [List.map_append, List.map_singleton]
      exact List.nodup_append_comm.mp (List.nodup_cons.mpr ⟨h.fresh i p hg, h.distinct⟩)
    · obtain ⟨b, o, q, hj⟩ := hj
      obtain ⟨_, hj⟩ := others hj
      exact List.getElem?_append_left (List.getElem?_eq_some_iff.mp (h.kept j b k o q hj).1).1
    · obtain ⟨hji, hj⟩ := others hj
      have hne : q.id ≠ p.id := fun he => hji (h.apart j i q p hj hg he)
      simpa [hne] using h.fresh j q hj
  | replace i k o p hg hk hid =>
    obtain ⟨hlt, rfl⟩ := List.getElem?_eq_some_iff.mp hk
    have hids : (m.contents.set k p).map TablePtr.id = m.contents.map TablePtr.id := by
      rw [List.map_set, hid, ← List.getElem_map TablePtr.id, List.set_getElem_self]
      simpa using hlt
    refine (release i).rewrite (by simpa [give] using h.fits) (hids ▸ h.distinct)
      (fun j l hj => ?_) fun j q hj => ?_
    · obtain ⟨b, o, q, hj⟩ := hj
      obtain ⟨hji, hj⟩ := others hj
      have hr : m.Reserved i k := ⟨_, _, _, hg⟩
      exact List.getElem?_set_ne fun hkl : k = l => hji (h.alone j i l ⟨b, o, q, hj⟩ (hkl ▸ hr))
    · exact hids ▸ h.fresh j q (others hj).2
  | remove i k o hg hk hlast =>
    have hperm := (perm_swapRemove hk).map TablePtr.id
    refine (release i).rewrite ?_ ?_ (fun j l hj => ?_) fun j q hj => ?_
    · rw [length_swapRemove]
      exact (Nat.sub_le _ _).trans h.fits
    · exact (List.nodup_cons.mp (hperm.nodup_iff.mpr h.distinct)).2
    · obtain ⟨b, o', q, hj⟩ := hj
      obtain ⟨hji, hj⟩ := others hj
      have hr : m.Reserved i k := ⟨_, _, _, hg⟩
      have hrj : m.Reserved j l := ⟨b, o', q, hj⟩
      exact getElem?_swapRemove_of_ne _ (fun hlk => hji (h.alone j i l hrj (hlk ▸ hr)))
        (hlast j l hji hrj)
    · exact fun hq => h.fresh j q (others hj).2 (hperm.subset (List.mem_cons_of_mem _ hq))
  | cancel i g => exact release i
  | move i j g hij hg hj =>
    have hfit := h.fits_of_grants hg
    refine (release i).regrant ⟨fun b k o p he => ?_, fun p he => ?_⟩
    · obtain ⟨hk, hid, hb, halone⟩ := hfit.slot b k o p he
      refine ⟨hk, hid, hb, fun l hl hr => ?_⟩
      obtain ⟨b', o', p', hr⟩ := hr
      obtain ⟨hli, hr⟩ := others hr
      exact halone l hli ⟨b', o', p', hr⟩
    · obtain ⟨hnew, hapart⟩ := hfit.place p he
      exact ⟨hnew, fun l q _ hq => hapart l q (others hq).1 (others hq).2⟩

theorem events {es : List (Event ι V)} (h : m.Sound) (hn : Events Next m es n) : n.Sound :=
  hn.invariant h fun _ _ _ h hn => h.next hn

end Sound

variable {m n : Store ι V} {i : ι} {k : Nat} {b : Bool} {o : TablePtr V}

/-- What the other handles have been granted stays. -/
theorem Next.frame {e : Event ι V} (h : m.Next e n) (he : e.Of i) {j : ι} (hj : j ≠ i) :
    n.grants j = m.grants j := by
  cases h with
  | missing | read => rfl
  | move => exact he.elim
  | _ =>
    obtain rfl := he
    simp [give, hj]

/-- A change takes effect once. -/
theorem Next.spent (h : m.Next (.commit i) n) : m.grants i ≠ none ∧ n.grants i = none := by
  cases h with
  | insert _ _ hg | replace _ _ _ _ hg | remove _ _ _ hg => simp [hg]

/-- While a slot is reserved no operation on it returns, and the reservation stays. -/
theorem Next.isolated {e : Event ι V} (h : m.Next e n) (hs : m.Sound)
    (hr : ∃ p, m.grants i = some (.slot b k o p)) (hi : ¬ e.GivesUp i) :
    ¬ e.At k ∧ ∃ p, n.grants i = some (.slot b k o p) := by
  obtain ⟨p, hp⟩ := hr
  have keep {j : ι} (g : Option (Grant V)) (hj : j ≠ i) :
      ∃ p, (m.give j g).grants i = some (.slot b k o p) :=
    ⟨p, by simpa [give, Ne.symm hj] using hp⟩
  have fresh {j : ι} (hj : m.grants j = none) : j ≠ i := by
    rintro rfl
    simp [hj] at hp
  have hrk : m.Reserved i k := ⟨b, o, p, hp⟩
  cases h with
  | place j q hj => exact ⟨id, keep _ (fresh hj)⟩
  | reserve j b' l q hj hl hfree =>
    exact ⟨fun hlk : l = k => hfree i (hlk ▸ hrk), keep _ (fresh hj)⟩
  | missing j l hl =>
    refine ⟨fun hlk : l = k => ?_, p, hp⟩
    cases (hs.kept i b k o p hp).1.symm.trans (hlk ▸ hl)
  | read j l hfree => exact ⟨fun hlk : l = k => hfree i (hlk ▸ hrk), p, hp⟩
  | edit j f g hg hdrop =>
    refine ⟨id, ?_⟩
    by_cases hj : j = i
    · subst hj
      cases hp.symm.trans hg
      exact ⟨⟨p.id, f p.value⟩, by simp [give, Grant.edit]⟩
    · exact keep _ hj
  | insert j | replace j | remove j =>
    exact ⟨id, p, by simpa [show i ≠ j from Ne.symm hi] using hp⟩
  | cancel j g => exact ⟨id, keep _ hi⟩
  | move j l g _ _ hl =>
    exact ⟨id, p, by simpa [show i ≠ j from Ne.symm hi, Ne.symm (fresh hl)] using hp⟩

theorem isolated {es : List (Event ι V)} (h : Events Next m es n) (hs : m.Sound)
    (hr : ∃ p, m.grants i = some (.slot b k o p)) (hi : ∀ e ∈ es, ¬ e.GivesUp i) :
    (∀ e ∈ es, ¬ e.At k) ∧ ∃ p, n.grants i = some (.slot b k o p) := by
  induction h with
  | nil => exact ⟨by simp, hr⟩
  | snoc e hes he ih =>
    obtain ⟨hat, hr'⟩ := ih fun e he => hi e (List.mem_append_left _ he)
    obtain ⟨hk, hr'⟩ := he.isolated (hs.events hes) hr' (hi e (by simp))
    refine ⟨fun e' he' => ?_, hr'⟩
    rcases List.mem_append.mp he' with he' | he'
    · exact hat e' he'
    · rwa [List.mem_singleton.mp he']

end Store
end PStress.Metadata
