import PStress.Interleaving.RelyGuarantee
import PStress.Metadata.SlotSteps

/-! Runs in which emptiness, once tested, is still there when the test is made again: in all of
them the slots stay without gaps, up to what the handles in the middle of `complete()` know. -/
namespace PStress.Metadata
open Interleaving
variable {ι V : Type} [DecidableEq ι] [Inhabited V]

def actListed (i : ι) (a : Act V) (x : InternalData ι V × List (TablePtr V)) (t : Thread V) :
    Option ((InternalData ι V × List (TablePtr V)) × Thread V) :=
  (act i a x.1 t).map fun y => ((y.1, change t a x.2), y.2)

omit [Inhabited V] in
private theorem actListed_eq_some [Inhabited V] {i : ι} {a : Act V}
    {x x' : InternalData ι V × List (TablePtr V)} {t t' : Thread V} :
    actListed i a x t = some (x', t') ↔
      act i a x.1 t = some (x'.1, t') ∧ x'.2 = change t a x.2 := by
  obtain ⟨d', cs'⟩ := x'
  simp only [actListed, Option.map_eq_some_iff, Prod.mk.injEq, Prod.exists]
  constructor
  · rintro ⟨_, _, h, ⟨rfl, rfl⟩, rfl⟩
    exact ⟨h, rfl⟩
  · rintro ⟨h, rfl⟩
    exact ⟨d', t', h, ⟨rfl, rfl⟩, rfl⟩

/-- The outline of the slots. It extends the one of lock ownership. -/
def slotOutline : Outline (actListed (ι := ι) (V := V)) (fun _ a x t => Known x.1 x.2 t a) where
  holds i x t := Owned i x.1 t ∧ InPlace x.1 x.2 t
  rely i x x' := Untouched i x.1 x'.1 ∧ Steady i x.1 x.2 x'.1 x'.2
  stable hr hp := ⟨ownership.stable hr.1 hp.1, hp.2.stable hp.1.writer hp.1.ok hr.2⟩
  sound h hg hp := by
    obtain ⟨ha, hc⟩ := actListed_eq_some.mp h
    exact ⟨ownership.sound ha trivial hp.1, hc ▸ (act_kept ha hp.1 hp.2 hg).inPlace⟩
  guarantee h hg hp hj := by
    obtain ⟨ha, hc⟩ := actListed_eq_some.mp h
    exact ⟨ownership.guarantee ha trivial hp.1 hj, hc ▸ (act_kept ha hp.1 hp.2 hg).steady hj⟩

def listed (s : State ι V) (l : Label ι V) (cs : List (TablePtr V)) : List (TablePtr V) :=
  match l with
  | .run i a => change (s.threads i) a cs
  | .move _ _ => cs

def EmptyStable (s : State ι V) (l : Label ι V) : Prop :=
  match l with
  | .run i a => EmptyAgain s.data (s.threads i) a
  | .move _ _ => True

instance (s : State ι V) : (l : Label ι V) → Decidable (EmptyStable s l)
  | .run i a => inferInstanceAs (Decidable (EmptyAgain s.data (s.threads i) a))
  | .move _ _ => inferInstanceAs (Decidable True)

/-- Free slots are in step with the list, and so are the slots of every handle, or differ from it
as they should. -/
structure Dense (s : State ι V) (cs : List (TablePtr V)) : Prop where
  free : ∀ k, (s.data.tableLocks k).writer = none → (s.data.slots cs).InStep k
  inPlace : ∀ i, InPlace s.data cs (s.threads i)

variable {s s' : State ι V} {cs : List (TablePtr V)}

omit [DecidableEq ι] [Inhabited V] in
/-- While no handle is in the middle of `complete()`, the slots are the list. -/
theorem Dense.settled (hd : Dense s cs) (ho : AllOwned s)
    (hq : ∀ i, (s.threads i).pc.completing = false) :
    (∀ k, s.data.tables k = cs[k]?) ∧ s.data.tableCount = cs.length := by
  have hall (k : Nat) : (s.data.slots cs).InStep k := by
    cases hw : (s.data.tableLocks k).writer with
    | none => exact hd.free k hw
    | some i =>
      refine (hd.inPlace i).clean k (((ho i).writer k).mp hw) ?_
      have := hq i
      cases hpc : (s.threads i).pc <;> simp_all [dirty, Pc.completing]
  exact ⟨fun k => (hall k).cell, SwapArray.count_eq hall⟩

private theorem dense_move {i j : ι} (h : step s (.move i j) = some s') (hd : Dense s cs) :
    Dense s' cs := by
  obtain ⟨r, r', hi, hj, hij, hr, hr', rfl⟩ := step_move h
  have hslots : (s.data.handOver r.lock j).slots cs = s.data.slots cs := by
    simp [InternalData.slots, handOver_tables, handOver_counts]
  have keep {t : Thread V} (hp : InPlace s.data cs t) : InPlace (s.data.handOver r.lock j) cs t :=
    ⟨hslots ▸ hp.clean, hslots ▸ hp.facts⟩
  refine ⟨fun k hk => ?_, fun k => ?_⟩
  · rw [hslots]
    rw [handOver_writer] at hk
    split at hk
    · cases hk
    · exact hd.free k hk
  · by_cases hkj : k = j
    · simpa [hkj, hi] using keep (hd.inPlace i)
    · by_cases hki : k = i
      · have hnone : InPlace (s.data.handOver r.lock j) cs ⟨r.movedFrom, .idle⟩ :=
          ⟨by simp [Thread.held, Pc.held, Reservation.movedFrom], trivial⟩
        simpa [hki, hij] using hnone
      · simpa [hkj, hki] using keep (hd.inPlace k)

section Runs
variable [Fintype ι]

omit [DecidableEq ι] [Inhabited V] in
theorem known_run {i : ι} {a : Act V} (hc : Counted s) (hd : Dense s cs)
    (hg : EmptyAgain s.data (s.threads i) a) : Known s.data cs (s.threads i) a := by
  have hle := le_total Thread.creates s.threads (Finset.mem_univ i)
  have hbound := hc.bound
  simp only [State.openCreates] at hbound
  exact ⟨hd.free, by omega, hg⟩

theorem dense_step {l : Label ι V} (h : step s l = some s') (ho : AllOwned s) (hc : Counted s)
    (hd : Dense s cs) (hg : EmptyStable s l) : Dense s' (listed s l cs) := by
  cases l with
  | move i j => exact dense_move h hd
  | run i a =>
    obtain ⟨d', t', ha, rfl⟩ := step_run.mp h
    have hknown : Known s.data cs (s.threads i) a := known_run hc hd hg
    have hkept := act_kept ha (ho i) (hd.inPlace i) hknown
    have hlisted : actListed i a (s.data, cs) (s.threads i) =
        some ((d', change (s.threads i) a cs), t') := actListed_eq_some.mpr ⟨ha, rfl⟩
    refine ⟨fun k hk => hkept.free (fun j hj => ownership.guarantee ha trivial (ho i) hj)
      (ownership.sound ha trivial (ho i)).writer hd.free hk, fun j => ?_⟩
    exact (slotOutline.preserved (fun j => ⟨ho j, hd.inPlace j⟩) hlisted hknown j).2

omit [DecidableEq ι] [Inhabited V] [Fintype ι] in
theorem dense_start (g : GapFree V) : Dense (g.start : State ι V) g.tables := by
  refine ⟨fun k _ => ⟨rfl, .rfl, id⟩, fun i => ⟨?_, trivial⟩⟩
  simp [GapFree.start, State.at, Thread.held, Pc.held, Reservation.closed]

theorem Dense.of_reach {s₀ : State ι V} {cs₀ : List (TablePtr V)} (h₀ : Dense s₀ cs₀)
    (ho : AllOwned s₀) (hc : Counted s₀)
    (h : Reach (recorded step listed) (fun x l => EmptyStable x.1 l) (s₀, cs₀) (s, cs)) :
    Dense s cs := by
  refine h.invariant_with (I := fun x => Dense x.1 x.2) (J := fun x => AllOwned x.1 ∧ Counted x.1)
    (fun x hx => ⟨ho.of_reach hx.forget, hc.of_reach ho hx.forget⟩) h₀ ?_
  rintro ⟨s, cs⟩ l ⟨s', cs'⟩ ⟨ho, hc⟩ _ hd hg he
  obtain ⟨hs, rfl⟩ := recorded_eq_some.mp he
  exact dense_step hs ho hc hd hg

theorem dense_of_reach {g : GapFree V} (h : Reach step EmptyStable g.start s) :
    ∃ cs, Dense s cs := by
  obtain ⟨cs, hr⟩ : ∃ cs, Reach (recorded step listed) (fun x l => EmptyStable x.1 l)
      (g.start, g.tables) (s, cs) := h.remember g.tables
  exact ⟨cs, (dense_start g).of_reach (allOwned_start g) (counted_start g) hr⟩

end Runs
end PStress.Metadata
