import PStress.Metadata.Slots

/-! What one step of a handle does to the slots: it is a write by their owner, and the handle knows
afterwards in what way its slots differ from the list of tables. -/
namespace PStress.Metadata
open Interleaving
variable {ι V : Type}

section Steps
variable [DecidableEq ι] [Inhabited V] {i : ι} {d d' : InternalData ι V} {cs : List (TablePtr V)}
  {t t' : Thread V} {a : Act V}

/-- Each step either leaves the array alone or is one of its writes. -/
private theorem tick_write {r : Reservation V} {pc : Pc V} (h : tick i d r pc = some (d', t'))
    (ho : Owned i d ⟨r, pc⟩) (hp : InPlace d cs ⟨r, pc⟩) :
    d'.slots (change ⟨r, pc⟩ .tick cs) = d.slots cs ∨
      (d.slots cs).Write (d.owned i) (d'.slots (change ⟨r, pc⟩ .tick cs)) := by
  have hown {k : Nat} (hk : k ∈ Thread.held ⟨r, pc⟩) : k ∈ d.owned i := (ho.writer k).mpr hk
  have before {n : Nat} {o : Bool} (hn : if o then 0 < n else n = 0)
      (hk : o = true → decrement n ∈ Thread.held ⟨r, pc⟩) : n = 0 ∨ n - 1 ∈ d.owned i := by
    cases o with
    | false => exact .inl hn
    | true => exact .inr (hown (decrement_of_pos hn ▸ hk rfl))
  have hok := ho.ok
  have hf := hp.facts
  cases pc with
  | alterStore =>
    cases h
    obtain ⟨p, hr⟩ : ∃ p, r.table = some p := Option.isSome_iff_exists.mp hok.1.2.2.2.2
    have hlt : r.index < (d.slots cs).contents.length :=
      (hp.index_lt hok.1 hok.2 (by simp [dirty])).1
    right
    simpa [InternalData.slots, change, hr] using
      SwapArray.Write.replace r.index p (hown (hok.1.index_mem _)) hlt
  | dropClear =>
    cases h
    have hs := hp.clean r.index (hok.1.index_mem _) (by simp [dirty])
    exact .inr (.removeLast r.index (hown (hok.1.index_mem _)) hf (hs.last hf))
  | dropCount =>
    cases h
    right
    simpa [InternalData.slots, change, show d.tableCount = r.index + 1 from hf.2.1] using
      SwapArray.Write.countDown r.index (hown (hok.1.index_mem _)) hf.2.1 hf.2.2
  | moveStore l p =>
    cases h
    have hl := hp.clean l (by simp [Thread.held, Pc.held]) (by simp [dirty])
    have hlt := (hp.index_lt hok.1 hok.2.1 (by simp [dirty])).2
    have hlock : r.lock = some r.index := hok.1.2.2.1
    have hne : r.index ≠ l := by simpa [Thread.held, Pc.held, hlock] using ho.nodup
    have hc : d.tableCount = l + 1 := hf
    right
    simpa [InternalData.slots, change, hok.2.2.2.1] using
      SwapArray.Write.removeMoved r.index l (hown (hok.1.index_mem _))
        (hown (by simp [Thread.held, Pc.held])) (by simp only at hlt; omega) hf (hl.last hf)
  | moveCount l =>
    cases h
    right
    simpa [InternalData.slots, change, show d.tableCount = l + 1 from hf.1] using
      SwapArray.Write.countDown l (hown (by simp [Thread.held, Pc.held])) hf.1 hf.2
  | moveClear l =>
    cases h
    exact .inr (.clear l (hown (by simp [Thread.held, Pc.held])))
  | innerStore n o =>
    cases h
    obtain ⟨p, hr⟩ : ∃ p, r.table = some p := Option.isSome_iff_exists.mp hok.1.2.2.2.2
    right
    simpa [InternalData.slots, change, hr] using
      SwapArray.Write.insert n p (hown (by simp [Thread.held, Pc.held]))
        (before hf.1 fun ho => by simp [Thread.held, Pc.held, ho]) hf.2.1 hf.2.2
  | innerCount n o =>
    cases h
    right
    simpa [InternalData.slots, change, show d.tableCount = n from hf.2.1] using
      SwapArray.Write.countUp n (hown (by simp [Thread.held, Pc.held]))
        (before hf.1 fun ho => by simp [Thread.held, Pc.held, ho]) hf.2.1 hf.2.2.1
  | _ =>
    left
    simp only [tick] at h
    (repeat' split at h) <;> cases h <;> simp [InternalData.slots, change]

omit [Inhabited V] in
private theorem clean_of_effect {cs' : List (TablePtr V)} {held shared held' shared' : List Nat}
    {D : List Nat} (he : Effect i d held shared d' held' shared') (hv : d'.slots cs' = d.slots cs)
    (hfree : ∀ k, (d.tableLocks k).writer = none → (d.slots cs).InStep k)
    (hc : ∀ k ∈ held, k ∉ D → (d.slots cs).InStep k) :
    ∀ k ∈ held', k ∉ D → (d'.slots cs').InStep k := by
  rw [hv]
  intro k hk hD
  cases he with
  | keep _ _ hp => exact hc k (hp.subset hk) hD
  | lock l hf hp =>
    obtain rfl | hk := List.mem_cons.mp (hp.subset hk)
    · exact hfree k (SharedMutex.free_iff.mp hf).1
    · exact hc k hk hD
  | unlock l hp => exact hc k (hp.symm.subset (List.mem_cons_of_mem _ hk)) hD
  | store | share | unshare => exact hc k hk hD

private theorem tick_facts {r : Reservation V} {pc : Pc V} (h : tick i d r pc = some (d', t'))
    (hok : PcOk d r pc) (hp : InPlace d cs ⟨r, pc⟩) (hg : Known d cs ⟨r, pc⟩ .tick) :
    SlotFacts (d'.slots (change ⟨r, pc⟩ .tick cs)) t'.res t'.pc := by
  have hf := hp.facts
  have hroom := hg.room
  cases pc with
  | idle | undefined => cases h
  | dropTest =>
    have hlt := (hp.index_lt hok.1 hok.2 (by simp [dirty])).2
    simp only [tick] at h
    split at h <;> cases h
    · rename_i hi
      rw [decrement_of_pos (by omega)] at hi
      change d.tableCount = r.index + 1
      omega
    · trivial
  | dropClear =>
    cases h
    have hs := hp.clean r.index (hok.1.index_mem _) (by simp [dirty])
    have hlen : cs.length = r.index + 1 := hs.last hf
    exact ⟨by simp [InternalData.slots], hf, by simp [InternalData.slots, change, hlen]⟩
  | lastRead =>
    cases h
    have hlt := (hp.index_lt hok.1 hok.2 (by simp [dirty])).2
    simp only at hlt
    simp only [SlotFacts]
    rw [decrement_of_pos (by omega)]
    omega
  | lastLock l =>
    simp only [tick] at h
    (repeat' split at h) <;> cases h
    · trivial
    · exact absurd hf.2 (by assumption)
  | lastTest l =>
    have hlt := (hp.index_lt hok.1 hok.2.1 (by simp [dirty])).2
    simp only [tick] at h
    split at h <;> cases h
    · rename_i hl
      rw [decrement_of_pos (by omega)] at hl
      change d.tableCount = l + 1
      omega
    · trivial
  | moveLoad l =>
    cases h
    exact hf
  | moveStore l p =>
    cases h
    have hl := hp.clean l (by simp [Thread.held, Pc.held]) (by simp [dirty])
    have hlen : cs.length = l + 1 := hl.last hf
    exact ⟨hf, by simp [InternalData.slots, change, hlen]⟩
  | moveUnlock l =>
    cases h
    exact hf
  | moveCount l =>
    cases h
    have hc : d.tableCount = l + 1 := hf.1
    exact ⟨by simp [InternalData.slots, hc], List.getElem?_eq_none hf.2.le⟩
  | moveReserved l =>
    cases h
    exact hf
  | createRead =>
    cases h
    have hone : Thread.creates ⟨r, .createRead⟩ = 1 := creates_creating hok
    change d.tableCount < maximumTableCount
    omega
  | createTest n =>
    have hn : n = 0 ↔ d.tableCount = 0 := hg.again
    simp only [tick] at h
    split at h <;> cases h
    · exact ⟨hf, hn.mpr (by assumption)⟩
    · exact ⟨by omega, hf⟩
  | outerLock n =>
    have hlast : decrement n < maximumTableCount := by
      rw [decrement_of_pos hf.1]
      exact (Nat.sub_le n 1).trans_lt hf.2
    simp only [tick, if_pos hlast] at h
    split at h <;> cases h
    exact hf
  | outerLoad n =>
    simp only [tick] at h
    split at h <;> cases h <;> exact hf
  | outerTest n =>
    simp only [tick] at h
    split at h <;> cases h
    · rename_i hn
      exact ⟨hf.2, hf.1, hn.symm⟩
    · exact hf
  | innerLock n o =>
    simp only [tick, if_pos hf.1] at h
    split at h <;> cases h
    cases o with
    | false =>
      obtain rfl : n = 0 := hf.2
      have hc : d.tableCount = 0 := hg.again
      have h₀ := hg.free 0 (SharedMutex.free_iff.mp (by assumption)).1
      have hlen : ¬ 0 < cs.length := fun hl =>
        absurd (h₀.below.mpr hl) (by simp [InternalData.slots, hc])
      exact ⟨rfl, hc, Nat.eq_zero_of_not_pos hlen⟩
    | true =>
      obtain ⟨m, rfl⟩ := Nat.exists_eq_add_one.mpr hf.2.1
      have hm := hp.clean m (by simp [Thread.held, Pc.held]) (by simp [dirty])
      exact ⟨hf.2.1, hf.2.2, hm.last hf.2.2⟩
  | innerStore n o =>
    cases h
    obtain ⟨p, hr⟩ : ∃ p, r.table = some p := Option.isSome_iff_exists.mp hok.1.2.2.2.2
    have hlen : cs.length = n := hf.2.2
    refine ⟨hf.1, hf.2.1, by simp [InternalData.slots, change, hr, hlen],
      by simp [InternalData.slots, change, hr, ← hlen], fun ho => ?_⟩
    subst ho
    obtain ⟨m, rfl⟩ := Nat.exists_eq_add_one.mpr hf.1
    have hm := hp.clean m (by simp [Thread.held, Pc.held]) (by simp [dirty])
    have hcell : d.tables m = cs[m]? := hm.cell
    simp [InternalData.slots, change, hcell,
      List.getElem?_append_left (show m < cs.length by omega)]
  | innerUnlock n o =>
    cases h
    cases o <;> trivial
  | _ =>
    simp only [tick] at h
    (repeat' split at h) <;> cases h <;> trivial

/-- The slots a handle keeps after its own step are in step, or differ as they should. -/
private theorem tick_clean {r : Reservation V} {pc : Pc V} (h : tick i d r pc = some (d', t'))
    (hn : (Thread.held ⟨r, pc⟩).Nodup) (hok : PcOk d r pc) (hp : InPlace d cs ⟨r, pc⟩)
    (hg : Known d cs ⟨r, pc⟩ .tick) :
    ∀ k ∈ t'.held, k ∉ dirty t'.res t'.pc → (d'.slots (change ⟨r, pc⟩ .tick cs)).InStep k := by
  have he := tick_effect h hok
  have hf := hp.facts
  have hc := hp.clean
  cases pc with
  | alterStore =>
    cases h
    obtain ⟨p, hr⟩ : ∃ p, r.table = some p := Option.isSome_iff_exists.mp hok.1.2.2.2.2
    have hlock : r.lock = some r.index := hok.1.2.2.1
    have hlt := (hp.index_lt hok.1 hok.2 (by simp [dirty])).1
    have hs := hc r.index (hok.1.index_mem _) (by simp [dirty])
    intro k hk _
    obtain rfl : k = r.index := by simpa [Thread.held, Pc.held, hlock, eq_comm] using hk
    refine ⟨?_, by simpa [InternalData.slots, change, hr] using hs.below,
      by simpa [InternalData.slots, change, hr] using hs.last⟩
    simp only at hlt
    simp [InternalData.slots, change, hr, hlt]
  | dropCount =>
    cases h
    have hlock : r.lock = some r.index := hok.1.2.2.1
    have hc : d.tableCount = r.index + 1 := hf.2.1
    have hcell : d.tables r.index = none := hf.1
    have hlen : cs.length = r.index := hf.2.2
    intro k hk _
    obtain rfl : k = r.index := by simpa [Thread.held, Pc.held, hlock, eq_comm] using hk
    constructor <;> simp [InternalData.slots, change, hc, hcell, hlen]
  | moveStore l p =>
    cases h
    have hlock : r.lock = some r.index := hok.1.2.2.1
    have hne : r.index ≠ l := by simpa [Thread.held, Pc.held, hlock] using hn
    have hcount : d.tableCount = l + 1 := hf
    have hl := hc l (by simp [Thread.held, Pc.held]) (by simp [dirty])
    have hlt := (hp.index_lt hok.1 hok.2.1 (by simp [dirty])).2
    have hlen : cs.length = l + 1 := hl.last hf
    have hcell : d.tables l = cs[l]? := hl.cell
    have hpl : d.tables l = p := hok.2.2.2.1
    intro k hk hd
    obtain rfl : k = r.index := by
      have : k = r.index ∨ k = l := by simpa [Thread.held, Pc.held, hlock, eq_comm] using hk
      exact this.resolve_right (by simpa [dirty] using hd)
    simp only at hlt
    have hentry : (swapRemove cs r.index)[r.index]? = cs[l]? := by
      rw [getElem?_swapRemove cs (by omega), if_pos rfl, hlen, Nat.add_sub_cancel]
    refine ⟨?_, ?_, fun hlast => ?_⟩
    · simp [InternalData.slots, change, hentry, ← hpl, hcell]
    · simp [InternalData.slots, change, hlen, hcount]
      omega
    · exact absurd (hcount.symm.trans hlast) (by omega)
  | moveClear l =>
    cases h
    intro k hk _
    have hlock : r.lock = none := hok.1.1
    obtain rfl : k = l := by simpa [Thread.held, Pc.held, hlock, eq_comm] using hk
    have hlen : ¬ k < cs.length := by simpa [InternalData.slots] using hf.2
    have hcount : ¬ k < d.tableCount := hf.1
    refine ⟨?_, ?_, fun hlast => absurd hlast ?_⟩
    · simp [InternalData.slots, change, Nat.le_of_not_lt hlen]
    · simp [InternalData.slots, change, hlen, hcount]
    · simp [InternalData.slots]
      omega
  | innerCount n o =>
    cases h
    have hlock : r.lock = none := hok.1.2.2.2.1
    obtain ⟨hpos, hcount, hlen, hcell, hlast⟩ := hf
    simp only [InternalData.slots] at hcount hlen hcell hlast
    intro k hk _
    have hk : k = n ∨ o = true ∧ k = decrement n := by
      simpa [Thread.held, Pc.held, hlock] using hk
    obtain rfl | ⟨rfl, rfl⟩ := hk
    · constructor <;> simp [InternalData.slots, change, hcount, hlen, hcell]
    · obtain ⟨m, rfl⟩ := Nat.exists_eq_add_one.mpr hpos
      have hm : d.tables m = cs[m]? := hlast rfl
      rw [decrement_succ]
      refine ⟨hm, ?_, fun h => absurd h ?_⟩
      · simp [InternalData.slots, change, hcount, hlen]
      · simp [InternalData.slots, hcount]
  | dropClear =>
    cases h
    have hlock : r.lock = some r.index := hok.1.2.2.1
    intro k hk hd
    exact absurd (by simpa [Thread.held, Pc.held, dirty, hlock, eq_comm] using hk) hd
  | moveCount l =>
    cases h
    have hlock : r.lock = none := hok.1.1
    intro k hk hd
    exact absurd (by simpa [Thread.held, Pc.held, dirty, hlock] using hk) hd
  | innerStore n o =>
    cases h
    have hlock : r.lock = none := hok.1.2.2.2.1
    intro k hk hd
    exact absurd (by simpa [Thread.held, Pc.held, dirty, hlock] using hk) hd
  | _ =>
    simp only [tick] at h
    (repeat' split at h) <;> cases h <;>
      exact clean_of_effect he (by simp [InternalData.slots, change]) hg.free hc

private theorem tick_released {r : Reservation V} {pc : Pc V} (h : tick i d r pc = some (d', t'))
    (hok : PcOk d r pc) (hp : InPlace d cs ⟨r, pc⟩) :
    ∀ k ∈ Thread.held ⟨r, pc⟩, k ∉ t'.held →
      (d'.slots (change ⟨r, pc⟩ .tick cs)).InStep k := by
  intro k hk hk'
  have hc := hp.clean k hk
  cases pc with
  | alterStore | dropClear | dropCount | moveStore | moveCount | moveReserved | moveClear
  | innerStore | innerCount =>
    cases h
    exact absurd hk hk'
  | moveUnlock l =>
    cases h
    exact hc (by simpa [Thread.held, Pc.held, dirty] using hk')
  | _ =>
    simp only [tick] at h
    (repeat' split at h) <;> cases h <;> exact hc (by simp [dirty])

omit [DecidableEq ι] [Inhabited V] in
private theorem call_inPlace {r : Reservation V} (h : Called d r a d' t')
    (hc : ∀ k ∈ Thread.held ⟨r, .idle⟩, (d.slots cs).InStep k) :
    InPlace d' cs t' ∧ d'.slots cs = d.slots cs := by
  have hv : d'.slots cs = d.slots cs := by cases h <;> rfl
  refine ⟨⟨?_, by cases h <;> trivial⟩, hv⟩
  rw [hv]
  intro k hk _
  cases h with
  | release | giveBack | refuse =>
    simp [Thread.held, Pc.held, Reservation.cancelled, Reservation.closed] at hk
  | _ => exact hc k (by simpa [Thread.held, Pc.held] using hk)

/-- One step of a handle, seen from its slots. -/
structure Kept (i : ι) (d : InternalData ι V) (cs : List (TablePtr V)) (d' : InternalData ι V)
    (cs' : List (TablePtr V)) (t' : Thread V) : Prop where
  inPlace : InPlace d' cs' t'
  write : d'.slots cs' = d.slots cs ∨ (d.slots cs).Write (d.owned i) (d'.slots cs')
  released : ∀ k ∈ d.owned i, k ∉ t'.held → (d'.slots cs').InStep k

theorem act_kept (h : act i a d t = some (d', t')) (ho : Owned i d t) (hp : InPlace d cs t)
    (hg : Known d cs t a) : Kept i d cs d' (change t a cs) t' := by
  obtain ⟨r, pc⟩ := t
  obtain ⟨rfl, ht⟩ | ⟨rfl, hc⟩ := act_eq_some h
  · exact ⟨⟨tick_clean ht ho.nodup ho.ok hp hg, tick_facts ht ho.ok hp hg⟩, tick_write ht ho hp,
      fun k hk => tick_released ht ho.ok hp k ((ho.writer k).mp hk)⟩
  · have hcall := called_of_call hc ho.ok
    have hclean (k : Nat) (hk : k ∈ Thread.held ⟨r, .idle⟩) : (d.slots cs).InStep k :=
      hp.clean k hk (by simp [dirty])
    have hsame : change ⟨r, .idle⟩ a cs = cs := by cases a <;> rfl
    obtain ⟨hin, hv⟩ := call_inPlace hcall hclean
    rw [hsame]
    refine ⟨hin, .inl hv, fun k hk _ => ?_⟩
    rw [hv]
    exact hclean k ((ho.writer k).mp hk)

end Steps

namespace Kept
variable {i j : ι} {d d' : InternalData ι V} {cs cs' : List (TablePtr V)} {t' : Thread V}

theorem leaves (h : Kept i d cs d' cs' t') {k : Nat} (hk : k ∉ d.owned i) :
    (d.slots cs).Leaves (d'.slots cs') k := by
  obtain hv | hw := h.write
  · rw [hv]
    exact .refl _ k
  · exact hw.leaves hk

/-- What one handle does is what the others rely on. -/
theorem steady (h : Kept i d cs d' cs' t') (hj : j ≠ i) : Steady j d cs d' cs' := by
  have apart (k : Nat) (hk : k ∈ d.owned j) : k ∉ d.owned i := fun hi =>
    hj (Option.some.inj (hk.symm.trans hi))
  refine ⟨fun k hk => h.leaves (apart k hk), fun hend => ?_⟩
  have hother : ¬ (d.slots cs).AtEnd (d.owned i) := fun hi => by
    obtain ⟨k, hk, hk'⟩ := hend.meet hi
    exact apart k hk hk'
  obtain hv | hw := h.write
  · exact ⟨congrArg SwapArray.count hv, congrArg (fun v => v.contents.length) hv⟩
  · exact hw.counts hother

/-- Slots with a free mutex are in step again after the step. -/
theorem free [DecidableEq ι] (h : Kept i d cs d' cs' t') (hu : ∀ j, j ≠ i → Untouched j d d')
    (ho : ∀ k, (d'.tableLocks k).writer = some i ↔ k ∈ t'.held)
    (hf : ∀ k, (d.tableLocks k).writer = none → (d.slots cs).InStep k) {k : Nat}
    (hk : (d'.tableLocks k).writer = none) : (d'.slots cs').InStep k := by
  cases hw : (d.tableLocks k).writer with
  | none =>
    refine (hf k hw).leaves (h.leaves ?_)
    simp [InternalData.owned, hw]
  | some j =>
    by_cases hj : j = i
    · subst hj
      refine h.released k hw fun hk' => ?_
      simpa [hk] using (ho k).mpr hk'
    · have := ((hu j hj).writer k).mpr hw
      simp [hk] at this

end Kept
end PStress.Metadata
