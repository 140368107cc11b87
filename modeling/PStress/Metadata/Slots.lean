import PStress.Interleaving.SwapArray
import PStress.Metadata.Capacity

/-! The slots as an array without gaps. Each slot whose mutex is free agrees with the list of tables
the container stands for; a handle in the middle of `complete()` knows in what way its own slots
differ. This needs a CREATE that finds the container empty to find it empty twice. -/
namespace PStress.Metadata
open Interleaving
variable {ι V : Type}

/-- What one step does to the list of tables: a CREATE appends its table, a DROP takes its table
out, and an ALTER puts its copy in the place of the original. -/
def change (t : Thread V) (a : Act V) (cs : List (TablePtr V)) : List (TablePtr V) :=
  match a, t.pc with
  | .tick, .alterStore => t.res.table.elim cs fun p => cs.set t.res.index p
  | .tick, .dropClear | .tick, .moveStore .. => swapRemove cs t.res.index
  | .tick, .innerStore .. => cs ++ t.res.table.toList
  | _, _ => cs

def InternalData.slots (d : InternalData ι V) (cs : List (TablePtr V)) : SwapArray (TablePtr V) :=
  ⟨d.tables, d.tableCount, cs⟩

def InternalData.owned (d : InternalData ι V) (i : ι) : Set Nat :=
  {k | (d.tableLocks k).writer = some i}

/-- Emptiness is tested on a second read of `size()`: it must agree with the first read, and an
empty container must still be empty when the first slot is locked. -/
def EmptyAgain (d : InternalData ι V) (t : Thread V) (a : Act V) : Prop :=
  match a, t.pc with
  | .tick, .createTest n => n = 0 ↔ d.tableCount = 0
  | .tick, .innerLock _ false => d.tableCount = 0
  | _, _ => True

instance (d : InternalData ι V) (t : Thread V) (a : Act V) : Decidable (EmptyAgain d t a) := by
  unfold EmptyAgain
  split <;> infer_instance

/-- The owned slots that differ from the list, halfway through an insertion or a removal. -/
def dirty (r : Reservation V) : Pc V → List Nat
  | .dropCount => [r.index]
  | .moveUnlock l | .moveCount l | .moveReserved l | .moveClear l => [l]
  | .innerCount n o => n :: if o then [decrement n] else []
  | _ => []

/-- How the owned slots differ from the list, and what the handle knows about the end. -/
def SlotFacts (v : SwapArray (TablePtr V)) (r : Reservation V) : Pc V → Prop
  | .dropClear => v.count = r.index + 1
  | .dropCount => v.cells r.index = none ∧ v.count = r.index + 1 ∧ v.contents.length = r.index
  | .lastLock l => r.index ≤ l ∧ l < maximumTableCount
  | .moveLoad l | .moveStore l _ => v.count = l + 1
  | .moveUnlock l | .moveCount l => v.count = l + 1 ∧ v.contents.length = l
  | .moveReserved l | .moveClear l => ¬ l < v.count ∧ v.contents[l]? = none
  | .createTest n => n < maximumTableCount
  | .outerLock n | .outerLoad n | .outerTest n | .outerRetry n => 0 < n ∧ n < maximumTableCount
  | .innerLock n o => n < maximumTableCount ∧ if o then 0 < n ∧ v.count = n else n = 0
  | .innerStore n o => (if o then 0 < n else n = 0) ∧ v.count = n ∧ v.contents.length = n
  | .innerCount n o =>
    (if o then 0 < n else n = 0) ∧ v.count = n ∧ v.contents.length = n + 1 ∧
      v.cells n = v.contents[n]? ∧
      (o = true → v.cells (decrement n) = v.contents[decrement n]?)
  | .undefined _ => False
  | _ => True

/-- A handle's slots agree with the list, or differ from it as they should. -/
structure InPlace (d : InternalData ι V) (cs : List (TablePtr V)) (t : Thread V) : Prop where
  clean : ∀ k ∈ t.held, k ∉ dirty t.res t.pc → (d.slots cs).InStep k
  facts : SlotFacts (d.slots cs) t.res t.pc

/-- What a handle relies on: others leave its slots and, if it owns the end, the count alone. -/
structure Steady (i : ι) (d : InternalData ι V) (cs : List (TablePtr V)) (d' : InternalData ι V)
    (cs' : List (TablePtr V)) : Prop where
  leaves : ∀ k ∈ d.owned i, (d.slots cs).Leaves (d'.slots cs') k
  counts : (d.slots cs).AtEnd (d.owned i) → d'.tableCount = d.tableCount ∧ cs'.length = cs.length

/-- What is known besides about a step. -/
structure Known (d : InternalData ι V) (cs : List (TablePtr V)) (t : Thread V) (a : Act V) :
    Prop where
  free : ∀ k, (d.tableLocks k).writer = none → (d.slots cs).InStep k
  room : d.tableCount + t.creates ≤ maximumTableCount
  again : EmptyAgain d t a

theorem InPlace.stable {i : ι} {d d' : InternalData ι V} {cs cs' : List (TablePtr V)} {t : Thread V}
    (hp : InPlace d cs t) (hw : ∀ k, (d.tableLocks k).writer = some i ↔ k ∈ t.held)
    (ho : PcOk d t.res t.pc) (hs : Steady i d cs d' cs') : InPlace d' cs' t := by
  have hl (k : Nat) (hk : k ∈ t.held) := hs.leaves k ((hw k).mpr hk)
  have hend {n : Nat} (hk : n ∈ t.held) (hc : d.tableCount = n + 1) :
      d'.tableCount = d.tableCount ∧ cs'.length = cs.length :=
    hs.counts (by
      simpa [SwapArray.AtEnd, InternalData.slots, InternalData.owned, hc] using (hw n).mpr hk)
  have hend₀ (hk : 0 ∈ t.held) (hc : d.tableCount = 0) :
      d'.tableCount = d.tableCount ∧ cs'.length = cs.length :=
    hs.counts (by
      simpa [SwapArray.AtEnd, InternalData.slots, InternalData.owned, hc] using (hw 0).mpr hk)
  refine ⟨fun k hk hd => (hp.clean k hk hd).leaves (hl k hk), ?_⟩
  have hf := hp.facts
  obtain ⟨r, pc⟩ := t
  cases pc with
  | dropClear =>
    exact (hend (ho.1.index_mem _) hf).1.trans hf
  | dropCount =>
    have hk := ho.1.index_mem .dropCount
    obtain ⟨hc, hlen⟩ := hend hk hf.2.1
    exact ⟨(hl _ hk).cell.trans hf.1, hc.trans hf.2.1, hlen.trans hf.2.2⟩
  | moveLoad l | moveStore l => exact (hend (by simp [Thread.held, Pc.held]) hf).1.trans hf
  | moveUnlock l | moveCount l =>
    obtain ⟨hc, hlen⟩ := hend (n := l) (by simp [Thread.held, Pc.held]) hf.1
    exact ⟨hc.trans hf.1, hlen.trans hf.2⟩
  | moveReserved l | moveClear l =>
    have hk := hl l (by simp [Thread.held, Pc.held])
    exact ⟨hk.below.not.mpr hf.1, hk.entry.trans hf.2⟩
  | innerLock n o =>
    cases o with
    | false => exact hf
    | true =>
      obtain ⟨hn, hpos, hc⟩ := hf
      obtain ⟨m, rfl⟩ := Nat.exists_eq_add_one.mpr hpos
      exact ⟨hn, hpos, (hend (by simp [Thread.held, Pc.held]) hc).1.trans hc⟩
  | innerStore n o =>
    have hcount : d'.tableCount = d.tableCount ∧ cs'.length = cs.length := by
      cases o with
      | false =>
        obtain rfl : n = 0 := hf.1
        exact hend₀ (by simp [Thread.held, Pc.held]) hf.2.1
      | true =>
        obtain ⟨m, rfl⟩ := Nat.exists_eq_add_one.mpr hf.1
        exact hend (by simp [Thread.held, Pc.held]) hf.2.1
    exact ⟨hf.1, hcount.1.trans hf.2.1, hcount.2.trans hf.2.2⟩
  | innerCount n o =>
    have hn := hl n (by simp [Thread.held, Pc.held])
    have hcount : d'.tableCount = d.tableCount ∧ cs'.length = cs.length := by
      cases o with
      | false =>
        obtain rfl : n = 0 := hf.1
        exact hend₀ (by simp [Thread.held, Pc.held]) hf.2.1
      | true =>
        obtain ⟨m, rfl⟩ := Nat.exists_eq_add_one.mpr hf.1
        exact hend (by simp [Thread.held, Pc.held]) hf.2.1
    refine ⟨hf.1, hcount.1.trans hf.2.1, hcount.2.trans hf.2.2.1, ?_, fun h => ?_⟩
    · rw [hn.cell, hn.entry]
      exact hf.2.2.2.1
    · have hm := hl (decrement n) (by simp [Thread.held, Pc.held, h])
      rw [hm.cell, hm.entry]
      exact hf.2.2.2.2 h
  | _ => exact hf

/-- The slot of an open ALTER or DROP is filled. -/
theorem InPlace.index_lt {d : InternalData ι V} {cs : List (TablePtr V)} {t : Thread V}
    (hp : InPlace d cs t) {b : Bool} (hr : t.res.Holding b)
    (hk : Backed d t.res) (hd : t.res.index ∉ dirty t.res t.pc) :
    t.res.index < cs.length ∧ t.res.index < d.tableCount := by
  have hs := hp.clean t.res.index (hr.index_mem t.pc) hd
  obtain ⟨_, q, _, hq, _⟩ := hk
  have hlen : t.res.index < cs.length := by
    have hcell : d.tables t.res.index = cs[t.res.index]? := hs.cell
    rw [hq] at hcell
    exact (List.getElem?_eq_some_iff.mp hcell.symm).1
  exact ⟨hlen, hs.below.mpr hlen⟩

end PStress.Metadata
