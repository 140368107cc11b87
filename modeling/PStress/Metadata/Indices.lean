import PStress.Metadata.Dense

/-! The indices `complete()` uses. The assertions its comments leave open hold as long as emptiness
found is found again, and fail when another CREATE completes between two reads of `size()`. -/
namespace PStress.Metadata
open Interleaving
variable {ι V : Type}

def Thread.subscripts (t : Thread V) : List Nat :=
  match t.pc with
  | .alterStore | .dropClear | .dropMoved | .moveStore .. => [t.res.index]
  | .lastLock l | .lastLoad l | .moveLoad l | .moveClear l | .moveMoved l => [l]
  | .outerLock n | .outerLoad n => [decrement n]
  | .innerLock n _ | .innerStore n _ => [n]
  | _ => []

/-- The unsigned values from which the next step of `complete()` subtracts one. -/
def Thread.subtracts (d : InternalData ι V) (t : Thread V) : List Nat :=
  match t.pc with
  | .dropTest | .dropCount | .lastRead | .lastTest _ | .moveCount _ => [d.tableCount]
  | .dropReserved | .moveReserved _ => [d.reservedSize]
  | .outerLock n => [n]
  | _ => []

private theorem subscripts_lt {d : InternalData ι V} {cs : List (TablePtr V)} {t : Thread V}
    (ho : PcOk d t.res t.pc) (hp : InPlace d cs t) : ∀ k ∈ t.subscripts, k < maximumTableCount := by
  have hf := hp.facts
  obtain ⟨r, pc⟩ := t
  have below {n : Nat} (hpos : 0 < n) (hlt : n < maximumTableCount) :
      decrement n < maximumTableCount := by
    rw [decrement_of_pos hpos]
    exact (Nat.sub_le n 1).trans_lt hlt
  cases pc with
  | alterStore | dropClear | dropMoved | moveStore =>
    simpa [Thread.subscripts] using ho.1.2.2.2.1
  | lastLock => simpa [Thread.subscripts] using hf.2
  | lastLoad => simpa [Thread.subscripts] using ho.2.2
  | moveLoad => simpa [Thread.subscripts] using ho.2.2.1
  | moveClear | moveMoved => simpa [Thread.subscripts] using ho.2.1
  | outerLock | outerLoad => simpa [Thread.subscripts] using below hf.1 hf.2
  | innerLock => simpa [Thread.subscripts] using hf.1
  | innerStore => simpa [Thread.subscripts] using ho.2.1
  | _ => simp [Thread.subscripts]

private theorem subtracts_pos {d : InternalData ι V} {cs : List (TablePtr V)} {t : Thread V}
    (ho : PcOk d t.res t.pc) (hp : InPlace d cs t) (hr : t.owes ≤ d.reservedSize) :
    ∀ m ∈ t.subtracts d, 0 < m := by
  have hf := hp.facts
  obtain ⟨r, pc⟩ := t
  cases pc with
  | dropTest | lastRead =>
    have hlt := (hp.index_lt ho.1 ho.2 (by simp [dirty])).2
    simp only [Thread.subtracts, List.mem_singleton, forall_eq]
    omega
  | lastTest =>
    have hlt := (hp.index_lt ho.1 ho.2.1 (by simp [dirty])).2
    simp only [Thread.subtracts, List.mem_singleton, forall_eq]
    omega
  | dropCount =>
    have hc : d.tableCount = r.index + 1 := hf.2.1
    simp [Thread.subtracts, hc]
  | moveCount l =>
    have hc : d.tableCount = l + 1 := hf.1
    simp [Thread.subtracts, hc]
  | dropReserved | moveReserved =>
    simp at hr
    simp only [Thread.subtracts, List.mem_singleton, forall_eq]
    omega
  | outerLock => simpa [Thread.subtracts] using hf.1
  | _ => simp [Thread.subtracts]

variable [DecidableEq ι] [Inhabited V]

/-- Indices stay inside the arrays, no subtraction wraps, and a CREATE writes the empty slot
`tables[tableCount]`. -/
theorem indices_in_bounds [Fintype ι] {g : GapFree V} {s : State ι V}
    (h : Reach step EmptyStable g.start s) (i : ι) :
    (∀ k ∈ (s.threads i).subscripts, k < maximumTableCount) ∧
      (∀ m ∈ (s.threads i).subtracts s.data, 0 < m) ∧
      ∀ n o, (s.threads i).pc = .innerStore n o →
        s.data.tables n = none ∧ s.data.tableCount = n := by
  obtain ⟨cs, hd⟩ := dense_of_reach h
  have hok := ((allOwned_start g).of_reach h i).ok
  have hin := hd.inPlace i
  have howes := le_total Thread.owes s.threads (Finset.mem_univ i)
  have hres := ((counted_start g).of_reach (allOwned_start g) h).reserved
  refine ⟨subscripts_lt hok hin, subtracts_pos hok hin (by omega), fun n o hpc => ?_⟩
  have hclean := hin.clean n (by simp [Thread.held, hpc, Pc.held]) (by simp [hpc, dirty])
  have hf := hin.facts
  rw [hpc] at hf
  have hcell : s.data.tables n = cs[n]? := hclean.cell
  exact ⟨hcell.trans (List.getElem?_eq_none hf.2.2.le), hf.2.1⟩

def createTwice (i j : ι) : List (Label ι Nat) :=
  calls i .createTable 1 ++ calls j .createTable 1 ++ calls i .complete 6 ++ calls j .complete 6

theorem indices_in_bounds_create : ∃ s : State (Fin 2) Nat,
    execute step EmptyStable (createTwice 0 1) GapFree.empty.start = some s ∧
      (s.threads 1).pc = .innerStore 1 true ∧ s.data.tables 1 = none ∧ s.data.tableCount = 1 := by
  obtain ⟨s, he, hs⟩ := Option.map_eq_some_iff.mp
    (show (execute step EmptyStable (createTwice (0 : Fin 2) 1) GapFree.empty.start).map
      (fun s => (s.threads 1).pc) = some (.innerStore 1 true) by decide +kernel)
  exact ⟨s, he, hs, (indices_in_bounds (reach_of_execute _ he) 1).2.2 1 true hs⟩

/-- The first CREATE reads the size of an empty container; before it tests for emptiness with a
second read, the other one completes. -/
def createBetween (i j : ι) : List (Label ι Nat) :=
  calls i .createTable 1 ++ calls j .createTable 1 ++ calls i .complete 1 ++
    calls j .complete 6 ++ ticks i 1

/-- The first CREATE now subscripts `tableLocks` with `0 - 1`. -/
theorem index_out_of_bounds : ¬ ∀ s : State (Fin 2) Nat, Reach step always GapFree.empty.start s →
    ∀ i, ∀ k ∈ (s.threads i).subscripts, k < maximumTableCount := by
  intro h
  obtain ⟨s, he, hs⟩ := Option.map_eq_some_iff.mp
    (show (execute step always (createBetween (0 : Fin 2) 1) GapFree.empty.start).map
      (fun s => (s.threads 0).subscripts) = some [npos] by decide +kernel)
  have hnpos := h s (reach_of_execute _ he) 0 npos (by simp [hs])
  exact absurd hnpos maximumTableCount_lt_npos.not_gt

end PStress.Metadata
