import PStress.Metadata.Alone
import PStress.Metadata.Creates
import PStress.Metadata.Deadlock

/-! The retry loops of `complete()`. A handle that is left alone, with no slot owned by another
handle, finds the last slot as its loop expects it, and returns. -/
namespace PStress.Metadata
open Interleaving
variable {ι V : Type} [DecidableEq ι] [Inhabited V]

section Open
variable {i : ι} {d : InternalData ι V} {cs : List (TablePtr V)} {r : Reservation V}

/-- An ALTER stores its copy and returns. -/
theorem alter_returns : ∃ x, Settles i d ⟨r, .alterStore⟩ x := ⟨_, alter_settles.mpr rfl⟩

/-- A DROP finds its own slot at the end, or takes the table from the end. -/
theorem drop_returns (hcell : ∀ k, d.tables k = cs[k]?) (hcount : d.tableCount = cs.length)
    (hlt : r.index < cs.length) (hroom : cs.length ≤ maximumTableCount)
    (hfree : ∀ k, k ≠ r.index → (d.tableLocks k).free = true) :
    ∃ x, Settles i d ⟨r, .dropTest⟩ x := by
  obtain ⟨l, hl⟩ : ∃ l, cs.length = l + 1 := Nat.exists_eq_add_one.mpr (Nat.zero_lt_of_lt hlt)
  by_cases hlast : r.index = l
  · exact ⟨_, (dropLast_settles (by rw [hcount, hl, hlast])).mpr rfl⟩
  · have hsome : (d.tables l).isSome = true := by simp [hcell, hl]
    exact ⟨_, (dropMoved_settles (hcount.trans hl) hlast (by omega) hsome).mpr
      ⟨hfree l (Ne.symm hlast), rfl⟩⟩

/-- A CREATE finds the last slot filled and the size unchanged. -/
theorem create_returns (hcell : ∀ k, d.tables k = cs[k]?) (hcount : d.tableCount = cs.length)
    (hroom : cs.length < maximumTableCount) (hfree : ∀ k, (d.tableLocks k).free = true) :
    ∃ x, Settles i d ⟨r, .createRead⟩ x := by
  cases hl : cs.length with
  | zero => exact ⟨_, (createFirst_settles (hcount.trans hl)).mpr ⟨hfree 0, rfl⟩⟩
  | succ n =>
    have hsome : (d.tables n).isSome = true := by simp [hcell, hl]
    exact ⟨_, (createNext_settles (hcount.trans hl) (by omega) hsome).mpr
      ⟨hfree n, hfree (n + 1), rfl⟩⟩

end Open

omit [Inhabited V] in
/-- Where no other handle owns a slot, the slots are the list of tables and their mutexes are free,
but for the handle's own. -/
theorem Dense.alone {s : State ι V} {cs : List (TablePtr V)} {i : ι} {r : Reservation V}
    (hd : Dense s cs) (ho : AllOwned s) (hi : s.threads i = ⟨r, .idle⟩)
    (halone : ∀ j, j ≠ i → ∀ k, ¬ s.Owns j k) :
    (∀ k, s.data.tables k = cs[k]?) ∧ s.data.tableCount = cs.length ∧
      ∀ k, k ∉ r.lock.toList → (s.data.tableLocks k).free = true := by
  have hown := ho i
  have hplace := hd.inPlace i
  rw [hi] at hown hplace
  have hwriter (k : Nat) : (s.data.tableLocks k).writer = none ∨
      (s.data.tableLocks k).writer = some i := by
    cases hw : (s.data.tableLocks k).writer with
    | none => exact .inl rfl
    | some j => exact .inr (congrArg some (by_contra fun hj => halone j hj k (.inl hw)))
  have hall (k : Nat) : (s.data.slots cs).InStep k := by
    obtain hw | hw := hwriter k
    · exact hd.free k hw
    · exact hplace.clean k ((hown.writer k).mp hw) (by simp [dirty])
  refine ⟨fun k => (hall k).cell, SwapArray.count_eq hall, fun k hk => ?_⟩
  refine SharedMutex.free_iff.mpr ⟨(hwriter k).resolve_right fun hw => hk ?_, ?_⟩
  · simpa [Thread.held, Pc.held] using (hown.writer k).mp hw
  · refine Finset.eq_empty_of_forall_notMem fun j hj => ?_
    by_cases hij : j = i
    · subst hij
      simpa [Pc.shared] using (hown.reader k).mp hj
    · exact halone j hij k (.inr hj)

/-- `complete()` returns when no other handle owns a slot or takes a further step. -/
theorem complete_returns [Fintype ι] {g : GapFree V} {s : State ι V}
    (h : Reach step EmptyStable g.start s) {i : ι} {r : Reservation V}
    (hi : s.threads i = ⟨r, .idle⟩) (hopen : r.isOpen = true)
    (halone : ∀ j, j ≠ i → ∀ k, ¬ s.Owns j k) :
    ∃ n, (invoke i n .complete s.data r).isSome := by
  obtain ⟨cs, hd⟩ := dense_of_reach h
  have ho := (allOwned_start g).of_reach h
  have hbound := ((counted_start g).of_reach (allOwned_start g) h).bound
  have hle := le_total Thread.creates s.threads (Finset.mem_univ i)
  obtain ⟨hcell, hcount, hfree⟩ := hd.alone ho hi halone
  have hok := (ho i).ok
  have hplace := hd.inPlace i
  simp only [State.openCreates] at hbound
  rw [hi] at hok hplace hle
  suffices hs : ∃ x, Settles i s.data ⟨r, r.branch⟩ x by
    obtain ⟨x, n, hn⟩ := hs
    exact ⟨n, by simp [invoke, call, hopen, hn]⟩
  obtain hc | ⟨b, hb, hk⟩ : r.Creating ∨ ∃ b, r.Holding b ∧ Backed s.data r :=
    Resting.of_open hok hopen
  · have hone : Thread.creates ⟨r, .idle⟩ = 1 := creates_creating hc
    have hlock : r.lock = none := hc.2.2.2.1
    rw [hc.branch]
    exact create_returns hcell hcount (by omega) fun k => hfree k (by simp [hlock])
  · have hlock : r.lock = some r.index := hb.2.2.1
    have hlt : r.index < cs.length := (hplace.index_lt hb hk (by simp [dirty])).1
    rw [hb.branch]
    cases b with
    | false => exact alter_returns
    | true =>
      refine drop_returns hcell hcount hlt (by omega) fun k hk => hfree k ?_
      simpa [hlock] using hk

/-- A DROP and a CREATE are open, and neither handle does anything. -/
def dropBesideCreate (i j : ι) : List (Label ι Nat) :=
  calls i (.dropTable 0) 2 ++ calls j .createTable 1

theorem complete_returns_drop : ∃ (s : State (Fin 2) Nat) (r : Reservation Nat),
    execute step EmptyStable (dropBesideCreate 0 1) pair.start = some s ∧
      s.threads 0 = ⟨r, .idle⟩ ∧ r.Holding true ∧
      ∃ n, (invoke 0 n .complete s.data r).isSome := by
  obtain ⟨s, he, hs⟩ := Option.map_eq_some_iff.mp
    (show (execute step EmptyStable (dropBesideCreate (0 : Fin 2) 1) pair.start).map
      (fun s => ((s.threads 0).res, (s.threads 0).pc, (s.threads 1).held,
        (s.threads 1).pc.shared)) =
          some (⟨true, some ⟨0, 10⟩, true, 0, some 0⟩, .idle, [], []) by decide +kernel)
  obtain ⟨hres, hpc, hheld, hshared⟩ : (s.threads 0).res =
      ⟨true, some ⟨0, 10⟩, true, 0, some 0⟩ ∧ (s.threads 0).pc = .idle ∧
      (s.threads 1).held = [] ∧ (s.threads 1).pc.shared = [] := by
    simpa using hs
  have hi : s.threads 0 = ⟨⟨true, some ⟨0, 10⟩, true, 0, some 0⟩, .idle⟩ := by
    rw [← hres, ← hpc]
  have hr := reach_of_execute _ he
  have hown := (allOwned_start pair).of_reach hr 1
  refine ⟨s, _, he, hi, ⟨rfl, rfl, rfl, by decide, rfl⟩, complete_returns hr hi rfl ?_⟩
  intro j hj k hk
  obtain rfl : j = 1 := by omega
  obtain hk | hk := hk
  · simpa [hheld] using (hown.writer k).mp hk
  · simpa [hshared] using (hown.reader k).mp hk

private theorem create_retries {i : ι} {d : InternalData ι V} {r : Reservation V} {n : Nat}
    (hcount : d.tableCount = n + 1) (hcell : d.tables n = none) (x) :
    ¬ Settles i d ⟨r, .createRead⟩ x := by
  rintro ⟨m, hm⟩
  refine settle_invariant (P := fun e t => match t.pc with
    | .createRead => e.tableCount = n + 1 ∧ e.tables n = none
    | .createTest k | .outerLock k | .outerLoad k | .outerRetry k =>
      k = n + 1 ∧ e.tableCount = n + 1 ∧ e.tables n = none
    | .undefined _ => True
    | _ => False) ?_ ⟨hcount, hcell⟩ hm
  intro e r pc e' t' hpc ht
  cases pc with
  | createRead =>
    cases ht
    exact ⟨hpc.1, hpc⟩
  | createTest k =>
    obtain ⟨rfl, hcount, hcell⟩ := hpc
    cases ht
    simp [hcount, hcell]
  | outerLock k =>
    simp only [tick] at ht
    (repeat' split at ht) <;> cases ht
    · exact hpc
    · trivial
  | outerLoad k =>
    obtain ⟨rfl, hcount, hcell⟩ := hpc
    cases ht
    simp [hcount, hcell]
  | outerRetry k =>
    cases ht
    exact hpc.2
  | idle | undefined => cases ht
  | _ => cases hpc

def sharedSlot (i j k : ι) : List (Label ι Nat) :=
  calls i .createTable 1 ++ calls j .createTable 1 ++ calls k .createTable 1 ++ simultaneous i j

/-- The size is then two, the second slot is empty, and the third CREATE retries for ever. -/
theorem create_never_returns : ¬ ∀ s : State (Fin 3) Nat, Reach step always GapFree.empty.start s →
    ∀ i r, s.threads i = ⟨r, .idle⟩ → r.isOpen = true → (∀ j, j ≠ i → ∀ k, ¬ s.Owns j k) →
      ∃ n, (invoke i n .complete s.data r).isSome := by
  intro h
  obtain ⟨s, he, hs⟩ := Option.map_eq_some_iff.mp
    (show (execute step always (sharedSlot (0 : Fin 3) 1 2) GapFree.empty.start).map
      (fun s => ((s.threads 2).res, (s.threads 2).pc, decide (∀ j, j ≠ 2 →
        (s.threads j).held = [] ∧ (s.threads j).pc.shared = []), s.data.tableCount,
        s.data.tables 1)) =
          some (⟨true, some ⟨2, 0⟩, false, npos, none⟩, .idle, true, 2, none) by decide +kernel)
  obtain ⟨hres, hpc, hfree, hcount, hcell⟩ : (s.threads 2).res =
      ⟨true, some ⟨2, 0⟩, false, npos, none⟩ ∧ (s.threads 2).pc = .idle ∧
      (∀ j, j ≠ 2 → (s.threads j).held = [] ∧ (s.threads j).pc.shared = []) ∧
      s.data.tableCount = 2 ∧ s.data.tables 1 = none := by
    simpa using hs
  have hi : s.threads 2 = ⟨⟨true, some ⟨2, 0⟩, false, npos, none⟩, .idle⟩ := by
    rw [← hres, ← hpc]
  have hr := reach_of_execute _ he
  have hown := (allOwned_start GapFree.empty).of_reach hr
  obtain ⟨n, hn⟩ := h s hr 2 _ hi rfl fun j hj k hk => by
    obtain hk | hk := hk
    · simpa [hfree j hj] using ((hown j).writer k).mp hk
    · simpa [hfree j hj] using ((hown j).reader k).mp hk
  obtain ⟨x, hx⟩ := Option.isSome_iff_exists.mp hn
  exact create_retries hcount hcell x ⟨n, hx⟩

end PStress.Metadata
