import PStress.Metadata.Identity

/-! No table is lost, duplicated or stranded in a container that never becomes empty. -/
namespace PStress.Metadata
open Interleaving
variable {ι V : Type} [DecidableEq ι] [Inhabited V] [Fintype ι] {s s' : State ι V}

/-- The tables listed and taken out are those there were and those created, and no two tables,
those of open CREATEs included, are the same. -/
structure Traced (base : List (TablePtr V)) (s : State ι V) (h : History V) : Prop where
  balance : ∀ x, occurrences x h.contents + occurrences x h.dropped =
    occurrences x base + occurrences x h.created
  fresh : ∀ x, occurrences x base + occurrences x h.created +
    total Finset.univ (fun t => occurrences x t.pending) s.threads ≤
      if x < s.data.nextTable then 1 else 0

theorem traced_step {base : List (TablePtr V)} {l : Label ι V} {h : History V}
    (hs : step s l = some s') (ho : AllOwned s) (hd : Dense s h.contents)
    (ht : Traced base s h) : Traced base s' (History.record s l h) := by
  cases l with
  | run i a =>
    obtain ⟨d', t', ha, rfl⟩ := step_run.mp hs
    refine ⟨fun x => ?_, fun x => ?_⟩
    · have hb := ht.balance x
      have hc := change_occurrences (a := a) (ho i).ok (hd.inPlace i) x
      simp only [History.record, occurrences_append]
      omega
    · have hf := ht.fresh x
      have hn := act_fresh ha (ho i).ok x
      have hu := total_update (fun t => occurrences x t.pending) s.threads (Finset.mem_univ i) t'
      simp only [History.record, occurrences_append] at *
      omega
  | move i j =>
    obtain ⟨_, _, _, htot⟩ := move_counts hs ho
    refine ⟨ht.balance, fun x => ?_⟩
    rw [htot (fun t => occurrences x t.pending) fun r hr => by
      simp [pending_of_creates (creates_settled hr)]]
    obtain ⟨r, r', _, _, _, _, _, rfl⟩ := step_move hs
    simpa [History.record, handOver_counts] using ht.fresh x

theorem traced_of_reach {s₀ : State ι V} {h₀ h : History V}
    {guard : State ι V → Label ι V → Prop} {base : List (TablePtr V)}
    (hg : ∀ s l, Reach step guard s₀ s → guard s l → EmptyStable s l)
    (ho : AllOwned s₀) (hc : Counted s₀) (hd : Dense s₀ h₀.contents) (ht : Traced base s₀ h₀)
    (hr : Reach (recorded step History.record) (fun x l => guard x.1 l) (s₀, h₀) (s, h)) :
    AllOwned s ∧ Counted s ∧ Dense s h.contents ∧ Traced base s h := by
  have dense {s : State ι V} {h : History V}
      (hr : Reach (recorded step History.record) (fun x l => guard x.1 l) (s₀, h₀) (s, h)) :
      Dense s h.contents := by
    have hp : Reach (recorded step listed) (fun x l => guard x.1 l) (s₀, h₀.contents)
        (s, h.contents) := hr.project History.contents fun s l h => by cases l <;> rfl
    exact hd.of_reach ho hc (hp.weaken fun x l hx hgx => hg x.1 l hx.forget hgx)
  refine ⟨ho.of_reach hr.forget, hc.of_reach ho hr.forget, dense hr, ?_⟩
  refine hr.invariant_with (I := fun x => Traced base x.1 x.2)
    (J := fun x => AllOwned x.1 ∧ Dense x.1 x.2.contents)
    (fun x hx => ⟨ho.of_reach hx.forget, dense hx⟩) ht ?_
  rintro ⟨s, h⟩ l ⟨s', h'⟩ ⟨ho, hd⟩ _ ht _ he
  obtain ⟨hs, rfl⟩ := recorded_eq_some.mp he
  exact traced_step hs ho hd ht

omit [DecidableEq ι] [Inhabited V] in
theorem traced_start (g : GapFree V) :
    Traced g.tables (g.start : State ι V) ⟨g.tables, [], []⟩ := by
  refine ⟨fun x => by simp, fun x => ?_⟩
  have hnone : total Finset.univ (fun t => occurrences x t.pending)
      (g.start : State ι V).threads = 0 :=
    total_eq_zero fun _ => by
      simp [GapFree.start, State.at,
        pending_of_creates (creates_settled Reservation.settled_closed)]
  rw [hnone]
  simp only [occurrences_nil, Nat.add_zero]
  by_cases hx : x ∈ g.tables.map TablePtr.id
  · obtain ⟨p, hp, rfl⟩ := List.mem_map.mp hx
    have hlt : p.id < (g.start : State ι V).data.nextTable := g.older p hp
    rw [if_pos hlt]
    exact List.nodup_iff_count_le_one.mp g.distinct p.id
  · have hzero : occurrences x g.tables = 0 := List.count_eq_zero.mpr hx
    omega

omit [DecidableEq ι] [Inhabited V] in
theorem Traced.nodup {base : List (TablePtr V)} {h : History V} (ht : Traced base s h) :
    ((base ++ h.created).map TablePtr.id).Nodup := by
  refine List.nodup_iff_count_le_one.mpr fun x => ?_
  have hf := ht.fresh x
  have hone : (if x < s.data.nextTable then 1 else 0) ≤ 1 := by split <;> omega
  change occurrences x (base ++ h.created) ≤ 1
  rw [occurrences_append]
  omega

omit [DecidableEq ι] [Inhabited V] in
theorem Traced.perm {base : List (TablePtr V)} {h : History V} (ht : Traced base s h) :
    ((h.contents ++ h.dropped).map TablePtr.id).Perm ((base ++ h.created).map TablePtr.id) := by
  refine List.perm_iff_count.mpr fun x => ?_
  change occurrences x (h.contents ++ h.dropped) = occurrences x (base ++ h.created)
  rw [occurrences_append, occurrences_append, ht.balance x]

omit [DecidableEq ι] [Inhabited V] in
theorem Traced.nodup_contents {base : List (TablePtr V)} {h : History V} (ht : Traced base s h) :
    (h.contents.map TablePtr.id).Nodup := by
  have hall := ht.perm.nodup_iff.mpr ht.nodup
  rw [List.map_append] at hall
  exact (List.nodup_append.mp hall).1

omit [DecidableEq ι] [Inhabited V] in
theorem Traced.older {base : List (TablePtr V)} {h : History V} (ht : Traced base s h)
    {p : TablePtr V} (hp : p ∈ h.contents) : p.id < s.data.nextTable := by
  have hpos : 0 < occurrences p.id h.contents :=
    List.count_pos_iff.mpr (List.mem_map_of_mem hp)
  have hb := ht.balance p.id
  have hf := ht.fresh p.id
  by_contra hge
  rw [if_neg hge] at hf
  omega

omit [DecidableEq ι] [Inhabited V] [Fintype ι] in
/-- Handles without a reservation hold no mutex. -/
theorem AllOwned.unlocked (ho : AllOwned s)
    (hq : ∀ i, (s.threads i).pc = .idle ∧ (s.threads i).res.Settled) (k : Nat) :
    s.data.tableLocks k = ⟨none, ∅⟩ := by
  have hwriter : (s.data.tableLocks k).writer = none := by
    cases hw : (s.data.tableLocks k).writer with
    | none => rfl
    | some i =>
      have hheld := ((ho i).writer k).mp hw
      simp [Thread.held, (hq i).1, Pc.held, (hq i).2.1] at hheld
  have hreaders : (s.data.tableLocks k).readers = ∅ := by
    refine Finset.eq_empty_of_forall_notMem fun i hi => ?_
    have hshared := ((ho i).reader k).mp hi
    simp [(hq i).1, Pc.shared] at hshared
  rw [← hwriter, ← hreaders]

omit [DecidableEq ι] [Inhabited V] in
private theorem Counted.balanced (hc : Counted s)
    (hq : ∀ i, (s.threads i).pc = .idle ∧ (s.threads i).res.Settled) :
    s.data.reservedSize = s.data.tableCount := by
  have howes : total Finset.univ Thread.owes s.threads = 0 :=
    total_eq_zero fun i => by
      have hcreates : (s.threads i).creates = 0 := creates_settled (hq i).2
      simp [hcreates, (hq i).1]
  rw [hc.reserved, howes, Nat.add_zero]

/-- Once no reservation is left the object is a container without gaps again. -/
theorem gapFree_of_settled {g : GapFree V} (h : Reach step EmptyStable g.start s)
    (hq : ∀ i, (s.threads i).pc = .idle ∧ (s.threads i).res.Settled) :
    ∃ g' : GapFree V, s.data = g'.data := by
  obtain ⟨r, hr⟩ : ∃ r : History V, Reach (recorded step History.record)
      (fun x l => EmptyStable x.1 l) (g.start, ⟨g.tables, [], []⟩) (s, r) :=
    h.remember _
  obtain ⟨ho, hc, hd, ht⟩ := traced_of_reach (fun _ _ _ hg => hg) (allOwned_start g)
    (counted_start g) (dense_start g) (traced_start g) hr
  obtain ⟨hslots, hcount⟩ := hd.settled ho fun i => by rw [(hq i).1]; rfl
  have hbound : r.contents.length ≤ maximumTableCount := by
    have := hc.bound
    omega
  refine ⟨⟨r.contents, s.data.movedToMap, s.data.nextTable, hbound, ht.nodup_contents,
    fun p hp => ht.older hp⟩, ?_⟩
  have hlocks : s.data.tableLocks = fun _ => (⟨none, ∅⟩ : SharedMutex ι) :=
    funext (ho.unlocked hq)
  rw [GapFree.data, ← funext hslots, ← hlocks, ← hcount]
  nth_rewrite 2 [← hc.balanced hq]
  rfl

def Populated (s : State ι V) (_ : Label ι V) : Prop := s.data.tableCount ≠ 0

instance (s : State ι V) (l : Label ι V) : Decidable (Populated s l) :=
  inferInstanceAs (Decidable (_ ≠ _))

omit [Fintype ι] in
/-- In a container that is never empty no CREATE finds it empty. -/
theorem emptyStable_of_populated {g : GapFree V} {l : Label ι V}
    (h : Reach step Populated g.start s) (hg : Populated s l) : EmptyStable s l := by
  have hall : ∀ i n, (s.threads i).pc ≠ .createTest 0 ∧ (s.threads i).pc ≠ .innerLock n false := by
    intro i n
    refine h.invariant
      (I := fun s => ∀ i, (s.threads i).pc ≠ .createTest 0 ∧ (s.threads i).pc ≠ .innerLock n false)
      (fun _ => by simp [GapFree.start, State.at]) ?_ i
    intro s l s' hp hg he
    refine step_threads (P := fun t => t.pc ≠ .createTest 0 ∧ t.pc ≠ .innerLock n false) he
      (fun _ _ => by simp) (fun i a d' t' _ ha => ?_) hp
    exact ⟨fun hpc => hg (act_createTest ha hpc), fun hpc => hg (act_innerLock ha hpc)⟩
  cases l with
  | move => trivial
  | run i a =>
    simp only [EmptyStable, EmptyAgain]
    split
    · rename_i n hpc
      refine iff_of_false (fun hn => ?_) hg
      exact (hall i 0).1 (hn ▸ hpc)
    · rename_i n hpc
      exact absurd hpc (hall i n).2
    · trivial

/-- A DROP of the first table moves the second one while a CREATE waits for its slot. -/
def dropWhileCreating (i j : ι) : List (Label ι Nat) :=
  calls i (.dropTable 0) 2 ++ calls j .createTable 1 ++ calls i .complete 0 ++
    calls j .complete 2 ++ ticks i 13 ++ ticks j 13

end PStress.Metadata
