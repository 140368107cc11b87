import PStress.Interleaving.Reach
import PStress.Metadata.Ledger
import PStress.Metadata.Ownership

/-! The two counters in a run. `reservedSize` accounts for the stored tables, the open CREATEs and
every handle caught between its updates; `tableCount` never falls below the number of tables. -/
namespace PStress.Metadata
open Interleaving
variable {ι V : Type}

def State.openCreates [Fintype ι] (s : State ι V) : Nat :=
  total Finset.univ Thread.creates s.threads

structure Counted [Fintype ι] (s : State ι V) : Prop where
  reserved : s.data.reservedSize = s.data.tableCount + total Finset.univ Thread.owes s.threads
  bound : s.data.tableCount + s.openCreates ≤ maximumTableCount
  slots : s.data.occupied + total Finset.univ Thread.removing s.threads ≤
    s.data.tableCount + total Finset.univ Thread.unaccounted s.threads

def Pc.inserting : Pc V → Bool
  | .innerStore .. | .innerCount .. => true
  | _ => false

/-- The slot an unaccounted thread stands for. -/
def Pc.unaccountedSlot : Pc V → Nat
  | .innerCount k _ | .moveUnlock k | .moveCount k | .moveReserved k | .moveClear k => k
  | _ => 0

private theorem unaccountedSlot_spec {d : InternalData ι V} {t : Thread V} (ho : PcOk d t.res t.pc)
    (h : t.unaccounted = 1) :
    t.pc.unaccountedSlot ∈ t.held ∧ t.pc.unaccountedSlot < maximumTableCount ∧
      filled (d.tables t.pc.unaccountedSlot) = 1 := by
  obtain ⟨r, pc⟩ := t
  cases pc with
  | innerCount k o =>
    exact ⟨by simp [Thread.held, Pc.held, Pc.unaccountedSlot], ho.2.1,
      by simp [Pc.unaccountedSlot, filled, ho.2.2.1, ho.1.2.2.2.2]⟩
  | moveUnlock k =>
    exact ⟨by simp [Thread.held, Pc.held, Pc.unaccountedSlot], ho.2.1,
      by simp [Pc.unaccountedSlot, filled, ho.2.2.2]⟩
  | moveCount k | moveReserved k | moveClear k =>
    exact ⟨by simp [Thread.held, Pc.held, Pc.unaccountedSlot], ho.2.1,
      by simp [Pc.unaccountedSlot, filled, ho.2.2]⟩
  | _ => simp at h

/-- Unaccounted slots are filled and belong to different handles. -/
private theorem unaccounted_le [Fintype ι] {s : State ι V} (ho : AllOwned s) :
    total Finset.univ Thread.unaccounted s.threads ≤ s.data.occupied := by
  refine total_le_total (fun i => (s.threads i).pc.unaccountedSlot) ?_ ?_ ?_
  · intro i
    simp only [Thread.unaccounted]
    split <;> omega
  · intro i hi
    obtain ⟨_, hk, hf⟩ := unaccountedSlot_spec (ho i).ok hi
    exact ⟨Finset.mem_range.mpr hk, hf.ge⟩
  · intro i j hi hj he
    have wi := ((ho i).writer _).mpr (unaccountedSlot_spec (ho i).ok hi).1
    have wj := ((ho j).writer _).mpr (unaccountedSlot_spec (ho j).ok hj).1
    rw [he, wj] at wi
    exact (Option.some.inj wi).symm

private theorem inserting_creates {d : InternalData ι V} {t : Thread V} (ho : PcOk d t.res t.pc)
    (h : t.pc.inserting = true) : t.creates = 1 := by
  obtain ⟨r, pc⟩ := t
  cases pc with
  | innerStore | innerCount => exact creates_creating ho.1
  | _ => cases h

variable [DecidableEq ι] [Inhabited V]

def Ledger.record (s : State ι V) (l : Label ι V) (b : Ledger) : Ledger :=
  match l with
  | .run i a => (act i a s.data (s.threads i)).elim b fun x => b.note (s.threads i) a x.2
  | .move _ _ => b

section Runs
variable [Fintype ι] {s s' : State ι V}

omit [DecidableEq ι] [Inhabited V] in
private theorem creates_le_owes (ts : ι → Thread V) :
    total Finset.univ Thread.creates ts ≤ total Finset.univ Thread.owes ts :=
  Finset.sum_le_sum fun i _ => by simp only [Thread.owes]; omega

omit [Inhabited V] in
/-- A move changes no count: settled handles count nothing. -/
theorem move_counts [Inhabited V] {i j : ι} (h : step s (.move i j) = some s')
    (ho : AllOwned s) : s'.data.tableCount = s.data.tableCount ∧
      s'.data.reservedSize = s.data.reservedSize ∧ s'.data.occupied = s.data.occupied ∧
      ∀ w : Thread V → Nat, (∀ r : Reservation V, r.Settled → w ⟨r, .idle⟩ = 0) →
        total Finset.univ w s'.threads = total Finset.univ w s.threads := by
  obtain ⟨r, r', hi, hj, hij, hr, hr', rfl⟩ := step_move h
  have hset : r'.Settled := by
    have hok := (ho j).ok
    rw [hj] at hok
    exact hok.settled hr'
  obtain ⟨hcount, hsize, _⟩ := handOver_counts s.data r.lock j
  refine ⟨hcount, hsize, by simp [InternalData.occupied, handOver_tables], fun w hw => ?_⟩
  have heq : w ⟨r.movedFrom, .idle⟩ = w (s.threads j) := by
    rw [hj, hw _ hset, hw _ (Reservation.settled_movedFrom r)]
  exact hi ▸ total_transfer w s.threads (Finset.mem_univ i) (Finset.mem_univ j) hij heq

omit [DecidableEq ι] [Inhabited V] in
private theorem removing_le (ho : AllOwned s) (hc : Counted s) (i : ι) :
    (s.threads i).removing ≤ s.data.tableCount := by
  have hrem := le_total Thread.removing s.threads (Finset.mem_univ i)
  have hun := unaccounted_le ho
  have hslots := hc.slots
  omega

private theorem counted_act {i : ι} {a : Act V} {d' : InternalData ι V} {t' : Thread V}
    (ho : AllOwned s) (hc : Counted s) (h : act i a s.data (s.threads i) = some (d', t')) :
    Balanced s.data d' (s.threads i) t' := by
  have howes := le_total Thread.owes s.threads (Finset.mem_univ i)
  have hres := hc.reserved
  exact act_balanced h (ho i).ok (by omega) (removing_le ho hc i)

private theorem counted_step {l : Label ι V} (h : step s l = some s') (ho : AllOwned s)
    (hc : Counted s) :
    Counted s' := by
  cases l with
  | run i a =>
    obtain ⟨d', t', ha, rfl⟩ := step_run.mp h
    have upd (w : Thread V → Nat) := total_update w s.threads (Finset.mem_univ i) t'
    have hb := counted_act ho hc ha
    have hres := hc.reserved
    have hbound := hc.bound
    have hslots := hc.slots
    have u₁ := upd Thread.owes
    have u₂ := upd Thread.creates
    have u₃ := upd Thread.removing
    have u₄ := upd Thread.unaccounted
    have hle := creates_le_owes (Function.update s.threads i t')
    have b₁ := hb.reserved
    have b₂ := hb.bound
    have b₃ := hb.slots
    simp only [State.openCreates] at hbound
    refine ⟨?_, ?_, ?_⟩ <;> simp only [State.openCreates] <;> omega
  | move i j =>
    obtain ⟨hcount, hsize, hocc, htot⟩ := move_counts h ho
    refine ⟨?_, ?_, ?_⟩
    · rw [hcount, hsize, htot Thread.owes fun r hr => by simp [creates_settled hr]]
      exact hc.reserved
    · rw [State.openCreates, hcount, htot Thread.creates fun r hr => creates_settled hr]
      exact hc.bound
    · rw [hocc, hcount, htot Thread.removing fun _ _ => rfl,
        htot Thread.unaccounted fun _ _ => rfl]
      exact hc.slots

omit [Fintype ι] [DecidableEq ι] [Inhabited V] in
private theorem occupied_data_le (g : GapFree V) :
    (g.data : InternalData ι V).occupied ≤ g.tables.length := by
  calc (g.data : InternalData ι V).occupied
      ≤ total (Finset.range g.tables.length) (fun _ : Nat => 1) id := by
        refine total_le_total id (fun k => ?_) (fun k hk => ?_) (fun _ _ _ _ h => h)
        · simp only [filled]
          split <;> omega
        · have hlen : k < g.tables.length := by simpa [GapFree.data, filled] using hk
          exact ⟨Finset.mem_range.mpr hlen, le_rfl⟩
    _ = g.tables.length := by simp [total]

omit [DecidableEq ι] [Inhabited V] in
theorem counted_start (g : GapFree V) : Counted (g.start : State ι V) := by
  have none_yet (w : Thread V → Nat) (h : w ⟨.closed, .idle⟩ = 0) :
      total Finset.univ w (g.start : State ι V).threads = 0 := total_eq_zero fun _ => h
  have hc : Thread.creates (V := V) ⟨.closed, .idle⟩ = 0 :=
    creates_settled Reservation.settled_closed
  have hcount : (g.start : State ι V).data.tableCount = g.tables.length := rfl
  have hsize : (g.start : State ι V).data.reservedSize = g.tables.length := rfl
  refine ⟨?_, ?_, ?_⟩
  · rw [none_yet _ (by simp [hc]), hsize, hcount, Nat.add_zero]
  · rw [State.openCreates, none_yet _ hc, hcount, Nat.add_zero]
    exact g.fits
  · rw [none_yet Thread.removing rfl, none_yet Thread.unaccounted rfl, hcount, Nat.add_zero,
      Nat.add_zero]
    exact occupied_data_le g

variable {g : GapFree V} {guard : State ι V → Label ι V → Prop}

omit [Fintype ι] in
theorem AllOwned.of_reach {s₀ : State ι V} (h₀ : AllOwned s₀) (h : Reach step guard s₀ s) :
    AllOwned s :=
  h.invariant h₀ fun _ _ _ ho _ he => allOwned_step he ho

theorem Counted.of_reach {s₀ : State ι V} (h₀ : Counted s₀) (ho : AllOwned s₀)
    (h : Reach step guard s₀ s) : Counted s :=
  h.invariant_with (fun _ hr => ho.of_reach hr) h₀ fun _ _ _ ho _ hc _ he => counted_step he ho hc

/-- The ledger accounts for the open CREATEs and for the tables, up to what the handles in the
middle of `complete()` have yet to do. -/
structure Reckoned (g : GapFree V) (s : State ι V) (b : Ledger) : Prop where
  granted : s.openCreates + b.created + b.cancelled =
    b.granted + total Finset.univ Thread.storing s.threads
  stored : s.data.tableCount + b.dropped + total Finset.univ Thread.storing s.threads =
    g.tables.length + b.created + total Finset.univ Thread.leaving s.threads

private theorem reckoned_step {l : Label ι V} {b : Ledger} (h : step s l = some s')
    (ho : AllOwned s) (hc : Counted s) (hl : Reckoned g s b) :
    Reckoned g s' (Ledger.record s l b) := by
  obtain ⟨hgranted, hstored⟩ := hl
  cases l with
  | run i a =>
    obtain ⟨d', t', ha, rfl⟩ := step_run.mp h
    have upd (w : Thread V → Nat) := total_update w s.threads (Finset.mem_univ i) t'
    obtain ⟨b₁, b₂⟩ := act_settles b ha (ho i).ok (removing_le ho hc i)
    have u₁ := upd Thread.creates
    have u₂ := upd Thread.storing
    have u₃ := upd Thread.leaving
    simp only [State.openCreates] at hgranted
    constructor <;> simp only [State.openCreates, Ledger.record, ha, Option.elim_some] <;> omega
  | move i j =>
    obtain ⟨hcount, _, _, htot⟩ := move_counts h ho
    constructor
    · rw [State.openCreates, htot Thread.creates fun r hr => creates_settled hr,
        htot Thread.storing fun _ _ => rfl]
      exact hgranted
    · rw [hcount, htot Thread.storing fun _ _ => rfl, htot Thread.leaving fun _ _ => rfl]
      exact hstored

private theorem reckoned_of_reach {b : Ledger}
    (h : Reach (recorded step Ledger.record) always (g.start, ⟨0, 0, 0, 0⟩) (s, b)) :
    Reckoned g s b := by
  have known (x : State ι V × Ledger)
      (hx : Reach (recorded step Ledger.record) always (g.start, ⟨0, 0, 0, 0⟩) x) :
      AllOwned x.1 ∧ Counted x.1 :=
    ⟨(allOwned_start g).of_reach hx.unrecorded,
      (counted_start g).of_reach (allOwned_start g) hx.unrecorded⟩
  refine h.invariant_with (I := fun x => Reckoned g x.1 x.2) known ?_ ?_
  · have none_yet (w : Thread V → Nat) (h : w ⟨.closed, .idle⟩ = 0) :
        total Finset.univ w (g.start : State ι V).threads = 0 := total_eq_zero fun _ => h
    constructor
    · simp only [State.openCreates, none_yet Thread.storing rfl,
        none_yet Thread.creates (creates_settled Reservation.settled_closed)]
    · simp only [none_yet Thread.storing rfl, none_yet Thread.leaving rfl]
      rfl
  · rintro ⟨s, b⟩ l ⟨s', b'⟩ ⟨ho, hc⟩ _ hi _ he
    obtain ⟨hs, rfl⟩ := recorded_eq_some.mp he
    exact reckoned_step hs ho hc hi

omit [DecidableEq ι] [Inhabited V] in
private theorem leaving_eq_zero {t : Thread V} (h : t.pc.completing = false) : t.leaving = 0 := by
  obtain ⟨r, pc⟩ := t
  cases pc <;> first | rfl | cases h

/-- Capacity is never granted twice: the places granted fit into the container at every moment, and
the counter accounts for them exactly when nothing is in progress. While no handle is in the middle
of `complete()`, each granted CREATE is open, completed or cancelled, and each completed CREATE and
DROP has changed the number of tables by one; so each cancelled CREATE and each completed DROP gives
one place back. -/
theorem capacity_not_overgranted {b : Ledger}
    (h : Reach (recorded step Ledger.record) always (g.start, ⟨0, 0, 0, 0⟩) (s, b)) :
    s.data.tableCount + s.openCreates ≤ maximumTableCount ∧
      s.data.tableCount + s.openCreates ≤ s.data.reservedSize ∧
      (s.Quiet → s.data.reservedSize = s.data.tableCount + s.openCreates) ∧
      (∀ i, (s.threads i).pc.inserting → s.data.tableCount < maximumTableCount) ∧
      ((∀ i, (s.threads i).pc.completing = false) →
        s.openCreates + b.created + b.cancelled = b.granted ∧
          s.data.tableCount + b.dropped = g.tables.length + b.created) ∧
      (s.Quiet → s.data.reservedSize + b.cancelled + b.dropped =
        g.tables.length + b.granted) := by
  have hr : Reach step always g.start s := h.unrecorded
  have ho := (allOwned_start g).of_reach hr
  have hc := (counted_start g).of_reach (allOwned_start g) hr
  have hquiet (hq : s.Quiet) : s.data.reservedSize = s.data.tableCount + s.openCreates := by
    have howes : total Finset.univ Thread.owes s.threads = s.openCreates :=
      Finset.sum_congr rfl fun i _ => by simp [hq i]
    rw [hc.reserved, howes]
  have hledger (hq : ∀ i, (s.threads i).pc.completing = false) :
      s.openCreates + b.created + b.cancelled = b.granted ∧
        s.data.tableCount + b.dropped = g.tables.length + b.created := by
    obtain ⟨hgranted, hstored⟩ := reckoned_of_reach h
    have hstoring : total Finset.univ Thread.storing s.threads = 0 :=
      total_eq_zero fun i => by simp [hq i]
    have hleaving : total Finset.univ Thread.leaving s.threads = 0 :=
      total_eq_zero fun i => leaving_eq_zero (hq i)
    omega
  refine ⟨hc.bound, ?_, hquiet, fun i hi => ?_, hledger, fun hq => ?_⟩
  · have hle := creates_le_owes s.threads
    have hres := hc.reserved
    simp only [State.openCreates]
    omega
  · have hone := inserting_creates (ho i).ok hi
    have hle := le_total Thread.creates s.threads (Finset.mem_univ i)
    have hbound := hc.bound
    simp only [State.openCreates] at hbound
    omega
  · obtain ⟨hgranted, hstored⟩ := hledger fun i => by rw [hq i]; rfl
    have hsize := hquiet hq
    omega

end Runs

def nearlyFull : GapFree Unit where
  tables := (List.range 199).map fun k => ⟨k, ()⟩
  movedToMap _ := npos
  nextTable := 199
  fits := by simp [maximumTableCount]
  distinct := by simp [Function.comp_def, List.nodup_range]
  older := by simp

/-- Two callers race for it, both pass the first test, and the second one gives up. The first one
inserts its table and drops another one; the place it leaves is granted again and given back. -/
def race (i j : ι) : List (Label ι Unit) :=
  [.run i .createTable, .run j .createTable] ++ ticks i 1 ++ ticks j 2 ++ calls i .complete 10 ++
    calls j .createTable 0 ++ calls i (.dropTable 0) 2 ++ calls i .complete 13 ++
    calls j .createTable 1 ++ calls j .cancel 0

theorem capacity_not_overgranted_race : ∃ (s : State (Fin 2) Unit) (b : Ledger),
    execute (recorded step Ledger.record) always (race 0 1) (nearlyFull.start, ⟨0, 0, 0, 0⟩) =
      some (s, b) ∧
      b = ⟨2, 1, 1, 1⟩ ∧ s.data.tableCount = 199 ∧ s.data.reservedSize = 199 := by
  obtain ⟨⟨s, b⟩, he, hs⟩ := Option.map_eq_some_iff.mp
    (show (execute (recorded step Ledger.record) always (race (0 : Fin 2) 1)
      (nearlyFull.start, ⟨0, 0, 0, 0⟩)).map (fun x =>
        (decide (∀ i, (x.1.threads i).pc = .idle), x.2)) = some (true, ⟨2, 1, 1, 1⟩) by
      decide +kernel)
  obtain ⟨hq, rfl⟩ : decide (∀ i, (s.threads i).pc = .idle) = true ∧ b = ⟨2, 1, 1, 1⟩ := by
    simpa using hs
  have hquiet : ∀ i, (s.threads i).pc = .idle := of_decide_eq_true hq
  obtain ⟨_, _, _, _, hledger, hsize⟩ := capacity_not_overgranted (reach_of_execute _ he)
  have hlen : nearlyFull.tables.length = 199 := by simp [nearlyFull]
  obtain ⟨_, hcount⟩ := hledger fun i => by rw [hquiet i]; rfl
  have hsize := hsize hquiet
  simp only [hlen] at hcount hsize
  exact ⟨s, _, he, rfl, by omega, by omega⟩

end PStress.Metadata
