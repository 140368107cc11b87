import Mathlib.Data.Fintype.EquivFin
import PStress.Metadata.Dense

/-! Concurrent CREATEs that start on an empty container. All of them are kept as long as emptiness
found is found again; two that find the container empty at the same time share a slot. -/
namespace PStress.Metadata
open Interleaving
variable {ι V : Type}

/-- Every handle was granted a CREATE on an empty container, and none is completed yet. -/
def creators [Fintype ι] (tbl : ι → TablePtr V) : State ι V where
  data := ⟨fun _ => none, fun _ => ⟨none, ∅⟩, fun _ => npos, 0, Fintype.card ι, Fintype.card ι⟩
  threads i := ⟨⟨true, some (tbl i), false, npos, none⟩, .idle⟩

def Label.completes : Label ι V → Bool
  | .run _ .complete | .run _ .tick => true
  | _ => false

def Pc.creating : Pc V → Bool
  | .idle | .createRead | .createTest _ | .outerLock _ | .outerLoad _ | .outerTest _
  | .outerRetry _ | .innerLock .. | .innerStore .. | .innerCount .. | .innerUnlock ..
  | .outerUnlock _ | .undefined _ => true
  | _ => false

def Thread.placed (t : Thread V) : Option Nat :=
  match t.pc with
  | .innerCount n _ => some n
  | _ => if t.res.index = npos then none else some t.res.index

/-- A handle that completes a CREATE of table `p`. -/
structure Creator (p : TablePtr V) (cs : List (TablePtr V)) (t : Thread V) : Prop where
  storage : t.res.storage = true
  drop : t.res.drop = false
  lock : t.res.lock = none
  table : t.res.table = some p
  creating : t.pc.creating = true
  placed : ∀ k, t.placed = some k → cs[k]? = some p

theorem Creator.mono {p : TablePtr V} {cs e : List (TablePtr V)} {t : Thread V}
    (h : Creator p cs t) (hc : cs <+: e) : Creator p e t := by
  refine ⟨h.storage, h.drop, h.lock, h.table, h.creating, fun k hk => ?_⟩
  obtain ⟨rest, rfl⟩ := hc
  have hentry := h.placed k hk
  rw [List.getElem?_append_left (List.getElem?_eq_some_iff.mp hentry).1]
  exact hentry

section Steps
variable [DecidableEq ι] [Inhabited V] {i : ι} {d d' : InternalData ι V} {cs : List (TablePtr V)}
  {t t' : Thread V} {a : Act V} {p : TablePtr V}

/-- A completing CREATE only appends to the list of tables, and finds its own table in it. -/
private theorem creator_tick (h : tick i d t.res t.pc = some (d', t')) (ho : PcOk d t.res t.pc)
    (hp : InPlace d cs t) (hc : Creator p cs t) :
    Creator p (change t .tick cs) t' ∧ cs <+: change t .tick cs ∧
      d'.reservedSize = d.reservedSize := by
  obtain ⟨⟨storage, table, drop, index, lock⟩, pc⟩ := t
  obtain ⟨hs, hd, hl, ht, hcr, hpl⟩ := hc
  simp only at hs hd hl ht
  subst hs hd hl ht
  have hf := hp.facts
  cases pc with
  | innerStore n o =>
    cases h
    have hlen : cs.length = n := hf.2.2
    refine ⟨⟨rfl, rfl, rfl, rfl, rfl, fun k hk => ?_⟩, List.prefix_append _ _, rfl⟩
    obtain rfl : n = k := Option.some.inj hk
    simp [change, ← hlen]
  | innerCount n o =>
    cases h
    have hn : n ≠ npos := (ho.2.1.trans maximumTableCount_lt_npos).ne
    refine ⟨⟨rfl, rfl, rfl, rfl, rfl, fun k hk => hpl k ?_⟩, List.prefix_rfl, rfl⟩
    simpa [Thread.placed, hn] using hk
  | idle | createRead | createTest | outerLock | outerLoad | outerTest | outerRetry | innerLock
  | innerUnlock | outerUnlock =>
    simp only [tick] at h
    (repeat' split at h) <;> cases h <;>
      exact ⟨⟨rfl, rfl, rfl, rfl, rfl, hpl⟩, List.prefix_rfl, rfl⟩
  | undefined => cases h
  | _ => cases hcr

private theorem creator_complete (h : act i .complete d t = some (d', t')) (hc : Creator p cs t) :
    Creator p cs t' ∧ d' = d := by
  obtain ⟨⟨storage, table, drop, index, lock⟩, pc⟩ := t
  obtain ⟨hs, hd, hl, ht, hcr, hpl⟩ := hc
  simp only at hs hd hl ht
  subst hs hd hl ht
  obtain ⟨⟨⟩, _⟩ | ⟨rfl, hcall⟩ := act_eq_some h
  simp only [call] at hcall
  split at hcall <;> cases hcall
  rename_i ho
  have hi : index = npos := by simpa [Reservation.isOpen] using ho
  subst hi
  exact ⟨⟨rfl, rfl, rfl, rfl, rfl, hpl⟩, rfl⟩

end Steps

section Runs
variable [DecidableEq ι] [Inhabited V] [Fintype ι] {tbl : ι → TablePtr V} {s s' : State ι V}
  {cs : List (TablePtr V)}

omit [DecidableEq ι] [Inhabited V] [Fintype ι] in
private theorem creating_open (p : TablePtr V) :
    (⟨true, some p, false, npos, none⟩ : Reservation V).Creating := ⟨rfl, rfl, rfl, rfl, rfl⟩

omit [DecidableEq ι] [Inhabited V] in
private theorem allOwned_creators (tbl : ι → TablePtr V) : AllOwned (creators tbl) := fun i =>
  ⟨by simp [creators, Thread.held, Pc.held], by simp [creators, Thread.held, Pc.held],
    by simp [creators, Pc.shared], .inr (.inl (creating_open (tbl i)))⟩

omit [DecidableEq ι] [Inhabited V] in
private theorem counted_creators (tbl : ι → TablePtr V) (hn : Fintype.card ι ≤ maximumTableCount) :
    Counted (creators tbl) := by
  have hcreates (i : ι) : ((creators tbl).threads i).creates = 1 :=
    creates_creating (creating_open (tbl i))
  have hone : total Finset.univ Thread.creates (creators tbl).threads = Fintype.card ι := by
    simp [total, hcreates]
  have howes : total Finset.univ Thread.owes (creators tbl).threads = Fintype.card ι := by
    rw [← hone]
    exact Finset.sum_congr rfl fun i _ => by simp [creators]
  refine ⟨?_, ?_, ?_⟩
  · rw [howes]
    exact (Nat.zero_add _).symm
  · rw [State.openCreates, hone]
    exact (Nat.zero_add _).trans_le hn
  · rw [show (creators tbl).data.occupied = 0 from total_eq_zero fun _ => rfl,
      show total Finset.univ Thread.removing (creators tbl).threads = 0 from
        total_eq_zero fun _ => rfl]
    exact Nat.zero_le _

omit [DecidableEq ι] [Inhabited V] in
private theorem dense_creators (tbl : ι → TablePtr V) : Dense (creators tbl) [] :=
  ⟨fun _ _ => ⟨rfl, .rfl, id⟩, fun i => ⟨by simp [creators, Thread.held, Pc.held], trivial⟩⟩

/-- All handles create, and nothing is reserved or given back. -/
structure AllCreate (tbl : ι → TablePtr V) (s : State ι V) (cs : List (TablePtr V)) : Prop where
  creator : ∀ i, Creator (tbl i) cs (s.threads i)
  size : s.data.reservedSize = Fintype.card ι

private theorem allCreate_step {l : Label ι V} (h : step s l = some s') (hl : l.completes = true)
    (ho : AllOwned s) (hd : Dense s cs) (ha : AllCreate tbl s cs) :
    AllCreate tbl s' (listed s l cs) := by
  cases l with
  | move => cases hl
  | run i a =>
    obtain ⟨d', t', hact, rfl⟩ := step_run.mp h
    obtain ⟨hown, hc, hsize⟩ : Creator (tbl i) (change (s.threads i) a cs) t' ∧
        cs <+: change (s.threads i) a cs ∧ d'.reservedSize = s.data.reservedSize := by
      cases a with
      | tick =>
        obtain ⟨_, ht⟩ | ⟨_, hc⟩ := act_eq_some hact
        · exact creator_tick ht (ho i).ok (hd.inPlace i) (ha.creator i)
        · cases hc
      | complete =>
        obtain ⟨hcr, rfl⟩ := creator_complete hact (ha.creator i)
        exact ⟨hcr, List.prefix_rfl, rfl⟩
      | _ => cases hl
    refine ⟨fun j => ?_, hsize.trans ha.size⟩
    by_cases hj : j = i
    · subst hj
      simpa [listed] using hown
    · simpa [listed, hj] using (ha.creator j).mono hc

private theorem allCreate_of_reach (hn : Fintype.card ι ≤ maximumTableCount)
    (h : Reach (recorded step listed) (fun x l => l.completes = true ∧ EmptyStable x.1 l)
      (creators tbl, []) (s, cs)) :
    Counted s ∧ AllOwned s ∧ Dense s cs ∧ AllCreate tbl s cs := by
  have known (x : State ι V × List (TablePtr V))
      (hx : Reach (recorded step listed) (fun x l => l.completes = true ∧ EmptyStable x.1 l)
        (creators tbl, []) x) : AllOwned x.1 ∧ Dense x.1 x.2 :=
    ⟨(allOwned_creators tbl).of_reach hx.unrecorded,
      (dense_creators tbl).of_reach (allOwned_creators tbl) (counted_creators tbl hn)
        (hx.weaken fun _ _ _ hg => hg.2)⟩
  obtain ⟨ho, hd⟩ := known (s, cs) h
  refine ⟨(counted_creators tbl hn).of_reach (allOwned_creators tbl) h.unrecorded, ho, hd, ?_⟩
  refine h.invariant_with (I := fun x => AllCreate tbl x.1 x.2) known
    ⟨fun i => ⟨rfl, rfl, rfl, rfl, rfl, fun k hk => by cases hk⟩, rfl⟩ ?_
  rintro ⟨s, cs⟩ l ⟨s', cs'⟩ ⟨ho, hd⟩ _ ha hg he
  obtain ⟨hs, rfl⟩ := recorded_eq_some.mp he
  exact allCreate_step hs hg.1 ho hd ha

/-- The operation in progress on a handle, if there was one, has returned. -/
def Thread.returned (t : Thread V) : Bool :=
  match t.pc with
  | .idle => !t.res.isOpen
  | _ => false

omit [Inhabited V] in
private theorem Thread.returned_iff {t : Thread V} :
    t.returned = true ↔ t.pc = .idle ∧ t.res.isOpen = false := by
  simp only [returned]
  split <;> simp_all

/-- All tables are kept: each is in the slot its reservation names, and the slots hold nothing
else. -/
theorem creates_all_kept (hid : Function.Injective tbl) (hn : Fintype.card ι ≤ maximumTableCount)
    (h : Reach step (fun s l => l.completes = true ∧ EmptyStable s l) (creators tbl) s)
    (hdone : ∀ i, (s.threads i).returned = true) :
    s.data.tableCount = Fintype.card ι ∧
      (∀ i, s.data.tables (s.threads i).res.index = some (tbl i)) ∧
      (∀ k < Fintype.card ι, ∃! i, (s.threads i).res.index = k) ∧
      ∀ k, Fintype.card ι ≤ k → s.data.tables k = none := by
  obtain ⟨cs, hr⟩ : ∃ cs, Reach (recorded step listed)
      (fun x l => l.completes = true ∧ EmptyStable x.1 l) (creators tbl, []) (s, cs) :=
    h.remember []
  obtain ⟨hc, ho, hd, ha⟩ := allCreate_of_reach hn hr
  have hpc (i : ι) : (s.threads i).pc = .idle := (Thread.returned_iff.mp (hdone i)).1
  have hindex (i : ι) : (s.threads i).res.index ≠ npos := by
    simpa [Reservation.isOpen, (ha.creator i).storage, (ha.creator i).lock] using
      (Thread.returned_iff.mp (hdone i)).2
  have hentry (i : ι) : cs[(s.threads i).res.index]? = some (tbl i) :=
    (ha.creator i).placed _ (by simp [Thread.placed, hpc i, hindex i])
  obtain ⟨hslots, hlen⟩ := hd.settled ho fun i => by rw [hpc i]; rfl
  have howes : total Finset.univ Thread.owes s.threads = 0 :=
    total_eq_zero fun i => by simp [hpc i, Thread.creates, hindex i]
  have hcount : s.data.tableCount = Fintype.card ι := by
    have := hc.reserved
    rw [howes, ha.size] at this
    exact this.symm
  refine ⟨hcount, fun i => (hslots _).trans (hentry i), fun k hk => ?_, fun k hk => ?_⟩
  · have hlt (i : ι) : (s.threads i).res.index < Fintype.card ι := by
      rw [← hcount, hlen]
      exact (List.getElem?_eq_some_iff.mp (hentry i)).1
    have hinj : Function.Injective fun i => (⟨_, hlt i⟩ : Fin (Fintype.card ι)) := by
      intro i j hij
      have hij : (s.threads i).res.index = (s.threads j).res.index := congrArg Fin.val hij
      refine hid (Option.some.inj ?_)
      rw [← hentry i, ← hentry j, hij]
    have hbij := (Fintype.bijective_iff_injective_and_card _).mpr ⟨hinj, (Fintype.card_fin _).symm⟩
    obtain ⟨i, hi⟩ := hbij.2 ⟨k, hk⟩
    refine ⟨i, congrArg Fin.val hi, fun j hj => hinj (Fin.ext ?_)⟩
    exact hj.trans (congrArg Fin.val hi).symm
  · rw [hslots]
    exact List.getElem?_eq_none (by omega)

end Runs

section Grants
variable [Inhabited V] {n : Nat}

/-- The empty container after the first `k` of `n` handles were granted a CREATE. -/
def granted (n k : Nat) : State (Fin n) V where
  data := ⟨fun _ => none, fun _ => ⟨none, ∅⟩, fun _ => npos, 0, k, k⟩
  threads i := if i < k then ⟨⟨true, some ⟨i, default⟩, false, npos, none⟩, .idle⟩
    else ⟨.closed, .idle⟩

/-- The open CREATEs a run starts with are what `createTable` returns on an empty container. -/
private theorem creators_reachable (hn : n ≤ maximumTableCount) :
    Reach step always GapFree.empty.start
      (creators fun i : Fin n => (⟨i, default⟩ : TablePtr V)) := by
  have grants (k : Nat) (hk : k ≤ n) :
      Reach step always GapFree.empty.start (granted n k : State (Fin n) V) := by
    induction k with
    | zero =>
      have hzero : (granted n 0 : State (Fin n) V) = GapFree.empty.start := by
        simp [granted, GapFree.start, State.at, GapFree.data, GapFree.empty]
      exact hzero ▸ .start
    | succ k ih =>
      have hlt : k < maximumTableCount := by omega
      have hclosed : (Reservation.closed : Reservation V).isOpen = false := rfl
      have hcall : step (granted n k : State (Fin n) V) (.run ⟨k, hk⟩ .createTable) =
          some ⟨(granted n k).data, Function.update (granted n k).threads ⟨k, hk⟩
            ⟨.closed, .reserve⟩⟩ := by
        simp [step, act, call, granted, hclosed, hlt]
      have htick : step (⟨(granted n k).data, Function.update (granted n k).threads ⟨k, hk⟩
            ⟨.closed, .reserve⟩⟩ : State (Fin n) V) (.run ⟨k, hk⟩ .tick) =
          some (granted n (k + 1)) := by
        have hroom : ¬ maximumTableCount < k + 1 := by omega
        have hthreads : Function.update (Function.update (granted n k : State (Fin n) V).threads
            ⟨k, hk⟩ ⟨.closed, .reserve⟩) ⟨k, hk⟩
              ⟨⟨true, some ⟨k, default⟩, false, npos, none⟩, .idle⟩ =
            (granted n (k + 1)).threads := by
          funext i
          simp only [Function.update_apply, granted, Fin.ext_iff]
          split
          · simp [*]
          · simp [show i.val < k + 1 ↔ i.val < k by omega]
        simp only [step, act, tick, Function.update_self]
        rw [if_neg (by simpa [granted] using hroom)]
        simp only [Option.map_some, granted] at hthreads ⊢
        rw [hthreads]
        rfl
      exact ((ih (by omega)).next _ trivial hcall).next _ trivial htick
  have hall : (granted n n : State (Fin n) V) =
      creators fun i : Fin n => (⟨i, default⟩ : TablePtr V) := by
    simp [granted, creators]
  exact hall ▸ grants n le_rfl

end Grants

def two : State (Fin 2) Nat := creators fun i => ⟨i, 0⟩

/-- The second CREATE begins while the first one holds the first slot. -/
def overlapping (i j : ι) : List (Label ι Nat) :=
  calls i .complete 5 ++ calls j .complete 2 ++ ticks i 1 ++ ticks j 8

theorem creates_all_kept_overlapping : ∃ s : State (Fin 2) Nat,
    execute step (fun s l => l.completes = true ∧ EmptyStable s l) (overlapping 0 1) two = some s ∧
      s.data.tableCount = 2 ∧ ∀ i, s.data.tables (s.threads i).res.index = some ⟨i, 0⟩ := by
  obtain ⟨s, he, hs⟩ := Option.map_eq_some_iff.mp
    (show (execute step (fun s l => l.completes = true ∧ EmptyStable s l) (overlapping 0 1)
      two).map (fun s => decide (∀ i, (s.threads i).returned = true)) = some true by
        decide +kernel)
  have hid : Function.Injective fun i : Fin 2 => (⟨i, 0⟩ : TablePtr Nat) := by
    intro i j hij
    exact Fin.ext (congrArg TablePtr.id hij)
  obtain ⟨hcount, hkept, _⟩ := creates_all_kept hid (by decide) (reach_of_execute _ he)
    (of_decide_eq_true hs)
  exact ⟨s, he, hcount, hkept⟩

/-- Both CREATEs find the container empty, and both take the first slot. -/
def simultaneous (i j : ι) : List (Label ι Nat) :=
  calls i .complete 2 ++ calls j .complete 2 ++ ticks i 4 ++ ticks j 4

/-- The first table is lost, and the size counts a slot that is empty. -/
theorem create_lost : ¬ ∀ s : State (Fin 2) Nat,
    Reach step (fun _ l => l.completes = true) two s →
      (∀ i, (s.threads i).returned = true) →
        ∀ i, s.data.tables (s.threads i).res.index = some ⟨i, 0⟩ := by
  intro h
  obtain ⟨s, he, hs⟩ := Option.map_eq_some_iff.mp
    (show (execute step (fun _ l => l.completes = true) (simultaneous 0 1) two).map (fun s =>
      (decide (∀ i, (s.threads i).returned = true), s.data.tables (s.threads 0).res.index)) =
        some (true, some ⟨1, 0⟩) by decide +kernel)
  obtain ⟨hdone, htable⟩ := Prod.mk.inj hs
  have hkept := h s (reach_of_execute _ he) (of_decide_eq_true hdone) 0
  rw [htable] at hkept
  exact absurd hkept (by decide)

end PStress.Metadata
