import PStress.Actions.AtRest
import PStress.Actions.Bounds
import PStress.Actions.Grips
import PStress.Metadata.Progress

/-! Workers do not block each other for good. A reservation is only open while its worker has a
request to make, and every request is served at once or begins an operation; an operation that has
to wait for a slot leads, from one owner to the next, to a worker that can go on. -/
namespace PStress.Actions
open Interaction Interleaving Metadata Program
variable {ι : Type}

namespace Grip

/-- The grips an operation in progress may end with. -/
def Ends (t : Thread Table) (g : Grip) : Prop :=
  match t.pc with
  | .idle | .lookupLock _ | .lookupLoad _ | .lookupUnlock _ => g = of t.res
  | .reserve => g = refused ∨ g = held false
  | .acquire drop _ | .load drop _ => g = refused ∨ g = held drop
  | .unreserve | .abandon _ => g = refused
  | _ => g.isOpen = false

variable {d d' : InternalData ι Table} {r : Reservation Table} {t' : Thread Table} {pc : Pc Table}
  {g : Grip}

theorem of_open {drop : Bool} (ho : r.isOpen = true) (hd : r.drop = drop) : of r = held drop := by
  simp [of, ho, hd]

theorem of_settled (h : r.Settled) : (of r).isOpen = false := by rw [of_isOpen, h.not_open]

private theorem table_none (h : of r = refused) : r.table = none := by
  unfold of at h
  cases ho : r.isOpen with
  | true => simp [ho] at h
  | false =>
    cases ht : r.table with
    | none => rfl
    | some p => simp [ho, ht] at h

/-- A step of an operation only narrows down how it may end. -/
theorem tick_ends [DecidableEq ι] {i : ι} (h : tick i d r pc = some (d', t')) (ho : PcOk d r pc)
    (he : Ends t' g) : Ends ⟨r, pc⟩ g := by
  cases pc with
  | idle | undefined => cases h
  | reserve =>
    simp only [tick] at h
    split at h <;> cases h
    · exact .inl he
    · exact .inr he
  | unreserve | abandon =>
    cases h
    exact he
  | load b k =>
    simp only [tick] at h
    split at h <;> cases h
    · exact .inl he
    · exact .inr he
  | lookupLock =>
    simp only [tick] at h
    split at h <;> cases h
    exact he
  | lookupLoad | lookupUnlock =>
    cases h
    exact he
  | alterUnlock | dropUnlock =>
    cases h
    obtain rfl := he
    exact of_settled ⟨rfl, .inr ho.1.index_ne⟩
  | moveRelease | outerUnlock =>
    cases h
    obtain rfl := he
    exact of_settled ho.1
  | innerUnlock n o =>
    cases h
    cases o
    · obtain rfl := he
      exact of_settled ho.1
    · exact he
  | _ =>
    simp only [tick] at h
    (repeat' split at h) <;> cases h <;> exact he

/-- A request leaves the action in its session, whatever the operation it begins ends with. -/
theorem serve_kept {x : Input} {q : Request} {k : q.Answer → Execution Unit}
    {ans : Option q.Answer} (h : serve x d r q = some (d', t', ans)) (hr : Resting d r)
    (hk : Kept (of r) (.ask q k)) (he : Ends t' g) : Kept g (resume q k ans) := by
  obtain ⟨hmay, hnext⟩ := hk
  cases q with
  | size | index =>
    cases h
    exact hnext _ g he
  | isOpen =>
    cases h
    exact hnext _ g ⟨(of_isOpen r).symm, he⟩
  | table =>
    cases h
    refine hnext _ g ⟨fun hrefused => ?_, he⟩
    rw [table_none hrefused, Option.map_none]
  | createTable =>
    obtain ⟨y, hy, hans⟩ := Option.map_eq_some_iff.mp h
    cases hans
    obtain ⟨d', t'⟩ := y
    cases called_of_call hy hr with
    | reserve => exact hnext () g he
    | refuse => exact hnext () g (.inl he)
  | alterTable idx | dropTable idx =>
    obtain ⟨y, hy, hans⟩ := Option.map_eq_some_iff.mp h
    cases hans
    obtain ⟨d', t'⟩ := y
    cases called_of_call hy hr
    exact hnext () g he
  | lookup idx =>
    obtain ⟨y, hy, hans⟩ := Option.map_eq_some_iff.mp h
    cases hans
    obtain ⟨d', t'⟩ := y
    cases called_of_call hy hr
    obtain rfl := he
    exact ⟨hmay, hnext⟩
  | write t =>
    obtain ⟨y, hy, hans⟩ := Option.map_eq_some_iff.mp h
    cases hans
    obtain ⟨d', t'⟩ := y
    have hedit : of (r.edit fun _ => t) = of r := by
      have hheld : of r = held false := hmay
      cases called_of_call hy hr with
      | editCreate _ hc =>
        have hc' : (r.edit fun _ => t).Creating := by simpa [Reservation.Creating] using hc
        exact (of_open hc'.isOpen hc'.2.1).trans hheld.symm
      | editAlter _ hb _ =>
        have hb' : (r.edit fun _ => t).Holding false := by simpa [Reservation.Holding] using hb
        exact (of_open hb'.isOpen hb'.2.1).trans hheld.symm
    cases called_of_call hy hr <;> exact hnext () g (he.trans hedit)
  | complete =>
    obtain ⟨y, hy, hans⟩ := Option.map_eq_some_iff.mp h
    cases hans
    obtain ⟨d', t'⟩ := y
    cases called_of_call hy hr <;> exact hnext () g he
  | random type min max =>
    simp only [serve] at h
    (repeat' split at h) <;> cases h
    exact hnext _ g ⟨by assumption, he⟩
  | real | executeQuery =>
    simp only [serve] at h
    (repeat' split at h) <;> cases h
    exact hnext _ g he

/-- The answer of a lookup keeps the action in its session. -/
theorem deliver_kept {p : Execution Unit} (hk : Kept g p) : Kept g (deliver d pc p) := by
  unfold deliver
  split
  · rename_i q k
    cases q with
    | lookup idx => exact hk.2 _ g rfl
    | _ => exact hk
  · exact hk

end Grip

def Gripped (s : State ι) : Prop :=
  ∀ i g, Grip.Ends (s.metadata.threads i) g → Grip.Kept g (s.workers i).program

section Runs
variable [DecidableEq ι] {guard : State ι → Label ι → Prop} {s s' : State ι} {l : Label ι} {i : ι}
  {g₀ : GapFree Table}

theorem Gripped.set {d : InternalData ι Table} {t : Thread Table} {w : Worker} (h : Gripped s)
    (hk : ∀ g, Grip.Ends t g → Grip.Kept g w.program) : Gripped (s.set i d t w) := by
  intro j
  by_cases hj : j = i
  · simpa [State.set, hj] using hk
  · simpa [State.set, hj] using h j

private theorem gripped_step (h : step s l = some s') (ho : AllOwned s.metadata)
    (hr : ∀ i, AtRest s i → (s.metadata.threads i).res.Settled) (hs : Gripped s) : Gripped s' := by
  cases l with
  | begin i a n =>
    obtain ⟨hidle, hfinished, rfl⟩ := step_begin h
    refine hs.set fun g hg => ?_
    rw [Grip.Ends, hidle] at hg
    obtain rfl := hg
    exact Grip.kept_execute a (Grip.of_settled (hr i ⟨hidle, hfinished⟩)) n
  | go i x =>
    obtain ⟨r, q, k, d', t', ans, hi, hp, hserve, rfl⟩ := step_go h
    have hresting : Resting s.metadata.data r := by
      have hok := (ho i).ok
      rwa [hi] at hok
    have hkept : Grip.Kept (.of r) (.ask q k) := by
      have hk := hs i (.of r) (by rw [hi]; rfl)
      rwa [hp] at hk
    exact hs.set fun g => Grip.serve_kept hserve hresting hkept
  | tick i =>
    obtain ⟨d', t', ht, rfl⟩ := step_tick h
    exact hs.set fun g hg => Grip.deliver_kept (hs i g (Grip.tick_ends ht (ho i).ok hg))

private theorem gripped_of_reach (h : Reach step guard (.at g₀.data) s) : Gripped s := by
  refine h.invariant_with (I := Gripped)
    (J := fun s => AllOwned s.metadata ∧ ∀ i, AtRest s i → (s.metadata.threads i).res.Settled)
    (fun s hs => ⟨allOwned_of_reach hs, fun i hi => hi.settled hs⟩) ?_
    fun _ _ _ hinv _ hs _ he => gripped_step he hinv.1 hinv.2 hs
  rintro i _ rfl
  rfl

end Runs

section Requests

def Request.InArrays : Request → Prop
  | .alterTable idx | .dropTable idx | .lookup idx => idx < maximumTableCount
  | _ => True

def inArrays : Contract where
  stored _ := True
  draws _ _ := True
  counts := inRange.counts
  asks _ q := q.InArrays

private theorem inArrays_lenient (a : Option Action) : inArrays.Lenient a where
  plain q hq := by
    cases q with
    | random | alterTable | dropTable | lookup => cases hq
    | _ => trivial
  ordered _ := trivial
  index hn hv := by
    have hin := (inRange_lenient none).index hn hv
    simpa [inRange, inArrays, Request.InRange, Request.InArrays] using hin

private theorem inArrays_kept (a : Action) (n : Nat) :
    inArrays.Kept (some a) .closed (a.execute n) := by
  have hl := inArrays_lenient (some a)
  cases a with
  | createTable config => exact Contract.kept_create hl trivial (fun _ _ _ _ _ _ _ => trivial) n
  | dropTable config => exact Contract.kept_drop hl n
  | alterTable config commands => exact Contract.kept_alter hl trivial (fun _ _ _ _ => trivial) n
  | insertData table rows => exact Contract.kept_insert hl n
  | deleteData config => exact Contract.kept_delete hl trivial n
  | updateOneRow => exact Contract.kept_update hl n
  | customSql c => exact Contract.kept_custom hl n

theorem exists_drawn (min max : Int) : ∃ v, Drawn min max v := by
  by_cases hle : narrow min ≤ narrow max
  · refine ⟨narrow min, ?_, fun _ => ⟨le_rfl, hle⟩⟩
    have hl := Int.le_bmod (x := min) (m := 4294967296) (by omega)
    have hu := Int.bmod_lt (x := min) (m := 4294967296) (by omega)
    simp only [IsInt, narrow]
    omega
  · exact ⟨0, ⟨by omega, by omega⟩, fun hc => absurd hc hle⟩

private theorem serve_enabled {d : InternalData ι Table} {r : Reservation Table} {q : Request}
    (hmay : Grip.session.may (.of r) q) (hin : q.InArrays) : ∃ x, (serve x d r q).isSome := by
  have closed (hc : (Grip.of r).isOpen = false) : r.isOpen = false := Grip.of_isOpen r ▸ hc
  cases q with
  | size | isOpen | table | index => exact ⟨.none, rfl⟩
  | createTable =>
    refine ⟨.none, ?_⟩
    simp only [serve, call, closed hmay, Bool.false_eq_true, if_false, Option.isSome_map]
    split <;> rfl
  | alterTable idx | dropTable idx =>
    have hlt : idx < maximumTableCount := hin
    exact ⟨.none, by simp [serve, call, closed hmay, hlt]⟩
  | lookup idx =>
    have hlt : idx < maximumTableCount := hin
    exact ⟨.none, by simp [serve, call, hlt]⟩
  | write t =>
    have hheld : Grip.of r = .held false := hmay
    have ho : r.isOpen = true := by rw [← Grip.of_isOpen, hheld]; rfl
    have hd : r.drop = false := by simpa [Grip.of, ho] using hheld
    exact ⟨.none, by simp [serve, call, ho, hd]⟩
  | complete =>
    have ho : r.isOpen = true := (Grip.of_isOpen r).symm.trans hmay
    exact ⟨.none, by simp [serve, call, ho]⟩
  | random type min max =>
    obtain ⟨v, hv⟩ := exists_drawn min max
    exact ⟨.drawn v, by simp [serve, hv]⟩
  | real => exact ⟨.real 1000000, rfl⟩
  | executeQuery sql => exact ⟨.sql .threw, rfl⟩

end Requests

section Guard
variable [DecidableEq ι]

/-- A DROP that is about to go for the last slot does not find its own slot there. -/
def DropsUpwards (s : State ι) : Label ι → Prop
  | .tick i => Upwards s.metadata.data (s.metadata.threads i) .tick
  | .begin .. | .go .. => True

instance (s : State ι) : (l : Label ι) → Decidable (DropsUpwards s l)
  | .tick i => inferInstanceAs (Decidable (Upwards s.metadata.data (s.metadata.threads i) .tick))
  | .begin .. | .go .. => inferInstanceAs (Decidable True)

/-- The guard of the runs: indices are picked in a container that is not empty, emptiness found is
found again, and no DROP goes for its own slot. -/
structure Unhindered (s : State ι) (l : Label ι) : Prop where
  bound : BoundNonEmpty s l
  stable : StablyEmpty s l
  upwards : DropsUpwards s l

instance (s : State ι) (l : Label ι) : Decidable (Unhindered s l) :=
  decidable_of_iff (BoundNonEmpty s l ∧ StablyEmpty s l ∧ DropsUpwards s l)
    ⟨fun h => ⟨h.1, h.2.1, h.2.2⟩, fun h => ⟨h.bound, h.stable, h.upwards⟩⟩

end Guard

section Waiting
variable [DecidableEq ι] {s : State ι} {i : ι} {g : GapFree Table}

/-- Actions look tables up only while they have nothing reserved, so all that matters is where a
DROP goes. -/
private theorem locksUpwards_operation {l : Label ι} (hs : Gripped s) (ho : AllOwned s.metadata)
    (h : Unhindered s l) : ∀ o ∈ s.operation l, LocksUpwards s.metadata o := by
  intro o hmem
  have hstable := h.stable o hmem
  cases l with
  | begin => cases hmem
  | tick i =>
    cases hmem
    exact ⟨hstable, h.upwards⟩
  | go i x =>
    obtain ⟨q, hq, hact⟩ := Option.bind_eq_some_iff.mp hmem
    obtain ⟨a, ha, rfl⟩ := Option.map_eq_some_iff.mp hact
    refine ⟨hstable, ?_⟩
    cases q with
    | lookup idx =>
      cases ha
      cases hidle : (s.metadata.threads i).pc with
      | idle =>
        obtain ⟨k, hk⟩ := head_eq_some hq
        have hkept := hs i (.of (s.metadata.threads i).res) (by rw [Grip.Ends, hidle])
        rw [hk] at hkept
        have hclosed : (Grip.of (s.metadata.threads i).res).isOpen = false := hkept.1
        rw [Grip.of_isOpen] at hclosed
        have hok := (ho i).ok
        rw [hidle] at hok
        simp [Upwards, hidle, (Resting.settled hok hclosed).1]
      | _ => simp [Upwards, hidle]
    | createTable | alterTable | dropTable | write | complete =>
      cases ha
      trivial
    | _ => cases ha

/-- The worker can make its next request, or its operation can take a step. -/
def CanGoOn (s : State ι) (i : ι) : Prop :=
  (∃ x, (step s (.go i x)).isSome) ∨ (step s (.tick i)).isSome

private theorem go_enabled (hs : Gripped s) (hin : inArrays.Holds s)
    (hidle : (s.metadata.threads i).pc = .idle) {q : Request}
    (hq : (s.workers i).program.head = some q) : CanGoOn s i := by
  obtain ⟨k, hk⟩ := head_eq_some hq
  have hkept := hs i (.of (s.metadata.threads i).res) (by rw [Grip.Ends, hidle])
  rw [hk] at hkept
  obtain ⟨x, hx⟩ := serve_enabled (d := s.metadata.data) hkept.1 (hin.asks hq)
  have hthread : s.metadata.threads i = ⟨(s.metadata.threads i).res, .idle⟩ := by rw [← hidle]
  refine .inl ⟨x, ?_⟩
  rw [step, hthread]
  simpa [hk, advance] using hx

private theorem tick_none (h : ¬ CanGoOn s i) : Metadata.step s.metadata (.run i .tick) = none := by
  have hnone : step s (.tick i) = none := by
    rw [← Option.not_isSome_iff_eq_none]
    exact fun hc => h (.inr hc)
  simpa [step, Metadata.step, act] using hnone

private theorem inArrays_of_reach [Fintype ι] (h : Reach step Unhindered (.at g.data) s) :
    inArrays.Holds s := by
  refine Contract.holds_of_reach (fun _ _ => trivial) (fun s l hr hl => ⟨?_, ?_, ?_⟩) h
  · rintro i a n rfl
    exact inArrays_kept a n
  · rintro i x use rfl hp
    have hbound := ((counted_start g).of_reach (allOwned_start g) (reach_metadata hr)).bound
    refine ⟨by omega, ?_⟩
    rintro rfl
    exact hl.bound hp
  · intros
    trivial

/-- What keeps workers from blocking each other. -/
structure Unblocked (s : State ι) : Prop where
  gripped : Gripped s
  inArrays : inArrays.Holds s
  owned : AllOwned s.metadata
  dense : ∃ cs, Dense s.metadata cs
  acyclic : ∀ i, ¬ Deadlocked s.metadata.Wants s.metadata.Owns i
  settled : ∀ i, AtRest s i → (s.metadata.threads i).res.Settled

theorem unblocked_of_reach [Fintype ι] (h : Reach step Unhindered (.at g.data) s) :
    Unblocked s := by
  have hlocks : Reach Metadata.step LocksUpwards g.start s.metadata :=
    reach_operations (fun _ _ hl => hl) (h.weaken fun s l hr hl =>
      locksUpwards_operation (gripped_of_reach hr) (allOwned_of_reach hr) hl)
  exact ⟨gripped_of_reach h, inArrays_of_reach h, allOwned_of_reach h,
    dense_of_reach (hlocks.weaken fun _ _ _ hg => hg.1),
    not_deadlocked_of_ordered fun _ _ _ => owned_lt_wanted hlocks, fun i hi => hi.settled h⟩

namespace Unblocked
variable (h : Unblocked s) (hrun : ∀ j e, (s.workers j).program = .stop e → e = .thrown)
include h hrun

private theorem requests (hidle : (s.metadata.threads i).pc = .idle) (hi : ¬ AtRest s i) :
    CanGoOn s i := by
  cases hp : (s.workers i).program with
  | done => exact absurd ⟨hidle, by rw [hp]; rfl⟩ hi
  | stop e =>
    obtain rfl := hrun i e hp
    exact absurd ⟨hidle, by rw [hp]; rfl⟩ hi
  | ask q k => exact go_enabled h.gripped h.inArrays hidle (by rw [hp, head])

/-- From owner to owner, a worker that has to wait leads to one that can go on. -/
theorem leads [Finite ι] (hi : ¬ AtRest s i) :
    ∃ j, Relation.ReflTransGen (WaitsFor s.metadata.Wants s.metadata.Owns) i j ∧ CanGoOn s j := by
  obtain ⟨cs, hd⟩ := h.dense
  by_cases hcan : CanGoOn s i
  · exact ⟨i, .refl, hcan⟩
  have hbusy : (s.metadata.threads i).pc ≠ .idle := fun hidle => hcan (h.requests hrun hidle hi)
  obtain ⟨j, hj, hchain⟩ := waits_for_unblocked
    (p := fun j => (s.metadata.threads j).pc ≠ .idle ∧ ¬ CanGoOn s j) h.acyclic
    (fun j hj => waits_of_stuck h.owned hd hj.1 (tick_none hj.2)) ⟨hbusy, hcan⟩
  refine ⟨j, hchain.to_reflTransGen, ?_⟩
  by_cases hidle : (s.metadata.threads j).pc = .idle
  · obtain ⟨b, hb⟩ := holding_of_waited h.owned hchain hidle
    exact h.requests hrun hidle fun hrest => (h.settled j hrest).not_holding hb
  · by_cases hgo : CanGoOn s j
    · exact hgo
    · exact absurd ⟨hidle, hgo⟩ hj

end Unblocked

/-- Workers never block each other for good: each one that is in the middle of an action can go on,
or waits, directly or through others, for one that can. -/
theorem workers_never_stuck [Fintype ι] (h : Reach step Unhindered (.at g.data) s)
    (hrun : ∀ j e, (s.workers j).program = .stop e → e = .thrown) (hi : ¬ AtRest s i) :
    ∃ j, Relation.ReflTransGen (WaitsFor s.metadata.Wants s.metadata.Owns) i j ∧ CanGoOn s j :=
  (unblocked_of_reach h).leads hrun hi

end Waiting

/-- One worker has reserved the last table to drop it, and another one, with the first table
dropped on the server, waits for the slot of the last. -/
def dropsBehind (i j : ι) : List (Label ι) :=
  let begin (i : ι) (v : Int) : List (Label ι) :=
    [.begin i (.dropTable { min_table_count := 0 }) 0, .go i .none, .go i .none, .go i (.drawn v),
      .go i .none, .tick i, .tick i]
  begin j 1 ++ begin i 0 ++ [.go i .none, .go i .none, .go i (.sql (.returned .success)),
    .go i .none, .go i .none, .tick i, .tick i]

theorem workers_never_stuck_drop : ∃ s : State (Fin 2),
    execute step Unhindered (dropsBehind 0 1) (.at twoTables.data) = some s ∧
      (s.metadata.threads 0).pc = .lastLock 1 ∧ step s (.tick 0) = none ∧
      ∃ j, Relation.ReflTransGen (WaitsFor s.metadata.Wants s.metadata.Owns) 0 j ∧
        CanGoOn s j := by
  obtain ⟨s, he, hs⟩ := Option.map_eq_some_iff.mp
    (show (execute step Unhindered (dropsBehind 0 1) (.at twoTables.data)).map
      (fun (s : State (Fin 2)) =>
      ((s.metadata.threads 0).pc, (step s (.tick 0)).isNone,
        decide (∀ j, (s.workers j).program.head.isSome = true))) = some (.lastLock 1, true, true) by
        decide +kernel)
  obtain ⟨hpc, hs⟩ := Prod.mk.inj hs
  obtain ⟨hnone, hasks⟩ := Prod.mk.inj hs
  refine ⟨s, he, hpc, Option.isNone_iff_eq_none.mp hnone,
    workers_never_stuck (reach_of_execute _ he) (fun j e hp => ?_) fun hrest => ?_⟩
  · have hask := of_decide_eq_true hasks j
    rw [hp] at hask
    cases hask
  · rw [hrest.idle] at hpc
    cases hpc

end PStress.Actions
