import PStress.Actions.Bounds
import PStress.Actions.Termination
import PStress.Metadata.Refinement

/-! The loops that select a random table. An index is drawn below the size, so a slot is only found
empty if a table was removed in the meantime: a loop goes around once more at most for each. -/
namespace PStress.Actions
open Interaction Interleaving Metadata Program
variable {ι : Type} {α β : Type}

/-- How many tables were removed since an action was begun, and the size it has read last, with the
number of tables removed until then. -/
structure Search where
  removed : Nat
  read : Option (Nat × Nat)

namespace Search

def answered (s : Search) : (q : Request) → q.Answer → Search → Prop
  | .size use, n, s' =>
    s.removed ≤ s'.removed ∧ s'.read = some (n, s'.removed) ∧ inRange.counts use n
  | .lookup idx, p, s' => s.removed ≤ s'.removed ∧ s'.read = s.read ∧
    (p = none → ∀ n m, s.read = some (n, m) → idx < n → m < s'.removed)
  | .random _ min max, v, s' => Drawn min max v ∧ s' = s
  | .createTable, _, s' | .alterTable _, _, s' | .dropTable _, _, s' | .isOpen, _, s'
  | .table, _, s' | .index, _, s' | .write _, _, s' | .complete, _, s' | .real, _, s'
  | .executeQuery _, _, s' => s' = s

def session : Session Request Request.Answer Search where
  may _ _ := True
  next s q r s' := s.answered q r s'

def Kept (attempts : Nat) (s : Search) (p : Execution α) : Prop :=
  Keeps session (fun _ _ => True) (fun e s => e = .unfinished → attempts ≤ s.removed) s p

variable {attempts : Nat} {s : Search}

private theorem Kept.later {p : Execution α} (h : Kept attempts s p) {m : Nat}
    (hm : s.removed ≤ m) :
    Kept attempts { s with removed := m } p := by
  induction p generalizing s m with
  | done => trivial
  | stop e => exact fun he => (h he).trans hm
  | ask q k ih =>
    refine ⟨trivial, fun r s' hn => ?_⟩
    cases q with
    | size | lookup => exact h.2 r s' ⟨hm.trans hn.1, hn.2⟩
    | random =>
      obtain ⟨hv, rfl⟩ := hn
      exact ih r (h.2 r s ⟨hv, rfl⟩) hm
    | _ =>
      obtain rfl : s' = { s with removed := m } := hn
      exact ih r (h.2 r s rfl) hm

/-- The program gives up only then, whatever it has read before. -/
def Persists (attempts : Nat) (p : Execution α) : Prop := ∀ s, Kept attempts s p

namespace Persists

theorem done (a : α) : Persists attempts (.done a) := fun _ => trivial

theorem stop {e : Halt} (he : e ≠ .unfinished) : Persists attempts (.stop e : Execution α) :=
  fun _ h => absurd h he

theorem perform (q : Request) : Persists attempts (perform q) :=
  fun _ => keeps_request.mpr ⟨trivial, fun _ _ _ => trivial⟩

theorem bind {p : Execution α} {f : α → Execution β} (h : Persists attempts p)
    (hf : ∀ a, Persists attempts (f a)) : Persists attempts (p >>= f) :=
  fun s => keeps_bind.mpr ((h s).mono (fun a s' _ => hf a s') fun _ _ => id)

theorem deref (o : Option α) : Persists attempts (deref o) := by
  cases o with
  | none => exact stop (by decide)
  | some a => exact done a

theorem complete : Persists attempts complete :=
  (perform .isOpen).bind fun b => by
    cases b
    · exact stop (by decide)
    · exact perform .complete

theorem destroy : Persists attempts destroy :=
  (perform .isOpen).bind fun b => by
    cases b
    · exact done ()
    · exact complete

theorem executeQuery (sql : String) : Persists attempts (executeQuery sql) :=
  (perform (.executeQuery sql)).bind fun r => by
    rcases r with (_ | _ | _) | _
    · exact done ()
    · exact stop (by decide)
    · exact stop (by decide)
    · exact stop (by decide)

theorem randomSize (min max : Nat) : Persists attempts (randomSize min max) :=
  (perform _).bind fun _ => done _

theorem draws {P : α → Prop} {p : Execution α} (h : Draws (fun _ _ => True) P p) :
    Persists attempts p := by
  intro s
  have htolerates : Tolerates (fun _ _ => True) session s := by
    refine ⟨fun _ _ => trivial, fun q r s' hq hn => ?_⟩
    cases q with
    | random => exact ⟨hn.2, hn.1, trivial⟩
    | real => exact ⟨hn, trivial⟩
    | _ => cases hq
  refine (h.keeps htolerates).mono (fun _ _ _ => trivial) ?_
  rintro _ _ ⟨rfl, _⟩ he
  cases he

theorem reserving {q : Request} {func : Execution Unit} (hf : Persists attempts func) :
    Persists attempts (reserving (Actions.perform q >>= fun _ => .done ()) func) := by
  refine ((perform q).bind fun _ => done ()).bind fun _ s => ?_
  refine keeps_ensuring.mpr ((hf.bind fun _ => perform .index) s |>.mono ?_ ?_)
  · exact fun _ s' _ => (destroy s').mono (fun _ _ _ => trivial) fun _ _ => id
  · intro e s' he
    split
    · rename_i hunwinds
      refine (destroy s').mono (fun _ _ _ hx => ?_) fun _ _ => id
      rw [hx] at hunwinds
      cases hunwinds
    · exact he

theorem foldlM {κ : Type} {body : α → κ → Execution α}
    (hb : ∀ x c, Persists attempts (body x c))
    (l : List κ) (x : α) : Persists attempts (l.foldlM body x) := fun _ =>
  (keeps_foldlM (I := fun _ _ => True) (fun x c s _ => hb x c s) l trivial).mono
    (fun _ _ => id) fun _ _ => id

/-- Each time a slot is found empty a table was removed since the size was read. -/
theorem selectTable : Persists attempts (selectTable attempts) := by
  suffices h : ∀ k s, attempts ≤ s.removed + k → Kept attempts s (Actions.selectTable k) from
    fun s => h attempts s (by omega)
  intro k
  induction k with
  | zero => exact fun s hs _ => hs
  | succ k ih =>
    intro s hs
    refine ⟨trivial, fun n s₁ hn => ⟨trivial, fun v s₂ hv => ⟨trivial, fun p s₃ hp => ?_⟩⟩⟩
    obtain ⟨hs₁, hread, hle, hne⟩ := hn
    obtain ⟨hv, rfl⟩ := hv
    obtain ⟨hs₃, _, hnone⟩ := hp
    cases p with
    | some t => trivial
    | none =>
      have hpos : 0 < n := Nat.pos_of_ne_zero (hne rfl)
      have hmax : maximumTableCount = 200 := rfl
      rw [decrement_of_pos hpos] at hv
      obtain ⟨_, hidx⟩ := hv.toSize_between (by omega) (Nat.zero_le _)
      have hless := hnone rfl n s₂.removed hread ((Nat.le_sub_one_iff_lt hpos).mp hidx)
      exact ih s₃ (by omega)

/-- Every action gives up only after as many tables as it was given attempts were removed. -/
theorem execute (a : Action) : Persists attempts (a.execute attempts) := by
  have picks {p : Nat → Execution Unit} (hp : ∀ n, Persists attempts (p n)) :
      Persists attempts (size .guard >>= p) := (perform _).bind hp
  cases a with
  | createTable config =>
    refine picks fun n => ?_
    split
    · exact done ()
    · refine (reserving (q := .createTable) ?_).bind fun _ => done ()
      refine (perform .table).bind fun p => (deref p).bind fun table => ?_
      refine (perform _).bind fun number => (randomSize _ _).bind fun n => ?_
      refine (draws (draws_randomColumns n table.columns)).bind fun columns => ?_
      exact (perform _).bind fun _ => (executeQuery _).bind fun _ => complete
  | dropTable config =>
    refine picks fun n => ?_
    split
    · exact done ()
    · refine (perform _).bind fun n => (randomSize _ _).bind fun idx => ?_
      refine ((reserving (q := .dropTable idx) ?_).bind fun _ => done _).bind fun _ => done ()
      refine (perform .isOpen).bind fun b => ?_
      cases b with
      | false => exact done ()
      | true =>
        exact (perform .table).bind fun p => (deref p).bind fun table =>
          (executeQuery _).bind fun _ => complete
  | alterTable config commands =>
    refine (perform _).bind fun n => (randomSize _ _).bind fun idx => ?_
    refine ((reserving (q := .alterTable idx) ?_).bind fun _ => done _).bind fun _ => done ()
    refine (perform .isOpen).bind fun b => ?_
    cases b with
    | false => exact done ()
    | true =>
      refine (perform .table).bind fun p => (deref p).bind fun table => ?_
      refine (randomSize _ _).bind fun n => ?_
      refine (draws (draws_subcommands config _ table.columns n)).bind fun st => ?_
      refine (perform _).bind fun _ => (perform .table).bind fun p => ?_
      exact (deref p).bind fun table => (executeQuery _).bind fun _ => complete
  | insertData table rows =>
    refine picks fun n => ?_
    split
    · exact done ()
    · have send (t : Table) : Persists attempts
          (InsertData.statement t rows >>= Actions.executeQuery) :=
        (draws (draws_insert t rows)).bind executeQuery
      cases table with
      | some t => exact send t
      | none => exact selectTable.bind send
  | deleteData config =>
    refine picks fun n => ?_
    split
    · exact done ()
    · refine selectTable.bind fun t => (deref _).bind fun col => ?_
      exact (randomSize _ _).bind fun rows => executeQuery _
  | updateOneRow =>
    refine picks fun n => ?_
    split
    · exact done ()
    · refine selectTable.bind fun t => (deref _).bind fun col => ?_
      exact (draws (draws_assignments _ _)).bind fun sql => executeQuery _
  | customSql c =>
    refine (foldlM (fun text inject => ?_) c.injectParameters c.sqlStatement).bind executeQuery
    refine Persists.bind ?_ fun replacement => done _
    unfold CustomSql.doInject
    split
    · exact selectTable.bind fun t => done _
    · exact stop (by decide)

end Persists
end Search

/-- The attempts an action was given, and the number of tables removed since it was begun. -/
structure Tries where
  attempts : Nat
  removed : Nat
  deriving DecidableEq

def takesOff : Pc Table → Nat
  | .dropCount | .moveCount _ => 1
  | _ => 0

def Tries.record [DecidableEq ι] (s : State ι) (l : Label ι) (t : ι → Tries) : ι → Tries :=
  match l with
  | .begin i _ attempts => Function.update t i ⟨attempts, 0⟩
  | .go .. => t
  | .tick i => fun j =>
    { t j with removed := (t j).removed + takesOff (s.metadata.threads i).pc }

/-- The size that was read is still there, but for what was removed since. -/
def Sees (tableCount removed : Nat) (read : Option (Nat × Nat)) : Prop :=
  ∀ n m, read = some (n, m) → n + m ≤ tableCount + removed

def Persisting (s : State ι) (t : ι → Tries) : Prop :=
  ∀ i, ∃ read, Sees s.metadata.data.tableCount (t i).removed read ∧
    Search.Kept (t i).attempts ⟨(t i).removed, read⟩ (s.workers i).program

section Steps
variable {d d' : InternalData ι Table} {r : Reservation Table} {pc : Pc Table} {t' : Thread Table}
  {read : Option (Nat × Nat)} {attempts m : Nat}

theorem Sees.mono {n n' m' : Nat} (h : Sees n m read) (hle : n + m ≤ n' + m') : Sees n' m' read :=
  fun a b hab => (h a b hab).trans hle

private theorem tick_takesOff [DecidableEq ι] {i : ι} (h : tick i d r pc = some (d', t')) :
    d.tableCount ≤ d'.tableCount + takesOff pc := by
  cases pc with
  | dropCount | moveCount =>
    cases h
    simp only [takesOff, InternalData.setTableCount_tableCount]
    obtain hzero | hpos := Nat.eq_zero_or_pos d.tableCount
    · omega
    · rw [decrement_of_pos hpos]
      omega
  | innerCount =>
    cases h
    simp only [takesOff, InternalData.setTableCount_tableCount]
    omega
  | _ =>
    simp only [tick] at h
    (repeat' split at h) <;> cases h <;> exact Nat.le_refl _

/-- A request leaves the size alone, and what it is answered is as it should be. -/
private theorem serve_search {x : Input} {q : Request} {k : q.Answer → Execution Unit}
    {ans : Option q.Answer} (h : serve x d r q = some (d', t', ans))
    (hcount : ∀ use, q = .size use → inRange.counts use d.tableCount)
    (hsees : Sees d.tableCount m read)
    (hk : Search.Kept attempts ⟨m, read⟩ (.ask q k)) :
    d'.tableCount = d.tableCount ∧ ∃ read', Sees d.tableCount m read' ∧
      Search.Kept attempts ⟨m, read'⟩ (resume q k ans) := by
  have hsame : d'.tableCount = d.tableCount := by
    obtain ⟨rfl, _⟩ | ⟨a, hc⟩ := serve_cases h
    · rfl
    · exact (call_pays hc 0).1
  refine ⟨hsame, ?_⟩
  cases q with
  | size use =>
    cases h
    refine ⟨some (d.tableCount, m), ?_, hk.2 _ _ ⟨Nat.le_refl m, rfl, hcount use rfl⟩⟩
    rintro _ _ ⟨rfl, rfl⟩
    exact Nat.le_refl _
  | lookup idx =>
    obtain ⟨y, _, hans⟩ := Option.map_eq_some_iff.mp h
    cases hans
    exact ⟨read, hsees, hk⟩
  | random type min max =>
    simp only [serve] at h
    (repeat' split at h) <;> cases h
    exact ⟨read, hsees, hk.2 _ _ ⟨by assumption, rfl⟩⟩
  | createTable | alterTable | dropTable | write | complete =>
    obtain ⟨y, _, hans⟩ := Option.map_eq_some_iff.mp h
    cases hans
    exact ⟨read, hsees, hk.2 _ _ rfl⟩
  | isOpen | table | index =>
    cases h
    exact ⟨read, hsees, hk.2 _ _ rfl⟩
  | real | executeQuery =>
    simp only [serve] at h
    (repeat' split at h) <;> cases h
    exact ⟨read, hsees, hk.2 _ _ rfl⟩

end Steps

section Runs
variable [DecidableEq ι] {s s' : State ι} {l : Label ι} {t : ι → Tries} {g : GapFree Table}

private theorem persisting_step (h : step s l = some s') (hb : BoundNonEmpty s l)
    (hmax : s.metadata.data.tableCount ≤ maximumTableCount) (hs : Searches s)
    (hempty : ∀ i k, (s.metadata.threads i).pc = .lookupLoad k →
      s.metadata.data.tables k = none → s.metadata.data.tableCount ≤ k)
    (hp : Persisting s t) : Persisting s' (Tries.record s l t) := by
  intro j
  cases l with
  | begin i a n =>
    obtain ⟨_, _, rfl⟩ := step_begin h
    by_cases hj : j = i
    · subst hj
      refine ⟨none, fun _ _ hc => (by cases hc), ?_⟩
      simpa [Tries.record, State.set] using Search.Persists.execute a _
    · simpa [Tries.record, State.set, hj] using hp j
  | go i x =>
    obtain ⟨r, q, k, d', t', ans, _, hask, hserve, rfl⟩ := step_go h
    obtain ⟨read, hsees, hk⟩ := hp i
    rw [hask] at hk
    have hcount (use : SizeUse) (hq : q = .size use) :
        inRange.counts use s.metadata.data.tableCount := by
      refine ⟨hmax, ?_⟩
      rintro rfl
      exact hb (by rw [hask, head, hq])
    obtain ⟨hsame, hown⟩ := serve_search hserve hcount hsees hk
    by_cases hj : j = i
    · subst hj
      simpa [Tries.record, State.set, hsame] using hown
    · simpa [Tries.record, State.set, hj, hsame] using hp j
  | tick i =>
    obtain ⟨d', t', ht, rfl⟩ := step_tick h
    have hcount := tick_takesOff ht
    obtain ⟨read, hsees, hk⟩ := hp j
    refine ⟨read, hsees.mono ?_, ?_⟩
    · simp only [State.set, Tries.record]
      omega
    · by_cases hj : j = i
      · subst hj
        obtain ⟨k, hpc, _⟩ | ⟨hsame, _⟩ := tick_searching ht
        · obtain ⟨f, hf⟩ := head_eq_some (hs j k (by rw [hpc]; rfl))
          rw [hf] at hk
          simp only [State.set, Tries.record, Function.update_self, hf, hpc, takesOff]
          rw [deliver_lookup]
          refine hk.2 _ _ ⟨Nat.le_refl _, rfl, fun hnone n m hread hlt => ?_⟩
          have hle := hempty j k hpc (Option.map_eq_none_iff.mp hnone)
          have hsaw := hsees n m hread
          simp only
          omega
        · simpa [State.set, Tries.record, hsame] using hk.later (Nat.le_add_right _ _)
      · simpa [State.set, Tries.record, hj] using hk.later (Nat.le_add_right _ _)

omit [DecidableEq ι] in
/-- What a lookup finds empty lies beyond the size. -/
private theorem size_le_of_empty {cs : List (TablePtr Table)} (ho : AllOwned s.metadata)
    (hsharing : Sharing s.metadata) (hd : Dense s.metadata cs) {i : ι} {k : Nat}
    (hpc : (s.metadata.threads i).pc = .lookupLoad k) (hnone : s.metadata.data.tables k = none) :
    s.metadata.data.tableCount ≤ k := by
  have hread : i ∈ (s.metadata.data.tableLocks k).readers :=
    ((ho i).reader k).mpr (by simp [hpc, Pc.shared])
  have hstep := hd.free k (hsharing i k hread)
  have hcell : s.metadata.data.tables k = cs[k]? := hstep.cell
  have hlen : ¬ k < cs.length := by
    rw [hnone] at hcell
    exact Nat.not_lt.mpr (List.getElem?_eq_none_iff.mp hcell.symm)
  exact Nat.not_lt.mp (hstep.below.not.mpr hlen)

/-- The guard of the runs: indices are picked in a container that is not empty, and emptiness found
is found again. -/
structure PicksStably (s : State ι) (l : Label ι) : Prop where
  bound : BoundNonEmpty s l
  stable : StablyEmpty s l

instance (s : State ι) (l : Label ι) : Decidable (PicksStably s l) :=
  decidable_of_iff (BoundNonEmpty s l ∧ StablyEmpty s l)
    ⟨fun h => ⟨h.1, h.2⟩, fun h => ⟨h.bound, h.stable⟩⟩

/-- A loop that selects a table gives up only after as many tables as it was given attempts were
removed since its action was begun: without DROPs it ends at the first attempt. -/
theorem gives_up_after_removals [Fintype ι]
    (h : Reach (Interleaving.recorded step Tries.record) (fun x l => PicksStably x.1 l)
      (.at g.data, fun _ => ⟨0, 0⟩) (s, t)) {i : ι}
    (hp : (s.workers i).program = .stop .unfinished) : (t i).attempts ≤ (t i).removed := by
  have persisting : Persisting s t := by
    refine h.invariant_with (I := fun x => Persisting x.1 x.2) (fun _ hx => hx)
      (fun i => ⟨none, fun _ _ hc => (by cases hc), Search.Persists.done () _⟩) ?_
    rintro ⟨s, t⟩ l ⟨s', t'⟩ hx _ hs hg he
    obtain ⟨hstep, rfl⟩ := Interleaving.recorded_eq_some.mp he
    have hr : Reach step PicksStably (.at g.data) s := hx.forget
    have hops := reach_operations (fun _ _ hl => hl.stable) hr
    have hbound := ((counted_start g).of_reach (allOwned_start g) (reach_metadata hr)).bound
    have hmax : s.metadata.data.tableCount ≤ maximumTableCount := by omega
    obtain ⟨cs, hd⟩ := dense_of_reach hops
    exact persisting_step hstep hg.bound hmax (searches_of_reach hr)
      (fun _ _ => size_le_of_empty (allOwned_of_reach hr) (sharing_of_reach hops) hd) hs
  obtain ⟨read, _, hk⟩ := persisting i
  rw [hp] at hk
  exact hk rfl

end Runs

/-- An INSERT with one attempt draws the index of a table that is dropped before it is looked up. -/
def insertBehindDrop (i j : ι) : List (Label ι) :=
  [.begin i (.insertData none 1) 1, .go i .none, .go i .none, .go i (.drawn 1),
    .begin j (.dropTable { min_table_count := 0 }) 0, .go j .none, .go j .none, .go j (.drawn 1),
    .go j .none, .tick j, .tick j, .go j .none, .go j .none, .go j (.sql (.returned .success)),
    .go j .none, .go j .none] ++ List.replicate 6 (.tick j) ++ [.go i .none, .tick i, .tick i]

theorem gives_up_after_removals_insert : ∃ (s : State (Fin 2)) (t : Fin 2 → Tries),
    execute (Interleaving.recorded step Tries.record) (fun x l => PicksStably x.1 l)
      (insertBehindDrop 0 1) (.at twoTables.data, fun _ => ⟨0, 0⟩) = some (s, t) ∧
      t 0 = ⟨1, 1⟩ ∧ (t 0).attempts ≤ (t 0).removed := by
  obtain ⟨⟨s, t⟩, he, hs⟩ := Option.map_eq_some_iff.mp (show
    (execute (Interleaving.recorded step Tries.record) (fun x l => PicksStably x.1 l)
      (insertBehindDrop 0 1) (.at twoTables.data, fun _ => ⟨0, 0⟩)).map
        (fun (x : State (Fin 2) × (Fin 2 → Tries)) =>
        (x.2 0, match (x.1.workers 0).program with | .stop .unfinished => true | _ => false)) =
      some (⟨1, 1⟩, true) by decide +kernel)
  obtain ⟨ht, hprogram⟩ := Prod.mk.inj hs
  refine ⟨s, t, he, ht, gives_up_after_removals (reach_of_execute _ he) ?_⟩
  cases hp : (s.workers 0).program with
  | stop e =>
    cases e with
    | unfinished => rfl
    | thrown | undefined => simp [hp] at hprogram
  | done | ask => simp [hp] at hprogram

end PStress.Actions
