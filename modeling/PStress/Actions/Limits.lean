import PStress.Actions.Pending

/-! The configured limits of the number of tables. They hold under load as long as the test of a
CREATE and of a DROP takes those in flight into account. -/
namespace PStress.Actions
open Interaction Interleaving Metadata Program
variable {ι : Type}

def Worker.drops (w : Worker) : Bool := w.action.any Action.drops

def Worker.removes (w : Worker) : Nat := if w.drops then removesNext w.program else 0

def inserting (x : Worker × Thread Table) : Nat := insertsNext x.1.program + toInsert x.2

def removing (x : Worker × Thread Table) : Nat := x.1.removes + toRemove x.2

namespace State

def party (s : State ι) (i : ι) : Worker × Thread Table :=
  (s.workers i, s.metadata.threads i)

/-- CREATEs between their test and their increment of `tableCount`. -/
def insertions [Fintype ι] (s : State ι) : Nat := total Finset.univ inserting s.party

/-- DROPs between their test and their decrement of `tableCount`. -/
def removals [Fintype ι] (s : State ι) : Nat := total Finset.univ removing s.party

end State

/-- Every action is a CREATE or a DROP with the given configuration, and every statement
succeeds. -/
def CreatesAndDrops [DecidableEq ι] (config : DdlConfig) (_ : State ι) : Label ι → Prop
  | .begin _ a _ => a.ddl = some config ∧ (a.creates = true ∨ a.drops = true)
  | .go _ (.sql r) => r = .returned .success
  | .go .. | .tick _ => True

instance [DecidableEq ι] (config : DdlConfig) (s : State ι) :
    (l : Label ι) → Decidable (CreatesAndDrops config s l)
  | .begin _ a _ =>
    inferInstanceAs (Decidable (a.ddl = some config ∧ (a.creates = true ∨ a.drops = true)))
  | .go _ (.sql r) => inferInstanceAs (Decidable (r = .returned .success))
  | .go _ .none | .go _ (.drawn _) | .go _ (.real _) | .tick _ => inferInstanceAs (Decidable True)

variable [DecidableEq ι] [Fintype ι]

/-- A test that takes the actions in flight into account: when a CREATE finds the size below the
maximum, it is below it with all CREATEs in flight added, and when a DROP finds it above the
minimum, it is above it with all DROPs in flight taken off. -/
def RoomLeft (config : DdlConfig) (s : State ι) : Label ι → Prop
  | .begin _ a _ => a.ddl = some config ∧ (a.creates = true ∨ a.drops = true)
  | .go i _ => (s.workers i).program.head = some (.size .guard) →
      if (s.workers i).drops then
        config.min_table_count < s.metadata.data.tableCount →
          config.min_table_count + s.removals < s.metadata.data.tableCount
      else
        s.metadata.data.tableCount < config.max_table_count →
          s.metadata.data.tableCount + s.insertions < config.max_table_count
  | .tick _ => True

instance (config : DdlConfig) (s : State ι) : (l : Label ι) → Decidable (RoomLeft config s l)
  | .begin _ a _ =>
    inferInstanceAs (Decidable (a.ddl = some config ∧ (a.creates = true ∨ a.drops = true)))
  | .go _ _ => inferInstanceAs (Decidable (_ → ite _ (_ → _) (_ → _)))
  | .tick _ => inferInstanceAs (Decidable True)

/-- The limits, with the changes in flight. -/
structure Within (config : DdlConfig) (s : State ι) : Prop where
  most : s.metadata.data.tableCount + s.insertions ≤ config.max_table_count
  least : config.min_table_count + s.removals ≤ s.metadata.data.tableCount
  ordered : ∀ i, ∃ st, Ordered config (s.workers i).drops st (s.workers i).program

variable {config : DdlConfig} {s s' : State ι}

omit [Fintype ι] in
private theorem party_set (s : State ι) (i : ι) (d : InternalData ι Table) (t : Thread Table)
    (w : Worker) : (s.set i d t w).party = Function.update s.party i (w, t) := by
  funext j
  by_cases hj : j = i <;> simp [State.party, State.set, hj]

/-- A step of one worker keeps the limits if it keeps its own account. -/
theorem Within.set (hw : Within config s) {i : ι} {d : InternalData ι Table} {t : Thread Table}
    {w : Worker}
    (hmost : d.tableCount + inserting (w, t) ≤
      s.metadata.data.tableCount + inserting (s.party i) +
        (config.max_table_count - (s.metadata.data.tableCount + s.insertions)))
    (hleast : s.metadata.data.tableCount + removing (w, t) ≤
      d.tableCount + removing (s.party i) +
        (s.metadata.data.tableCount - (config.min_table_count + s.removals)))
    (ho : ∃ st, Ordered config w.drops st w.program) : Within config (s.set i d t w) := by
  have hi := total_update inserting s.party (Finset.mem_univ i) (w, t)
  have hr := total_update removing s.party (Finset.mem_univ i) (w, t)
  have h₁ := hw.most
  have h₂ := hw.least
  have hdata : (s.set i d t w).metadata.data = d := rfl
  rw [← party_set s i d] at hi hr
  simp only [State.insertions, State.removals] at *
  refine ⟨?_, ?_, fun j => ?_⟩
  · rw [hdata, State.insertions]
    omega
  · rw [hdata, State.removals]
    omega
  · by_cases hj : j = i
    · subst hj
      simpa [State.set] using ho
    · simpa [State.set, hj] using hw.ordered j

omit [DecidableEq ι] [Fintype ι] in
private theorem begins_with_test {a : Action} (hddl : a.ddl = some config)
    (ha : a.creates = true ∨ a.drops = true) (n : Nat) :
    (a.execute n).head = some (.size .guard) ∧
      Ordered config a.drops .testing (a.execute n) := by
  cases a with
  | createTable c =>
    cases hddl
    exact ⟨rfl, ordered_create⟩
  | dropTable c =>
    cases hddl
    exact ⟨rfl, ordered_drop⟩
  | _ => simp [Action.creates, Action.drops] at ha

omit [Fintype ι] in
private theorem within_begin [Fintype ι] {i : ι} {a : Action} {n : Nat} (hw : Within config s)
    (h : step s (.begin i a n) = some s') (hl : RoomLeft config s (.begin i a n)) :
    Within config s' := by
  obtain ⟨_, _, rfl⟩ := step_begin h
  obtain ⟨hhead, hord⟩ := begins_with_test hl.1 hl.2 n
  have hins : insertsNext (a.execute n) = 0 := by rw [insertsNext, hhead]; rfl
  have hrem : removesNext (a.execute n) = 0 := by rw [removesNext, hhead]; rfl
  refine hw.set ?_ ?_ ⟨_, hord⟩
  · simp only [inserting, State.party, hins]
    omega
  · simp only [removing, State.party, Worker.removes, hrem, ite_self]
    omega

private theorem within_go {i : ι} {x : Input} (hw : Within config s) (ho : AllOwned s.metadata)
    (h : step s (.go i x) = some s') (hl : RoomLeft config s (.go i x)) : Within config s' := by
  obtain ⟨r, q, k, d', t', ans, hr, hp, hs, rfl⟩ := step_go h
  obtain ⟨st, hst⟩ := hw.ordered i
  rw [hp] at hst
  have hrest : Resting s.metadata.data r := by
    have hown := (ho i).ok
    rw [hr] at hown
    exact hown
  have hhead : (s.workers i).program.head = some q := by rw [hp, head]
  have hcount := (serve_limits hs hrest).1
  obtain ⟨hord, hins, hdrop, hcreate⟩ := go_limits hst hs hrest
  have hroom : s.metadata.data.tableCount + s.insertions +
      admitsCreate config (s.workers i).drops q s.metadata.data.tableCount ≤
        config.max_table_count := by
    have hmost := hw.most
    simp only [admitsCreate]
    split
    · rename_i hadm
      obtain ⟨rfl, hd, hlt⟩ := hadm
      have hleft := hl hhead
      rw [hd] at hleft
      exact hleft hlt
    · omega
  have hspare : config.min_table_count + s.removals +
      admitsDrop config (s.workers i).drops q s.metadata.data.tableCount ≤
        s.metadata.data.tableCount := by
    have hleast := hw.least
    simp only [admitsDrop]
    split
    · rename_i hadm
      obtain ⟨rfl, hd, hlt⟩ := hadm
      have hleft := hl hhead
      rw [hd] at hleft
      exact hleft hlt
    · omega
  refine hw.set ?_ ?_ hord
  · have hnow : insertsNext (s.workers i).program = q.inserts := by rw [insertsNext, hhead]; rfl
    simp only [inserting, State.party, hr, hnow]
    omega
  · have hnow : removesNext (s.workers i).program = q.removes := by rw [removesNext, hhead]; rfl
    have hdrops : Worker.drops ⟨(s.workers i).action, resume q k ans⟩ = (s.workers i).drops := rfl
    simp only [removing, State.party, Worker.removes, hr, hnow, hdrops]
    cases hd : (s.workers i).drops
    · have hle := hcreate hd
      simp only [Bool.false_eq_true, if_false]
      omega
    · have hle := hdrop hd
      simp only [if_true, hd] at *
      omega

private theorem within_tick {i : ι} (hw : Within config s) (ho : AllOwned s.metadata)
    (h : step s (.tick i) = some s') : Within config s' := by
  obtain ⟨d', t', ht, rfl⟩ := step_tick h
  obtain ⟨st, hst⟩ := hw.ordered i
  rw [deliver_ordered hst]
  have hle := le_total removing s.party (Finset.mem_univ i)
  have hleast := hw.least
  simp only [State.removals] at hleast
  have hrem : toRemove (s.metadata.threads i) ≤ s.metadata.data.tableCount := by
    have hpart : toRemove (s.metadata.threads i) ≤ removing (s.party i) := Nat.le_add_left ..
    omega
  obtain ⟨h₁, h₂⟩ : d'.tableCount + toInsert t' ≤
      s.metadata.data.tableCount + toInsert (s.metadata.threads i) ∧
      s.metadata.data.tableCount + toRemove t' ≤
        d'.tableCount + toRemove (s.metadata.threads i) := tick_limits ht (ho i).ok hrem
  refine hw.set ?_ ?_ ⟨st, hst⟩
  · simp only [inserting, State.party]
    omega
  · have hsame : Worker.removes ⟨(s.workers i).action, (s.workers i).program⟩ =
        (s.workers i).removes := rfl
    simp only [removing, State.party, hsame]
    omega

omit [DecidableEq ι] in
private theorem within_start {g : GapFree Table} (hmin : config.min_table_count ≤ g.tables.length)
    (hmax : g.tables.length ≤ config.max_table_count) :
    Within config (State.at g.data : State ι) := by
  have hins : (State.at g.data : State ι).insertions = 0 := total_eq_zero fun _ => rfl
  have hrem : (State.at g.data : State ι).removals = 0 := total_eq_zero fun _ => rfl
  refine ⟨?_, ?_, fun i => ⟨.past, .done ()⟩⟩
  · rw [hins]
    exact hmax
  · rw [hrem]
    exact hmin

/-- The configured limits hold in every run of CREATEs and DROPs whose tests take the actions in
flight into account. -/
theorem table_count_within_limits {g : GapFree Table}
    (hmin : config.min_table_count ≤ g.tables.length)
    (hmax : g.tables.length ≤ config.max_table_count)
    (h : Reach step (RoomLeft config) (.at g.data) s) :
    config.min_table_count ≤ s.metadata.data.tableCount ∧
      s.metadata.data.tableCount ≤ config.max_table_count := by
  have hw : Within config s := h.invariant_with (fun _ hr => allOwned_of_reach hr)
    (within_start hmin hmax) fun s l s' ho _ hw hl he => by
      cases l with
      | begin i a n => exact within_begin hw he hl
      | go i x => exact within_go hw ho he hl
      | tick i => exact within_tick hw ho he
  have h₁ := hw.most
  have h₂ := hw.least
  exact ⟨by omega, by omega⟩

def testDrop (config : DdlConfig) (i : Fin 2) : List (Label (Fin 2)) :=
  [.begin i (.dropTable config) 0, .go i .none]

/-- Worker `i` drops the table in slot `k`, the last one, up to the decrement of `tableCount`. -/
def drop (i : Fin 2) (k : Int) : List (Label (Fin 2)) :=
  [.go i .none, .go i (.drawn k), .go i .none, .tick i, .tick i, .go i .none, .go i .none,
    .go i (.sql (.returned .success)), .go i .none, .go i .none, .tick i, .tick i, .tick i]

theorem table_count_within_limits_drop : ∃ s : State (Fin 2),
    execute step (RoomLeft { min_table_count := 1, max_table_count := 2 })
      (testDrop { min_table_count := 1, max_table_count := 2 } 0 ++ drop 0 1)
      (.at twoTables.data) = some s ∧ s.metadata.data.tableCount = 1 ∧
      1 ≤ s.metadata.data.tableCount ∧ s.metadata.data.tableCount ≤ 2 := by
  obtain ⟨s, he, hs⟩ := Option.map_eq_some_iff.mp
    (show (execute step (RoomLeft { min_table_count := 1, max_table_count := 2 })
      (testDrop { min_table_count := 1, max_table_count := 2 } 0 ++ drop 0 1)
      (.at twoTables.data)).map (fun s => s.metadata.data.tableCount) = some 1 by decide +kernel)
  exact ⟨s, he, hs, table_count_within_limits (by decide) (by decide) (reach_of_execute _ he)⟩

/-- Two workers find two tables, one more than the minimum, and each drops one. -/
theorem limit_broken : ∃ (config : DdlConfig) (g : GapFree Table) (s : State (Fin 2)),
    config.min_table_count ≤ config.max_table_count ∧
      config.max_table_count ≤ maximumTableCount ∧
      config.min_table_count ≤ g.tables.length ∧ g.tables.length ≤ config.max_table_count ∧
      Reach step (CreatesAndDrops config) (.at g.data) s ∧
      ¬ config.min_table_count ≤ s.metadata.data.tableCount := by
  obtain ⟨s, he, hs⟩ := Option.map_eq_some_iff.mp
    (show (execute step (CreatesAndDrops { min_table_count := 1, max_table_count := 2 })
      (testDrop { min_table_count := 1, max_table_count := 2 } 0 ++
        testDrop { min_table_count := 1, max_table_count := 2 } 1 ++ drop 0 1 ++ drop 1 0)
      (.at twoTables.data)).map (fun s => s.metadata.data.tableCount) = some 0 by decide +kernel)
  refine ⟨_, twoTables, s, by decide, by decide, by decide, by decide, reach_of_execute _ he, ?_⟩
  rw [hs]
  decide

end PStress.Actions
