import PStress.Actions.Dml
import PStress.Actions.Draws
import PStress.Metadata.Capacity

/-! Workers that run actions over one `Metadata`. A worker makes its requests while no operation
of its handle is in progress, and the operations proceed step by step with those of the others.
Every exception is caught by the worker, which goes on with its next action. -/
namespace PStress.Actions
open Interaction Interleaving Metadata

inductive Action where
  | createTable (config : DdlConfig)
  | dropTable (config : DdlConfig)
  | alterTable (config : DdlConfig) (possibleCommands : BitFlags)
  | insertData (table : Option Table) (rows : Nat)
  | deleteData (config : DmlConfig)
  | updateOneRow
  | customSql (c : CustomSql)

def Action.ddl : Action → Option DdlConfig
  | createTable config | dropTable config | alterTable config _ => some config
  | insertData .. | deleteData _ | updateOneRow | customSql _ => none

def Action.creates : Action → Bool
  | createTable _ => true
  | _ => false

def Action.drops : Action → Bool
  | dropTable _ => true
  | _ => false

def Action.execute (attempts : Nat) : Action → Execution Unit
  | createTable config => CreateTable.execute config
  | dropTable config => DropTable.execute config
  | alterTable config possibleCommands => AlterTable.execute config possibleCommands
  | insertData table rows => InsertData.execute table rows attempts
  | deleteData config => DeleteData.execute config attempts
  | updateOneRow => UpdateOneRow.execute attempts
  | customSql c => c.execute attempts

/-- What a request is given from outside: a random number or the outcome of a statement. -/
inductive Input where
  | none
  | drawn (v : Int)
  | real (n : Nat)
  | sql (r : SqlResult)
  deriving DecidableEq, Repr

variable {ι : Type}

/-- One request of a handle at rest: the data and the handle after it, and the answer unless it
comes later. -/
def serve (x : Input) (d : InternalData ι Table) (r : Reservation Table) :
    (q : Request) → Option (InternalData ι Table × Thread Table × Option q.Answer)
  | .size _ => some (d, ⟨r, .idle⟩, some d.tableCount)
  | .createTable => (call d r .createTable).map fun y => (y.1, y.2, some ())
  | .alterTable idx => (call d r (.alterTable idx)).map fun y => (y.1, y.2, some ())
  | .dropTable idx => (call d r (.dropTable idx)).map fun y => (y.1, y.2, some ())
  | .lookup idx => (call d r (.lookup idx)).map fun y => (y.1, y.2, none)
  | .isOpen => some (d, ⟨r, .idle⟩, some r.isOpen)
  | .table => some (d, ⟨r, .idle⟩, some (r.table.map TablePtr.value))
  | .index => some (d, ⟨r, .idle⟩, some r.index)
  | .write t => (call d r (.edit fun _ => t)).map fun y => (y.1, y.2, some ())
  | .complete => (call d r .complete).map fun y => (y.1, y.2, some ())
  | .random _ min max =>
    match x with
    | .drawn v => if Drawn min max v then some (d, ⟨r, .idle⟩, some v) else none
    | _ => none
  | .real =>
    match x with
    | .real n =>
      if 1000000 ≤ n ∧ n ≤ 1000000000000 then some (d, ⟨r, .idle⟩, some n) else none
    | _ => none
  | .executeQuery _ =>
    match x with
    | .sql result => some (d, ⟨r, .idle⟩, some result)
    | _ => none

/-- The answer of a lookup that holds the mutex of its slot. -/
def late (d : InternalData ι Table) : (q : Request) → Option q.Answer
  | .lookup idx => some ((d.tables idx).map TablePtr.value)
  | _ => none

def resume (q : Request) (k : q.Answer → Execution Unit) : Option q.Answer → Execution Unit
  | some a => k a
  | none => .ask q k

/-- A worker makes its next request. -/
def advance (x : Input) (d : InternalData ι Table) (r : Reservation Table) :
    Execution Unit → Option (InternalData ι Table × Thread Table × Execution Unit)
  | .ask q k => (serve x d r q).map fun y => (y.1, y.2.1, resume q k y.2.2)
  | .done _ | .stop _ => none

/-- The program after a step of the operation in progress. -/
def deliver (d : InternalData ι Table) : Pc Table → Execution Unit → Execution Unit
  | .lookupLoad _, .ask q k => resume q k (late d q)
  | _, p => p

/-- Whether a worker may go on with another action. -/
def finished : Execution Unit → Bool
  | .done _ | .stop .thrown => true
  | _ => false

structure Worker where
  action : Option Action
  program : Execution Unit

structure State (ι : Type) where
  metadata : Metadata.State ι Table
  workers : ι → Worker

/-- A worker begins an action, makes its next request, or lets the operation in progress take a
step. -/
inductive Label (ι : Type) where
  | begin (i : ι) (a : Action) (attempts : Nat)
  | go (i : ι) (x : Input)
  | tick (i : ι)

variable [DecidableEq ι]

def State.set (s : State ι) (i : ι) (d : InternalData ι Table) (t : Thread Table) (w : Worker) :
    State ι :=
  ⟨⟨d, Function.update s.metadata.threads i t⟩, Function.update s.workers i w⟩

def step (s : State ι) : Label ι → Option (State ι)
  | .begin i a attempts =>
    match s.metadata.threads i with
    | ⟨r, .idle⟩ =>
      if finished (s.workers i).program then
        some (s.set i s.metadata.data ⟨r, .idle⟩ ⟨some a, a.execute attempts⟩)
      else none
    | _ => none
  | .go i x =>
    match s.metadata.threads i with
    | ⟨r, .idle⟩ => (advance x s.metadata.data r (s.workers i).program).map fun y =>
      s.set i y.1 y.2.1 ⟨(s.workers i).action, y.2.2⟩
    | _ => none
  | .tick i =>
    (tick i s.metadata.data (s.metadata.threads i).res (s.metadata.threads i).pc).map fun y =>
      s.set i y.1 y.2 ⟨(s.workers i).action,
        deliver s.metadata.data (s.metadata.threads i).pc (s.workers i).program⟩

/-- Every action is a DDL action with the given configuration. -/
def RunsDdl (config : DdlConfig) (_ : State ι) : Label ι → Prop
  | .begin _ a _ => a.ddl = some config
  | .go .. | .tick _ => True

omit [DecidableEq ι] in
instance (config : DdlConfig) (s : State ι) : (l : Label ι) → Decidable (RunsDdl config s l)
  | .begin _ a _ => inferInstanceAs (Decidable (a.ddl = some config))
  | .go .. | .tick _ => inferInstanceAs (Decidable True)

/-- Workers that have not begun, over given data. -/
def State.at (d : InternalData ι Table) : State ι := ⟨.at d, fun _ => ⟨none, .done ()⟩⟩

def twoColumns : List Column :=
  [⟨"col1", .INT, 0, true, true⟩, ⟨"col2", .VARCHAR, 20, false, false⟩]

def twoTables : GapFree Table where
  tables := [⟨0, "foo1", twoColumns⟩, ⟨1, "foo2", twoColumns⟩]
  movedToMap _ := npos
  nextTable := 2
  fits := by decide
  distinct := by decide
  older := by decide

section Steps
variable {s s' : State ι} {i : ι}

theorem step_begin {a : Action} {n : Nat} (h : step s (.begin i a n) = some s') :
    (s.metadata.threads i).pc = .idle ∧ finished (s.workers i).program = true ∧
      s' = s.set i s.metadata.data (s.metadata.threads i) ⟨some a, a.execute n⟩ := by
  simp only [step] at h
  split at h
  · rename_i r hr
    split at h <;> cases h
    exact ⟨congrArg Thread.pc hr, by assumption, by rw [hr]⟩
  · cases h

theorem step_go {x : Input} (h : step s (.go i x) = some s') :
    ∃ r q k d' t' ans, s.metadata.threads i = ⟨r, .idle⟩ ∧ (s.workers i).program = .ask q k ∧
      serve x s.metadata.data r q = some (d', t', ans) ∧
      s' = s.set i d' t' ⟨(s.workers i).action, resume q k ans⟩ := by
  simp only [step] at h
  split at h
  · rename_i r hr
    obtain ⟨y, hy, rfl⟩ := Option.map_eq_some_iff.mp h
    cases hp : (s.workers i).program with
    | done | stop => simp [hp, advance] at hy
    | ask q k =>
      rw [hp] at hy
      obtain ⟨⟨d', t', ans⟩, hs, rfl⟩ := Option.map_eq_some_iff.mp hy
      exact ⟨r, q, k, d', t', ans, hr, rfl, hs, rfl⟩
  · cases h

theorem step_tick (h : step s (.tick i) = some s') :
    ∃ d' t', tick i s.metadata.data (s.metadata.threads i).res (s.metadata.threads i).pc =
        some (d', t') ∧
      s' = s.set i d' t' ⟨(s.workers i).action,
        deliver s.metadata.data (s.metadata.threads i).pc (s.workers i).program⟩ := by
  obtain ⟨⟨d', t'⟩, ht, rfl⟩ := Option.map_eq_some_iff.mp h
  exact ⟨d', t', ht, rfl⟩

omit [DecidableEq ι] in
/-- A request is a call of the handle, or it leaves handle and data alone. -/
theorem serve_cases {x : Input} {d d' : InternalData ι Table} {r : Reservation Table}
    {q : Request} {t' : Thread Table} {ans : Option q.Answer}
    (h : serve x d r q = some (d', t', ans)) :
    (d' = d ∧ t' = ⟨r, .idle⟩) ∨ ∃ a, call d r a = some (d', t') := by
  cases q with
  | createTable | alterTable | dropTable | lookup | write | complete =>
    obtain ⟨y, hy, he⟩ := Option.map_eq_some_iff.mp h
    cases he
    exact .inr ⟨_, hy⟩
  | size | isOpen | table | index =>
    cases h
    exact .inl ⟨rfl, rfl⟩
  | random | real =>
    simp only [serve] at h
    (repeat' split at h) <;> cases h
    exact .inl ⟨rfl, rfl⟩
  | executeQuery =>
    simp only [serve] at h
    split at h <;> cases h
    exact .inl ⟨rfl, rfl⟩

omit [DecidableEq ι] in
/-- A random number is within its bounds. -/
theorem serve_given {x : Input} {d d' : InternalData ι Table} {r : Reservation Table}
    {t' : Thread Table} {q : Request} {a : q.Answer}
    (h : serve x d r q = some (d', t', some a)) : q.Given (fun _ _ => True) a := by
  cases q with
  | random type min max =>
    simp only [serve] at h
    (repeat' split at h) <;> cases h
    exact ⟨by assumption, trivial⟩
  | _ => trivial

private theorem step_metadata {l : Label ι} (h : step s l = some s') :
    s'.metadata = s.metadata ∨ ∃ l', Metadata.step s.metadata l' = some s'.metadata := by
  cases l with
  | begin i a n =>
    obtain ⟨_, _, rfl⟩ := step_begin h
    exact .inl (by simp [State.set])
  | go i x =>
    obtain ⟨r, q, k, d', t', ans, hr, _, hs, rfl⟩ := step_go h
    obtain ⟨rfl, rfl⟩ | ⟨a, hc⟩ := serve_cases hs
    · exact .inl (by simp [State.set, ← hr])
    · refine .inr ⟨.run i a, step_run.mpr ⟨d', t', ?_, rfl⟩⟩
      rw [hr]
      cases a with
      | tick => cases hc
      | _ => exact hc
  | tick i =>
    obtain ⟨d', t', ht, rfl⟩ := step_tick h
    exact .inr ⟨.run i .tick, step_run.mpr ⟨d', t', ht, rfl⟩⟩

/-- What workers do to the metadata is a run of it. -/
theorem reach_metadata {guard : State ι → Label ι → Prop} {s₀ : State ι}
    (h : Reach step guard s₀ s) :
    Reach Metadata.step always s₀.metadata s.metadata := by
  induction h with
  | start => exact .start
  | next l _ _ he ih =>
    obtain heq | ⟨l', hl⟩ := step_metadata he
    · rw [heq]
      exact ih
    · exact .next l' ih trivial hl

theorem allOwned_of_reach {guard : State ι → Label ι → Prop} {g : GapFree Table}
    (h : Reach step guard (.at g.data) s) : AllOwned s.metadata :=
  (allOwned_start g).of_reach (reach_metadata h)

end Steps
end PStress.Actions
