import PStress.Interaction.Program
import PStress.Interleaving.Reach
import Mathlib.Logic.Function.Basic

/-! The wrapper of a server process. A call asks the operating system for one thing after another,
and a process may exit at any moment in between. -/
namespace PStress.Process
open Interaction Program

/-- What a process is launched for: `postgres` by `start`, or `pg_isready`, which is waited for. -/
inductive Role where
  | postmaster | helper
  deriving DecidableEq, Repr

inductive Signal where
  | SIGINT | SIGKILL
  deriving DecidableEq, Repr

/-- A call ends without a result when a process can not be launched, or when it follows a null
pointer. -/
inductive Failure where
  | thrown | undefined
  deriving DecidableEq, Repr

/-- Processes are numbered in the order in which they are launched, and a `ptr_t` is such a number.
`assign` sets the field `postmaster`, and `postmaster` reads it. -/
inductive Request where
  | postmaster
  | assign (p : Option Nat)
  | launch (role : Role) (cmd : String) (args : List String)
  | running (p : Nat)
  | kill (p : Nat) (signal : Signal)
  | wait (p : Nat)
  | exitCode (p : Nat)
  | sleep
  deriving DecidableEq, Repr

/-- A launch that throws has no answer but `none`. -/
abbrev Request.Answer : Request → Type
  | .postmaster | .launch .. => Option Nat
  | .running _ => Bool
  | .exitCode _ => Int
  | .assign _ | .kill .. | .wait _ | .sleep => Unit

abbrev Execution (α : Type) := Program Request Request.Answer Failure α

abbrev perform (q : Request) : Execution q.Answer := request q

def deref : Execution Nat := do
  match ← perform .postmaster with
  | some p => done p
  | none => stop .undefined

namespace BackgroundProcess

def run (role : Role) (cmd : String) (args : List String) : Execution Nat := do
  match ← perform (.launch role cmd args) with
  | some p => done p
  | none => stop .thrown

def waitUntilExits (p : Nat) : Execution Int := do
  if ← perform (.running p) then perform (.wait p)
  perform (.exitCode p)

def runAndWait (cmd : String) (args : List String) : Execution Int := do
  waitUntilExits (← run .helper cmd args)

end BackgroundProcess

/-- The fields of a `Postgres` object that its calls only read. -/
structure Postgres where
  installDir : String
  dataDir : String
  port : String

namespace Postgres
open BackgroundProcess
variable (pg : Postgres)

def is_ready : Execution Bool := do
  return (← runAndWait s!"{pg.installDir}/bin/pg_isready" ["-p", pg.port]) == 0

def wait_ready : Nat → Execution Bool
  | 0 => done false
  | maxWaitTime + 1 => do
    if ← pg.is_ready then done true
    else
      perform .sleep
      wait_ready maxWaitTime

def is_running : Execution Bool := do
  if (← perform .postmaster).isSome then perform (.running (← deref)) else done false

def launch (wrapper : String) (wrapperArgs : List String) : Execution Bool := do
  let postgres := s!"{pg.installDir}/bin/postgres"
  let p ← (if wrapper = "" then run .postmaster postgres ["-D", pg.dataDir]
    else run .postmaster wrapper (wrapperArgs ++ [postgres, "-D", pg.dataDir]))
  perform (.assign (some p))
  let _ ← pg.wait_ready 5
  perform (.running (← deref))

def start (wrapper : String) (wrapperArgs : List String) : Execution Bool := do
  if (← perform .postmaster).isSome then
    if ← perform (.running (← deref)) then done false
    else
      perform (.assign none)
      pg.launch wrapper wrapperArgs
  else pg.launch wrapper wrapperArgs

/-- The loop of `stop`, for the seconds that are left. -/
def waitGracefully : Nat → Execution Unit
  | 0 => done ()
  | seconds + 1 => do
    if ← perform (.running (← deref)) then
      perform .sleep
      waitGracefully seconds
    else done ()

def stop (graceful_wait_period : Nat) : Execution Unit := do
  if ← is_running then
    perform (.kill (← deref) .SIGINT)
    waitGracefully graceful_wait_period
    if ← perform (.running (← deref)) then perform (.kill (← deref) .SIGKILL)
    let _ ← waitUntilExits (← deref)
    perform (.assign none)
  else perform (.assign none)

def restart (graceful_wait_period : Nat) (wrapper : String) (wrapperArgs : List String) :
    Execution Bool := do
  stop graceful_wait_period
  pg.start wrapper wrapperArgs

def kill9 : Execution Unit := do
  perform (.kill (← deref) .SIGKILL)
  let _ ← waitUntilExits (← deref)
  perform (.assign none)

end Postgres

/-- What is done with a `Postgres` object. -/
inductive Op where
  | start (wrapper : String) (wrapperArgs : List String)
  | stop (graceful_wait_period : Nat)
  | restart (graceful_wait_period : Nat) (wrapper : String) (wrapperArgs : List String)
  | kill9
  | is_running
  | destroy
  deriving DecidableEq, Repr

open Postgres in
/-- A call, without its result; `~Postgres()` stops the server. -/
def Op.execute (pg : Postgres) : Op → Execution Unit
  | start wrapper wrapperArgs => do
    let _ ← pg.start wrapper wrapperArgs
  | stop graceful_wait_period => Postgres.stop graceful_wait_period
  | restart graceful_wait_period wrapper wrapperArgs => do
    let _ ← pg.restart graceful_wait_period wrapper wrapperArgs
  | kill9 => Postgres.kill9
  | is_running => do
    let _ ← Postgres.is_running
  | destroy => Postgres.stop 10

/-- The calls after which no server is left. -/
def Op.ends : Op → Bool
  | stop _ | kill9 | destroy => true
  | start .. | restart .. | is_running => false

/-- The field `postmaster`, and the processes the object has launched that are alive. -/
structure World where
  postmaster : Option Nat
  alive : Nat → Option Role
  launched : Nat

namespace World

def initial : World := ⟨none, fun _ => none, 0⟩

def launch (w : World) (role : Role) : World :=
  ⟨w.postmaster, Function.update w.alive w.launched (some role), w.launched + 1⟩

def exit (w : World) (p : Nat) : World := { w with alive := Function.update w.alive p none }

end World

/-- What the surroundings decide: whether a process can be launched, and its exit code. -/
inductive Input where
  | none
  | refused
  | code (c : Int)
  deriving DecidableEq, Repr

/-- The answer to a request. A signal ends a process later, if it does; a wait is over when the
process is gone. -/
def serve (x : Input) (w : World) : (q : Request) → Option (World × q.Answer)
  | .postmaster => some (w, w.postmaster)
  | .assign p => some ({ w with postmaster := p }, ())
  | .launch role _ _ =>
    if x = .refused then some (w, none) else some (w.launch role, some w.launched)
  | .running p => some (w, (w.alive p).isSome)
  | .kill _ _ | .sleep => some (w, ())
  | .wait p => if (w.alive p).isNone then some (w, ()) else none
  | .exitCode _ =>
    match x with
    | .code c => some (w, c)
    | _ => none

/-- The object between two requests: the call in progress, or the last one. -/
structure State where
  world : World
  op : Option Op
  program : Execution Unit

/-- The object is called, the call in progress makes its next request, or a process exits. -/
inductive Label where
  | call (op : Op)
  | go (x : Input)
  | exit (p : Nat)
  deriving DecidableEq, Repr

/-- Whether the next call may be made: the last one has returned or thrown, and the object still
exists. -/
def State.ready (s : State) : Bool :=
  s.op ≠ some .destroy && match s.program with
    | .done _ | .stop .thrown => true
    | _ => false

def step (pg : Postgres) (s : State) : Label → Option State
  | .call op => if s.ready then some ⟨s.world, some op, op.execute pg⟩ else none
  | .go x =>
    match s.program with
    | .ask q k => (serve x s.world q).map fun y => ⟨y.1, s.op, k y.2⟩
    | _ => none
  | .exit p => some { s with world := s.world.exit p }

def State.initial : State := ⟨.initial, none, .done ()⟩

end PStress.Process
