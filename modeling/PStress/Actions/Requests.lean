import PStress.Actions.Random
import PStress.Interaction.Program

/-! What actions work with: tables, and the requests they make of the metadata, the random
numbers and the connection. -/
namespace PStress.Actions
open Interaction Metadata Program

/-- `metadata::ColumnType`. -/
inductive ColumnType where
  | INT | CHAR | VARCHAR | REAL | BOOL | BYTEA | TEXT
  deriving DecidableEq, Repr

namespace ColumnType

/-- `rfl::get_enumerator_array<ColumnType>()`. -/
def all : List ColumnType := [INT, CHAR, VARCHAR, REAL, BOOL, BYTEA, TEXT]

/-- `rfl::enum_to_string`. -/
def name : ColumnType → String
  | INT => "INT"
  | CHAR => "CHAR"
  | VARCHAR => "VARCHAR"
  | REAL => "REAL"
  | BOOL => "BOOL"
  | BYTEA => "BYTEA"
  | TEXT => "TEXT"

end ColumnType

/-- `metadata::Column`, without the fields no action reads or sets. -/
structure Column where
  name : String
  type : ColumnType
  length : Nat := 0
  primary_key : Bool := false
  auto_increment : Bool := false
  deriving DecidableEq, Repr

/-- `metadata::Table`, without the fields no action reads or sets. -/
structure Table where
  name : String := ""
  columns : List Column := []
  deriving DecidableEq, Repr

/-- `Table()`. -/
instance : Inhabited Table := ⟨{}⟩

/-- `sql_variant::SqlStatus`. -/
inductive SqlStatus where
  | success | error | serverGone
  deriving DecidableEq, Repr

/-- How `executeQuery` ends: it returns a result or throws. -/
inductive SqlResult where
  | returned (status : SqlStatus)
  | threw
  deriving DecidableEq, Repr

/-- Why an action stops: an exception leaves it, it does what C++ leaves undefined, or it is still
in a loop after the given number of attempts. -/
inductive Halt where
  | thrown | undefined | unfinished
  deriving DecidableEq, Repr

/-- An exception runs the destructors of what it leaves. -/
def Halt.unwinds : Halt → Bool
  | thrown => true
  | undefined | unfinished => false

/-- What a read of `size()` is for: to decide whether to go on, or to bound an index. -/
inductive SizeUse where
  | guard | bound
  deriving DecidableEq, Repr

/-- The requests of an action. `isOpen`, `table`, `index`, `write` and `complete` concern the
reservation made last; `real` is a random number between 1 and 1000000 with six decimals. -/
inductive Request where
  | size (use : SizeUse)
  | createTable
  | alterTable (idx : Nat)
  | dropTable (idx : Nat)
  | lookup (idx : Nat)
  | isOpen
  | table
  | index
  | write (t : Table)
  | complete
  | random (type : NumType) (min max : Int)
  | real
  | executeQuery (sql : String)
  deriving DecidableEq, Repr

/-- What a request is answered: an `int` for a random number, millionths for a real one. -/
abbrev Request.Answer : Request → Type
  | .size _ | .index | .real => Nat
  | .lookup _ | .table => Option Table
  | .isOpen => Bool
  | .random .. => Int
  | .executeQuery _ => SqlResult
  | .createTable | .alterTable _ | .dropTable _ | .write _ | .complete => Unit

abbrev Execution (α : Type) := Program Request Request.Answer Halt α

abbrev perform (q : Request) : Execution q.Answer := request q

variable {α : Type}

/-- `Metadata::size()`. -/
def size (use : SizeUse) : Execution Nat := perform (.size use)

/-- `random_number<int>(min, max)`. -/
def randomInt (min max : Int) : Execution Int := perform (.random .int min max)

/-- `random_number<std::size_t>(min, max)`. -/
def randomSize (min max : Nat) : Execution Nat := do
  return toSize (← perform (.random .size min max))

/-- A pointer is followed or an element is taken: undefined when there is none. -/
def deref : Option α → Execution α
  | some a => done a
  | none => stop .undefined

/-- `charset()` of `ps_random`. -/
def charset : List Char := "0123456789ABCDEFGHIJKLMNOPQRSTUVWXYZabcdefghijklmnopqrstuvwxyz".toList

/-- `randchar` of `random_string`. -/
def randomChar : Execution Char := do
  let v ← randomInt 0 (charset.length - 1)
  deref charset[toSize v]?

/-- `ps_random::random_string`. -/
def randomString (min_length max_length : Nat) : Execution String := do
  let length ← randomSize min_length max_length
  let chars ← times (fun chars => do return chars ++ [← randomChar]) length []
  return String.ofList chars

/-- `executeQuery(sql).maybeThrow()`. -/
def executeQuery (sql : String) : Execution Unit := do
  match ← perform (.executeQuery sql) with
  | .returned .success => done ()
  | .returned _ | .threw => stop .thrown

/-- `Reservation::complete()`, which throws on a handle that is not open. -/
def complete : Execution Unit := do
  if ← perform .isOpen then perform .complete else stop .thrown

/-- `Reservation::~Reservation()`. -/
def destroy : Execution Unit := do
  if ← perform .isOpen then complete else done ()

/-- The callback forms of `createTable`, `alterTable` and `dropTable`: the result is read from the
handle before its destructor runs. -/
def reserving (reserve func : Execution Unit) : Execution Nat := do
  reserve
  ensuring Halt.unwinds destroy do
    func
    perform .index

/-- `Metadata::createTable(func)`. -/
def createTable (func : Execution Unit) : Execution Nat := reserving (perform .createTable) func

/-- `Metadata::alterTable(idx, func)`. -/
def alterTable (idx : Nat) (func : Execution Unit) : Execution Bool := do
  return (← reserving (perform (.alterTable idx)) func) != npos

/-- `Metadata::dropTable(idx, func)`. -/
def dropTable (idx : Nat) (func : Execution Unit) : Execution Bool := do
  return (← reserving (perform (.dropTable idx)) func) != npos

end PStress.Actions
