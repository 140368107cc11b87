import PStress.Actions.Requests

/-! The DDL actions: `CreateTable`, `DropTable` and `AlterTable`. -/
namespace PStress.Actions
open Interaction Metadata Program

structure DdlConfig where
  min_table_count : Nat := 3
  max_table_count : Nat := 10
  max_column_count : Nat := 20
  max_alter_clauses : Nat := 5
  access_methods : List String := ["heap", "tde_heap"]
  deriving DecidableEq, Repr

def randomColumnType : Execution ColumnType := do
  let v ← randomSize 0 (ColumnType.all.length - 1)
  deref ColumnType.all[v]?

def randomColumnLength : ColumnType → Execution Nat
  | .CHAR | .VARCHAR => do return toSize (← randomInt 1 100)
  | .BYTEA | .TEXT | .BOOL | .INT | .REAL => done 0

def randomColumn (forceSerial : Bool) : Execution Column := do
  let number ← randomSize 0 npos
  if forceSerial then
    return { name := s!"col{number}", type := .INT, primary_key := true, auto_increment := true }
  else
    let type ← randomColumnType
    let length ← randomColumnLength type
    return { name := s!"col{number}", type, length }

def columnDefinition (col : Column) : String :=
  if col.auto_increment then s!"{col.name} SERIAL"
  else s!"{col.name} {col.type.name}" ++ if 0 < col.length then s!"({col.length})" else ""

namespace CreateTable

def randomColumns (column_count : Nat) (columns : List Column) : Execution (List Column) := do
  let (_, columns) ← times (fun (idx, columns) => do
    let column ← randomColumn (idx == 0)
    return (idx + 1, columns ++ [column])) column_count (0, columns)
  return columns

def statement (table : Table) : String :=
  let pk_columns := (table.columns.filter Column.primary_key).map Column.name
  let keys := ", ".intercalate pk_columns
  let defs := table.columns.map columnDefinition ++
    if pk_columns.isEmpty then [] else [s!"PRIMARY KEY ({keys})"]
  let body := ",\n".intercalate defs
  s!"CREATE TABLE {table.name} ({body});"

/-- What `execute` does with its reservation. The table is edited through the handle's own
pointer, which no other thread can see, and the edits are made in one step. -/
def body (config : DdlConfig) : Execution Unit := do
  let table ← deref (← perform .table)
  let number ← randomInt 1 1000000
  let column_count ← randomSize 2 config.max_column_count
  let columns ← randomColumns column_count table.columns
  let table := { table with name := s!"foo{number}", columns }
  perform (.write table)
  executeQuery (statement table)
  complete

def execute (config : DdlConfig) : Execution Unit := do
  let n ← size .guard
  if config.max_table_count ≤ n then done ()
  else
    let _ ← createTable (body config)

end CreateTable

namespace DropTable

def statement (table : Table) : String := s!"DROP TABLE {table.name};"

def body : Execution Unit := do
  if ← perform .isOpen then
    let table ← deref (← perform .table)
    executeQuery (statement table)
    complete
  else done ()

def execute (config : DdlConfig) : Execution Unit := do
  let n ← size .guard
  if n ≤ config.min_table_count then done ()
  else
    let n ← size .bound
    let idx ← randomSize 0 (decrement n)
    let _ ← dropTable idx body

end DropTable

inductive AlterSubcommand where
  | addColumn | dropColumn | changeColumn | changeAccessMethod
  deriving DecidableEq, Repr

namespace AlterSubcommand

/-- `rfl::get_underlying_enumerator_array<AlterSubcommand>()`. -/
def all : List AlterSubcommand := [addColumn, dropColumn, changeColumn, changeAccessMethod]

def toUnderlying : AlterSubcommand → Nat
  | addColumn => 1
  | dropColumn => 2
  | changeColumn => 4
  | changeAccessMethod => 8

end AlterSubcommand

/-- `BitFlags<AlterSubcommand>`. -/
structure BitFlags where
  flags : Nat
  deriving DecidableEq, Repr

namespace BitFlags

def isSet (b : BitFlags) (v : AlterSubcommand) : Bool :=
  b.flags &&& v.toUnderlying == v.toUnderlying

/-- `BitFlags::All()`. -/
def all (b : BitFlags) : List AlterSubcommand := AlterSubcommand.all.filter b.isSet

/-- `BitFlags::AllSet()`. -/
def allSet : BitFlags := ⟨AlterSubcommand.all.foldl (fun flags v => flags ||| v.toUnderlying) 0⟩

end BitFlags

namespace AlterTable

/-- A subcommand with what was drawn for it; `nothing` for one that is passed over. -/
inductive Clause where
  | addColumn (column : Column)
  | dropColumn (columnIndex : Nat)
  | changeColumn
  | setAccessMethod (am : String)
  | nothing
  deriving DecidableEq, Repr

/-- The local variables of the loop: `table->columns` and the two vectors. -/
structure Progress where
  columns : List Column
  newColumns : List Column
  alterSubcommands : List String
  changingAm : Bool
  deriving DecidableEq, Repr

/-- What the loop draws for one subcommand, with the number of columns left. -/
def drawClause (config : DdlConfig) (commands : List AlterSubcommand) (columns : Nat)
    (changingAm : Bool) : Execution Clause := do
  let cmdIndex ← randomSize 0 (decrement commands.length)
  match ← deref commands[cmdIndex]? with
  | .addColumn => return .addColumn (← randomColumn false)
  | .dropColumn =>
    if columns < 3 then return .nothing
    else
      let columnIndex ← randomSize 1 (decrement columns)
      if columnIndex < columns then return .dropColumn columnIndex else stop .undefined
  | .changeColumn => return .changeColumn
  | .changeAccessMethod =>
    if changingAm then return .nothing
    else
      let amIndex ← randomSize 0 (decrement config.access_methods.length)
      return .setAccessMethod (← deref config.access_methods[amIndex]?)

def numeric (col : Column) : Bool := col.type == .INT || col.type == .REAL

/-- What the loop does with one subcommand. -/
def Progress.apply (st : Progress) : Clause → Progress
  | .addColumn column =>
    { st with
      alterSubcommands := st.alterSubcommands ++ ["ADD COLUMN " ++ columnDefinition column]
      newColumns := st.newColumns ++ [column] }
  | .dropColumn columnIndex =>
    match st.columns[columnIndex]? with
    | some col => { st with
        alterSubcommands := st.alterSubcommands ++ [s!"DROP COLUMN {col.name}"]
        columns := st.columns.eraseIdx columnIndex }
    | none => st
  | .changeColumn =>
    match st.columns.find? numeric with
    | some col => { st with
        alterSubcommands := st.alterSubcommands ++ [s!"ALTER COLUMN {col.name} TYPE VARCHAR(32)"] }
    | none => st
  | .setAccessMethod am =>
    { st with
      alterSubcommands := st.alterSubcommands ++ [s!"SET ACCESS METHOD {am}"]
      changingAm := true }
  | .nothing => st

def subcommand (config : DdlConfig) (commands : List AlterSubcommand) (st : Progress) :
    Execution Progress := do
  return st.apply (← drawClause config commands st.columns.length st.changingAm)

def statement (table : Table) (alterSubcommands : List String) : String :=
  let body := ",\n".intercalate alterSubcommands
  s!"ALTER TABLE {table.name} \n {body};"

/-- What `execute` does with its reservation; as in `CreateTable`, the table is edited in one
step. -/
def body (config : DdlConfig) (possibleCommands : BitFlags) : Execution Unit := do
  if ← perform .isOpen then
    let table ← deref (← perform .table)
    let howManySubcommands ← randomSize 1 config.max_alter_clauses
    let st ← times (subcommand config possibleCommands.all) howManySubcommands
      ⟨table.columns, [], [], false⟩
    perform (.write { table with columns := st.columns ++ st.newColumns })
    let table ← deref (← perform .table)
    executeQuery (statement table st.alterSubcommands)
    complete
  else done ()

def execute (config : DdlConfig) (possibleCommands : BitFlags) : Execution Unit := do
  let n ← size .bound
  let idx ← randomSize 0 (decrement n)
  let _ ← alterTable idx (body config possibleCommands)

end AlterTable
end PStress.Actions
