import PStress.Actions.Requests

/-! The DML actions and custom statements. Loops that look for a table are given a number of
attempts, after which they are left unfinished. -/
namespace PStress.Actions
open Interaction Metadata Program

structure DmlConfig where
  deleteMin : Nat := 1
  deleteMax : Nat := 100
  deriving DecidableEq, Repr

/-- `std::to_string` of a real number given in millionths. -/
def realText (n : Nat) : String :=
  let digits := (toString (n % 1000000)).toList
  s!"{n / 1000000}." ++ String.ofList (List.replicate (6 - digits.length) '0' ++ digits)

def quoted (text : String) : String := "'" ++ text ++ "'"

def generateValue (col : Column) : Execution String := do
  match col.type with
  | .INT => return toString (← randomInt 1 1000000)
  | .REAL => return realText (← perform .real)
  | .VARCHAR => return quoted (← randomString 0 col.length)
  | .BYTEA | .TEXT => return quoted (← randomString 50 1000)
  | .BOOL => return if (← randomInt 0 1) == 1 then "true" else "false"
  | .CHAR => return quoted (← randomString 0 col.length)

def selectTable : Nat → Execution Table
  | 0 => stop .unfinished
  | attempts + 1 => do
    let n ← size .bound
    let idx ← randomSize 0 (decrement n)
    match ← perform (.lookup idx) with
    | some table => done table
    | none => selectTable attempts

namespace InsertData

def columnList (columns : List Column) (sql : String) : String :=
  (columns.foldl (fun (sql, first) f =>
    if f.auto_increment then (sql, first)
    else (sql ++ (if first then "" else ", ") ++ f.name, false)) (sql, true)).1

def row (columns : List Column) (sql : String) : Execution String := do
  let (sql, _) ← columns.foldlM (fun (sql, first) f => do
    if f.auto_increment then return (sql, first)
    else
      let value ← generateValue f
      return (sql ++ (if first then "" else ", ") ++ value, false)) (sql, true)
  return sql

def statement (table : Table) (rows : Nat) : Execution String := do
  let sql := columnList table.columns ("INSERT INTO " ++ table.name ++ " (") ++ " ) VALUES "
  let (_, sql) ← times (fun (idx, sql) => do
    let sql ← row table.columns (sql ++ (if idx == 0 then "" else ", ") ++ "(")
    return (idx + 1, sql ++ ")")) rows (0, sql)
  return sql ++ ";"

/-- `table` is the one given to the constructor, if any. -/
def execute (table : Option Table) (rows attempts : Nat) : Execution Unit := do
  let n ← size .guard
  if n == 0 then done ()
  else
    let table ← match table with
      | some table => done table
      | none => selectTable attempts
    executeQuery (← statement table rows)

end InsertData

namespace DeleteData

def execute (config : DmlConfig) (attempts : Nat) : Execution Unit := do
  let n ← size .guard
  if n == 0 then done ()
  else
    let table ← selectTable attempts
    let tableName := table.name
    let pkName := (← deref table.columns[0]?).name
    let rows ← randomSize config.deleteMin config.deleteMax
    executeQuery <| s!"DELETE FROM {tableName} WHERE {pkName} IN (SELECT {pkName} FROM {tableName}"
      ++ s!" ORDER BY random() LIMIT {rows});"

end DeleteData

namespace UpdateOneRow

def assignments (columns : List Column) (sql : String) : Execution String := do
  let (sql, _) ← columns.foldlM (fun (sql, first) f => do
    if f.auto_increment then return (sql, first)
    else
      let value ← generateValue f
      return (sql ++ (if first then "" else ", ") ++ f.name ++ " = " ++ value, false)) (sql, true)
  return sql

def execute (attempts : Nat) : Execution Unit := do
  let n ← size .guard
  if n == 0 then done ()
  else
    let table ← selectTable attempts
    let tableName := table.name
    let pkName := (← deref table.columns[0]?).name
    let sql ← assignments table.columns ("UPDATE " ++ tableName ++ " SET ")
    executeQuery <| sql ++ s!" WHERE {pkName} IN (SELECT {pkName} FROM {tableName}"
      ++ " ORDER BY random() LIMIT 1);"

end UpdateOneRow

/-- `CustomSql`; its constructor refuses any other injection. -/
structure CustomSql where
  sqlStatement : String
  injectParameters : List String
  known : ∀ inject ∈ injectParameters, inject = "table"

namespace CustomSql

def doInject (injectionPoint : String) (attempts : Nat) : Execution String := do
  if injectionPoint == "table" then
    let table ← selectTable attempts
    return table.name
  else stop .thrown

def execute (c : CustomSql) (attempts : Nat) : Execution Unit := do
  let statementCopy ← c.injectParameters.foldlM (fun statementCopy inject => do
    let text ← doInject inject attempts
    return statementCopy.replace ("\x7b" ++ inject ++ "\x7d") text) c.sqlStatement
  executeQuery statementCopy

end CustomSql
end PStress.Actions
