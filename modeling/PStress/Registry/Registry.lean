import PStress.Actions.Workers
import PStress.Selection.Running

/-! `ActionRegistry`: named actions with weights, from which workers choose. Every operation
but `use` and the assignments holds the mutex of the registry and is one step. -/
namespace PStress.Registry
open Actions Selection

/-- `action::ActionException`. -/
structure ActionException where
  message : String
  deriving DecidableEq, Repr

structure AllConfig where
  ddl : DdlConfig := {}
  dml : DmlConfig := {}

/-- `weight` is a `std::size_t`. -/
structure ActionFactory where
  name : String
  builder : AllConfig → Action
  weight : UInt64

def ActionFactory.size (f : ActionFactory) : Nat := f.weight.toNat

structure ActionRegistry where
  factories : List ActionFactory := []

/-- How an operation ends, and the registry after it. -/
abbrev Outcome (α : Type) := Except ActionException α × ActionRegistry

namespace ActionRegistry
variable (r : ActionRegistry)

def has (name : String) : Bool := r.factories.any (·.name == name)

def insert (action : ActionFactory) : Outcome Nat :=
  if r.has action.name then
    (.error ⟨s!"Action {action.name} already exists in this registy"⟩, r)
  else (.ok r.factories.length, ⟨r.factories ++ [action]⟩)

def remove (name : String) : Outcome Unit :=
  match r.factories.findIdx? (·.name == name) with
  | none => (.error ⟨s!"Action {name} does not exists in this registy"⟩, r)
  | some it => (.ok (), ⟨r.factories.eraseIdx it⟩)

/-- `getReference(name).weight = v`. -/
def setWeight (name : String) (v : UInt64) : Outcome Unit :=
  match r.factories.findIdx? (·.name == name) with
  | none => (.error ⟨s!"Action {name} does not exists in this registy"⟩, r)
  | some it => (.ok (), ⟨r.factories.modify it ({ · with weight := v })⟩)

/-- `std::accumulate` begins with an `int`: each sum, a `std::size_t`, is converted to `int`, and
the last one back. -/
def totalWeight : Nat :=
  toSize (r.factories.foldl
    (fun a b => narrow ((toSize a + b.size) % 18446744073709551616 : Nat)) 0)

/-- The running sum is a `std::size_t`. -/
def lookupByWeightOffset (offset : Nat) : Except ActionException ActionFactory :=
  match findRunning (fun accum (f : ActionFactory) => (accum + f.size) % 18446744073709551616)
      (offset ≤ ·) 0 r.factories with
  | none => .error ⟨s!"Weight offset {offset} is outside of this registy"⟩
  | some f => .ok f

theorem known_of_nil : ∀ inject ∈ ([] : List String), inject = "table" :=
  fun _ h => absurd h List.not_mem_nil

theorem known_of_table : ∀ inject ∈ ["table"], inject = "table" := fun _ => List.mem_singleton.mp

def makeCustomSqlAction (name sql : String) (weight : UInt64) : Outcome Nat :=
  r.insert ⟨name, fun _ => .customSql ⟨sql, [], known_of_nil⟩, weight⟩

def makeCustomTableSqlAction (name sql : String) (weight : UInt64) : Outcome Nat :=
  r.insert ⟨name, fun _ => .customSql ⟨sql, ["table"], known_of_table⟩, weight⟩

end ActionRegistry

def createNormalTable : ActionFactory :=
  ⟨"create_normal_table", fun config => .createTable config.ddl, 100⟩

def dropTable : ActionFactory := ⟨"drop_table", fun config => .dropTable config.ddl, 100⟩

def alterTable : ActionFactory :=
  ⟨"alter_table", fun config => .alterTable config.ddl .allSet, 100⟩

def insertSomeData : ActionFactory := ⟨"insert_some_data", fun _ => .insertData none 10, 1000⟩

def deleteSomeData : ActionFactory :=
  ⟨"delete_some_data", fun config => .deleteData config.dml, 1000⟩

def updateOneRow : ActionFactory := ⟨"update_one_row", fun _ => .updateOneRow, 1000⟩

def initializeDefaultRegisty : ActionRegistry :=
  [createNormalTable, dropTable, alterTable, insertSomeData, deleteSomeData,
    updateOneRow].foldl (fun ar f => (ar.insert f).2) {}

end PStress.Registry
