import PStress.Actions.Clauses

/-! The subcommands of an `ALTER TABLE` and what they do to the columns of a table. -/
namespace PStress.Actions.AlterTable

/-- A column as a statement defines it. -/
structure Definition where
  name : List Char
  type : ColumnType
  length : Nat
  deriving DecidableEq, Repr

inductive Subcommand where
  | addColumn (definition : Definition)
  | dropColumn (name : List Char)
  | alterColumn (name : List Char) (type : ColumnType) (length : Nat)
  | setAccessMethod (am : List Char)
  deriving DecidableEq, Repr

def Subcommand.apply (columns : List Definition) : Subcommand → List Definition
  | .addColumn definition => columns ++ [definition]
  | .dropColumn name => columns.filter fun d => d.name != name
  | .alterColumn name type length =>
    columns.map fun d => if d.name = name then { d with type, length } else d
  | .setAccessMethod _ => columns

def definition (col : Column) : Definition := ⟨col.name.toList, col.type, col.length⟩

section Clauses

/-- The subcommand of a clause, if it has one. -/
def Clause.subcommand (columns : List Column) : Clause → Option Subcommand
  | .addColumn column => some (.addColumn (definition column))
  | .dropColumn k => columns[k]?.map fun col => .dropColumn col.name.toList
  | .changeColumn => (columns.find? numeric).map fun col =>
    .alterColumn col.name.toList .VARCHAR 32
  | .setAccessMethod am => some (.setAccessMethod am.toList)
  | .nothing => none

def Clause.after (columns : List Column) : Clause → List Column
  | .dropColumn k => columns.eraseIdx k
  | .addColumn _ | .changeColumn | .setAccessMethod _ | .nothing => columns

theorem after_subset (columns : List Column) (clause : Clause) :
    clause.after columns ⊆ columns := by
  cases clause with
  | dropColumn k => exact (List.eraseIdx_sublist columns k).subset
  | addColumn | changeColumn | setAccessMethod | nothing => exact List.Subset.refl _

def subcommands (columns : List Column) : List Clause → List Subcommand
  | [] => []
  | clause :: clauses =>
    (clause.subcommand columns).toList ++ subcommands (clause.after columns) clauses

theorem remaining_cons (columns : List Column) (clause : Clause) (clauses : List Clause) :
    remaining columns (clause :: clauses) = remaining (clause.after columns) clauses := by
  cases clause <;> rfl

theorem apply_columns (st : Progress) (clause : Clause) :
    (st.apply clause).columns = clause.after st.columns := by
  have h := foldl_columns st [clause]
  rwa [remaining_cons] at h

end Clauses
end PStress.Actions.AlterTable
