import PStress.Actions.Ddl

/-! The loop of `AlterTable` over its subcommands: its random choices, and what they make of the
table. -/
namespace PStress.Actions.AlterTable
open Interaction Program
variable (config : DdlConfig) (commands : List AlterSubcommand)

/-- How many columns a clause leaves of so many. -/
def Clause.left (columns : Nat) : Clause → Nat
  | .dropColumn k => if k < columns then columns - 1 else columns
  | .addColumn _ | .changeColumn | .setAccessMethod _ | .nothing => columns

def Clause.changesAm : Clause → Bool
  | .setAccessMethod _ => true
  | .addColumn _ | .dropColumn _ | .changeColumn | .nothing => false

/-- The random choices of the loop over the subcommands. -/
def drawClauses : Nat → Nat → Bool → Execution (List Clause)
  | 0, _, _ => done []
  | n + 1, columns, changingAm => do
    let clause ← drawClause config commands columns changingAm
    return clause :: (← drawClauses n (clause.left columns) (changingAm || clause.changesAm))

def remaining (columns : List Column) : List Clause → List Column
  | [] => columns
  | .dropColumn k :: clauses => remaining (columns.eraseIdx k) clauses
  | _ :: clauses => remaining columns clauses

def added : List Clause → List Column
  | [] => []
  | .addColumn column :: clauses => column :: added clauses
  | _ :: clauses => added clauses

variable (st : Progress)

private theorem apply_columns_length (clause : Clause) :
    (st.apply clause).columns.length = clause.left st.columns.length := by
  cases clause with
  | dropColumn k =>
    by_cases hk : k < st.columns.length
    · simp [Progress.apply, Clause.left, hk, List.length_eraseIdx]
    · simp [Progress.apply, Clause.left, hk]
  | changeColumn =>
    simp only [Progress.apply]
    split <;> rfl
  | _ => rfl

private theorem apply_changingAm (clause : Clause) :
    (st.apply clause).changingAm = (st.changingAm || clause.changesAm) := by
  cases clause with
  | setAccessMethod am => simp [Progress.apply, Clause.changesAm]
  | dropColumn | changeColumn =>
    simp only [Progress.apply, Clause.changesAm, Bool.or_false]
    split <;> rfl
  | _ => simp [Progress.apply, Clause.changesAm]

/-- The loop makes its random choices and does what they say. -/
theorem times_subcommand (n : Nat) : times (subcommand config commands) n st =
    drawClauses config commands n st.columns.length st.changingAm >>= fun clauses =>
      done (clauses.foldl Progress.apply st) := by
  induction n generalizing st with
  | zero => rfl
  | succ n ih =>
    simp only [times, subcommand, drawClauses, bind_assoc, pure_eq, done_bind, ih,
      apply_columns_length, apply_changingAm, List.foldl_cons]

theorem foldl_columns (clauses : List Clause) :
    (clauses.foldl Progress.apply st).columns = remaining st.columns clauses := by
  induction clauses generalizing st with
  | nil => rfl
  | cons clause clauses ih =>
    rw [List.foldl_cons, ih]
    cases clause with
    | dropColumn k =>
      by_cases hk : k < st.columns.length
      · simp [Progress.apply, remaining, hk]
      · simp [Progress.apply, remaining, hk, List.eraseIdx_of_length_le (Nat.not_lt.mp hk)]
    | changeColumn =>
      simp only [Progress.apply]
      split <;> rfl
    | _ => rfl

theorem foldl_newColumns (clauses : List Clause) :
    (clauses.foldl Progress.apply st).newColumns = st.newColumns ++ added clauses := by
  induction clauses generalizing st with
  | nil => simp [added]
  | cons clause clauses ih =>
    rw [List.foldl_cons, ih]
    cases clause with
    | addColumn column => simp [Progress.apply, added]
    | dropColumn | changeColumn =>
      simp only [Progress.apply]
      split <;> rfl
    | _ => rfl

end PStress.Actions.AlterTable
