import PStress.Actions.Definitions
import PStress.Actions.Statements

/-! The statement a CREATE sends and the table it stores, and the definitions of the columns that
an ALTER adds. -/
namespace PStress.Actions
open Interaction Metadata Program Text
variable {ι : Type} [DecidableEq ι] {i : ι} {steps : Nat} {D : Int → Int → Prop}

section Names

/-- Columns as a CREATE draws them: each can be told from its definition, and the first is a
key. -/
theorem draws_legible (n : Nat) : Draws D (fun columns => columns.length = n ∧
      (∀ col ∈ columns, Definable col) ∧ ∀ col, columns[0]? = some col → col.primary_key = true)
    (CreateTable.randomColumns n []) := by
  have hcolumns := draws_columns (D := D)
    (P := fun k col => Definable col ∧ (k = 0 → col.primary_key = true)) (fun k => ?column) n []
  case column =>
    cases k with
    | zero => exact draws_serial fun number => ⟨definable_serial number, fun _ => rfl⟩
    | succ k => exact AlterTable.draws_definable.weaken fun col hc => ⟨hc.1, fun h => by cases h⟩
  refine hcolumns.weaken fun columns hnew => ?_
  obtain ⟨new, rfl, hlen, hnew⟩ := hnew
  refine ⟨hlen, fun col hc => ?_, fun col hc => (hnew 0 col hc).2 rfl⟩
  obtain ⟨k, hk⟩ := List.mem_iff_getElem?.mp hc
  exact (hnew k col hk).1

end Names

section Runs
variable {config : DdlConfig} {possibleCommands : BitFlags} {w w' : World ι}

namespace CreateTable
variable {number count : Int} {columns : List Column}

omit [DecidableEq ι] in
/-- The table of a CREATE can be read back, and has keys unless it has no columns. -/
theorem Chooses.legible (h : Chooses config w number count columns) :
    Legible ⟨s!"foo{number}", columns⟩ ∧
      ((Table.mk s!"foo{number}" columns).keys ≠ [] ↔ count ≠ 0) := by
  obtain ⟨rest, rest', _, hnumber, hcount, hcolumns⟩ := h
  obtain ⟨hlen, hdefinable, hfirst⟩ := (draws_legible (toSize count)).of_run hcolumns
  have hname : Word s!"foo{number}" := by
    obtain ⟨hl, _⟩ := hnumber.between (by decide) (by decide) (by decide)
    obtain ⟨n, rfl⟩ := Int.eq_ofNat_of_zero_le (by omega : 0 ≤ number)
    exact word_number (show Word "foo" from ⟨by decide, List.all_eq_true.mp rfl⟩) n
  refine ⟨⟨hname, hdefinable⟩, ?_⟩
  rw [Ne, Ne, ← toSize_eq_zero hcount.1, ← hlen, List.length_eq_zero_iff, not_iff_not]
  constructor
  · intro hkeys
    cases columns with
    | nil => rfl
    | cons col columns => simp [Table.keys, hfirst col rfl] at hkeys
  · rintro rfl
    rfl

end CreateTable

private theorem AlterTable.mem_foldl {st : Progress} {text : String}
    (h : text ∈ st.alterSubcommands) (clauses : List Clause) :
    text ∈ (clauses.foldl Progress.apply st).alterSubcommands := by
  induction clauses generalizing st with
  | nil => exact h
  | cons clause clauses ih =>
    apply ih
    cases clause with
    | addColumn | setAccessMethod => exact List.mem_append_left _ h
    | dropColumn k =>
      simp only [Progress.apply]
      split
      · exact List.mem_append_left _ h
      · exact h
    | changeColumn =>
      simp only [Progress.apply]
      split
      · exact List.mem_append_left _ h
      · exact h
    | nothing => exact h

private theorem AlterTable.definition_mem {clauses : List Clause} {col : Column}
    (h : .addColumn col ∈ clauses) (st : Progress) :
    "ADD COLUMN " ++ columnDefinition col ∈ (clauses.foldl Progress.apply st).alterSubcommands := by
  induction clauses generalizing st with
  | nil => cases h
  | cons clause clauses ih =>
    rcases List.mem_cons.mp h with rfl | h
    · exact mem_foldl (List.mem_append_right _ (List.mem_singleton.mpr rfl)) clauses
    · exact ih h (st.apply clause)

theorem AlterTable.mem_added {clauses : List Clause} {col : Column} (h : col ∈ added clauses) :
    .addColumn col ∈ clauses := by
  induction clauses with
  | nil => cases h
  | cons clause clauses ih =>
    cases clause with
    | addColumn column =>
      rcases List.mem_cons.mp h with rfl | h
      · exact List.mem_cons_self
      · exact List.mem_cons_of_mem _ (ih h)
    | dropColumn | changeColumn | setAccessMethod | nothing => exact List.mem_cons_of_mem _ (ih h)

private theorem AlterTable.draws_added (config : DdlConfig) (commands : List AlterSubcommand)
    (n columns : Nat) (changingAm : Bool) :
    Draws D (fun clauses => ∀ col ∈ added clauses, Definable col ∧ col.primary_key = false)
      (drawClauses config commands n columns changingAm) := by
  induction n generalizing columns changingAm with
  | zero => exact .done fun col hc => by cases hc
  | succ n ih =>
    refine (draws_clause AlterTable.draws_definable config commands columns changingAm).bind
      fun clause hc => ?_
    refine (ih _ _).bind fun clauses hcs => .done fun col hcol => ?_
    cases clause with
    | addColumn column =>
      rcases List.mem_cons.mp hcol with rfl | hcol
      · exact hc.1 col rfl
      · exact hcs col hcol
    | dropColumn | changeColumn | setAccessMethod | nothing => exact hcs col hcol

/-- The statement of a CREATE defines the table it stores just if the number drawn for the columns
is not 0, and the definitions in the statement of an ALTER are those of the columns it adds. -/
theorem statement_defines_table_iff (config : DdlConfig) (possibleCommands : BitFlags) :
    (∀ (w w' : World ι) (o : Except Halt Unit) (sql : String),
      (CreateTable.execute config).run (recorded i steps) (w, []) = some (o, w', [sql]) →
      ∃ number count columns p, CreateTable.Chooses config w number count columns ∧
        p.value = ⟨s!"foo{number}", columns⟩ ∧
        w'.data.tables = Function.update w.data.tables w.data.tableCount (some p) ∧
        (AlterTable.NamesDistinct columns → (Defines sql p.value ↔ count ≠ 0))) ∧
    ∀ (w w' : World ι) (o : Except Halt Unit) (sql : String),
      (AlterTable.execute config possibleCommands).run (recorded i steps) (w, []) =
        some (o, w', [sql]) →
      ∃ idx p clauses texts, Chooses config possibleCommands w idx p clauses ∧
        sql = AlterTable.statement p.value texts ∧
        w'.data.tables = Function.update w.data.tables idx (some ⟨p.id, { p.value with
          columns := AlterTable.remaining p.value.columns clauses ++ AlterTable.added clauses }⟩) ∧
        ∀ col ∈ AlterTable.added clauses, "ADD COLUMN " ++ columnDefinition col ∈ texts ∧
          readColumnDefinition (columnDefinition col).toList = some col := by
  constructor
  · intro w w' o sql hrun
    obtain ⟨number, count, columns, p, hchooses, hp, hsql, htables, _⟩ :=
      sent_of_run (creates config w) hrun
    obtain ⟨hlegible, hkeys⟩ := hchooses.legible
    refine ⟨number, count, columns, p, hchooses, hp, htables, fun hnames => ?_⟩
    obtain rfl : sql = CreateTable.statement p.value := by simpa using hsql
    rw [hp, defines_statement_iff hlegible hnames, hkeys]
  · intro w w' o sql hrun
    obtain ⟨idx, p, clauses, hchooses, hsql, htables, _⟩ :=
      sent_of_run (alters config possibleCommands w) hrun
    refine ⟨idx, p, clauses, _, hchooses, by simpa using hsql, htables, fun col hcol => ?_⟩
    refine ⟨AlterTable.definition_mem (AlterTable.mem_added hcol) _, ?_⟩
    obtain ⟨_, _, _, _, _, _, _, hclauses⟩ := hchooses
    obtain ⟨hdefinable, hkey⟩ := (AlterTable.draws_added _ _ _ _ _).of_run hclauses col hcol
    rw [readColumnDefinition_eq hdefinable, Column.unkeyed, ← hkey]

def emptyWorld (inputs : List Input) : World (Fin 1) := ⟨GapFree.empty.data, .closed, inputs⟩

/-- A table with two columns is created, and a column is added to another table. -/
theorem statement_defines_table_two :
    (∃ (w' : World (Fin 1)) (p : TablePtr Table),
      (CreateTable.execute {}).run (recorded 0 6) (emptyWorld [.drawn 7, .drawn 2, .drawn 1,
        .drawn 3, .drawn 1, .drawn 20, .sql (.returned .success)], []) = some (.ok (), w',
          ["CREATE TABLE foo7 (col1 SERIAL,\ncol3 CHAR(20),\nPRIMARY KEY (col1));"]) ∧
      w'.data.tables 0 = some p ∧
      Defines "CREATE TABLE foo7 (col1 SERIAL,\ncol3 CHAR(20),\nPRIMARY KEY (col1));" p.value) ∧
    ∃ w' : World (Fin 1), (AlterTable.execute {} .allSet).run (recorded 0 2)
        (AlterTable.addOne (.returned .success), []) =
          some (.ok (), w', ["ALTER TABLE foo2 \n ADD COLUMN col7 CHAR(20);"]) ∧
      readColumnDefinition (columnDefinition ⟨"col7", .CHAR, 20, false, false⟩).toList =
        some ⟨"col7", .CHAR, 20, false, false⟩ := by
  constructor
  · obtain ⟨⟨o, w', log⟩, hrun, ho⟩ := Option.map_eq_some_iff.mp (show
      ((CreateTable.execute {}).run (recorded (0 : Fin 1) 6) (emptyWorld [.drawn 7, .drawn 2,
        .drawn 1, .drawn 3, .drawn 1, .drawn 20, .sql (.returned .success)], [])).map
          (fun x => (x.1, x.2.2, (x.2.1.data.tables 0).map TablePtr.value)) = some (.ok (),
            ["CREATE TABLE foo7 (col1 SERIAL,\ncol3 CHAR(20),\nPRIMARY KEY (col1));"],
            some ⟨"foo7", [⟨"col1", .INT, 0, true, true⟩, ⟨"col3", .CHAR, 20, false, false⟩]⟩) by
        decide +kernel)
    obtain ⟨rfl, rest⟩ := Prod.mk.inj ho
    obtain ⟨rfl, hvalue⟩ := Prod.mk.inj rest
    obtain ⟨number, count, columns, p, hchooses, hp, htables, hiff⟩ :=
      (statement_defines_table_iff {} .allSet).1 _ _ _ _ hrun
    have hslot : w'.data.tables 0 = some p := by
      rw [htables]
      rfl
    obtain ⟨_, _, hin, _⟩ := hchooses
    cases hin
    have hcolumns :
        columns = [⟨"col1", .INT, 0, true, true⟩, ⟨"col3", .CHAR, 20, false, false⟩] := by
      rw [hslot] at hvalue
      exact (Table.mk.inj (hp.symm.trans (Option.some.inj hvalue))).2
    exact ⟨w', p, hrun, hslot, (hiff (by rw [hcolumns]; decide)).mpr (by decide)⟩
  · obtain ⟨⟨o, w', log⟩, hrun, ho⟩ := Option.map_eq_some_iff.mp (show
      ((AlterTable.execute {} .allSet).run (recorded (0 : Fin 1) 2)
        (AlterTable.addOne (.returned .success), [])).map (fun x => (x.1, x.2.2)) =
          some (.ok (), ["ALTER TABLE foo2 \n ADD COLUMN col7 CHAR(20);"]) by decide +kernel)
    obtain ⟨rfl, rfl⟩ := Prod.mk.inj ho
    obtain ⟨idx, p, clauses, texts, hchooses, _, _, hread⟩ :=
      (statement_defines_table_iff {} .allSet).2 _ _ _ _ hrun
    obtain ⟨rfl, rfl, rfl⟩ := (AlterTable.chooses_addOne _).unique hchooses
    exact ⟨w', hrun, (hread _ List.mem_cons_self).2⟩

/-- With a `max_column_count` of `2^32` the bounds become 2 and 0, and the statement of a table
without columns has no key clause. -/
theorem keyless_statement : ∃ (config : DdlConfig) (w w' : World (Fin 1)) (sql : String)
    (p : TablePtr Table), 2 ≤ config.max_column_count ∧
      (CreateTable.execute config).run (recorded 0 6) (w, []) = some (.ok (), w', [sql]) ∧
      w'.data.tables 0 = some p ∧ AlterTable.NamesDistinct p.value.columns ∧
      ¬ Defines sql p.value := by
  obtain ⟨⟨o, w', log⟩, hrun, ho⟩ := Option.map_eq_some_iff.mp (show
    ((CreateTable.execute { max_column_count := 4294967296 }).run (recorded (0 : Fin 1) 6)
      (emptyWorld [.drawn 7, .drawn 0, .sql (.returned .success)], [])).map
        (fun x => (x.1, x.2.2, (x.2.1.data.tables 0).map TablePtr.value)) =
      some (.ok (), ["CREATE TABLE foo7 ();"], some ⟨"foo7", []⟩) by decide +kernel)
  obtain ⟨rfl, rest⟩ := Prod.mk.inj ho
  obtain ⟨rfl, hvalue⟩ := Prod.mk.inj rest
  obtain ⟨p, hslot, hp⟩ := Option.map_eq_some_iff.mp hvalue
  refine ⟨_, _, w', _, p, by decide, hrun, hslot, by rw [hp]; decide, ?_⟩
  rintro ⟨c, hread, _⟩
  have hnone : readCreation "CREATE TABLE foo7 ();".toList = none := by decide +kernel
  rw [hnone] at hread
  cases hread

end Runs
end PStress.Actions
