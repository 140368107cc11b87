import PStress.Actions.AlterText
import PStress.Actions.Failure

/-! The statement an ALTER sends, read back, and the columns it stores. A column whose type the
statement changes is stored with its old type. -/
namespace PStress.Actions.AlterTable
open Interaction Metadata Program Text
variable {ι : Type} [DecidableEq ι] {i : ι} {steps : Nat} {D : Int → Int → Prop}

/-- What a clause adds can be told from its definition. -/
def Clause.Legible : Clause → Prop
  | .addColumn column => Definable column
  | .dropColumn _ | .changeColumn | .setAccessMethod _ | .nothing => True

/-- Clauses as the loop draws them, by the columns left and whether the access method was
changed. -/
def Drawable : Nat → Bool → List Clause → Prop
  | _, _, [] => True
  | columns, changingAm, clause :: clauses =>
    clause.Fits (fun _ _ => True) columns ∧ clause.Legible ∧
      (changingAm = true → clause.changesAm = false) ∧
      Drawable (clause.left columns) (changingAm || clause.changesAm) clauses

theorem draws_definable : Draws D (fun col => Definable col ∧ col.primary_key = false)
    (randomColumn false) :=
  draws_column fun number _ _ _ => ⟨definable_number number, rfl⟩

theorem Clause.legible {clause : Clause} (h : ∀ col, clause = .addColumn col → Definable col) :
    clause.Legible := by
  cases clause with
  | addColumn col => exact h col rfl
  | dropColumn | changeColumn | setAccessMethod | nothing => trivial

/-- What holds of any drawn column holds of one that a clause adds, and the access method is
changed at most once. -/
theorem draws_clause {P : Column → Prop} (hP : Draws D P (randomColumn false)) (config : DdlConfig)
    (commands : List AlterSubcommand) (columns : Nat) (changingAm : Bool) : Draws D
      (fun clause => (∀ col, clause = .addColumn col → P col) ∧
        (changingAm = true → clause.changesAm = false))
      (drawClause config commands columns changingAm) := by
  unfold drawClause
  refine (draws_randomSize (Nat.zero_le _)).bind fun _ _ => (draws_deref _).bind fun command _ => ?_
  cases command with
  | addColumn =>
    refine hP.bind fun c hc => .done ⟨fun col he => ?_, fun _ => rfl⟩
    cases he
    exact hc
  | changeColumn => exact .done ⟨nofun, fun _ => rfl⟩
  | dropColumn =>
    dsimp only
    split
    · exact .done ⟨nofun, fun _ => rfl⟩
    · have hdec : decrement columns = columns - 1 := decrement_of_pos (by omega)
      refine (draws_randomSize (by omega)).bind fun k _ => ?_
      split
      · exact .done ⟨nofun, fun _ => rfl⟩
      · exact .undefined
  | changeAccessMethod =>
    dsimp only
    split
    · exact .done ⟨nofun, fun _ => rfl⟩
    · rename_i ham
      exact (draws_randomSize (Nat.zero_le _)).bind fun _ _ => (draws_deref _).bind fun _ _ =>
        .done ⟨nofun, fun h => absurd h ham⟩

private theorem draws_clauses (config : DdlConfig) (commands : List AlterSubcommand)
    (n columns : Nat) (changingAm : Bool) : Draws (fun _ _ => True) (Drawable columns changingAm)
      (drawClauses config commands n columns changingAm) := by
  induction n generalizing columns changingAm with
  | zero => exact .done trivial
  | succ n ih =>
    have hclause := (draws_drawClause (D := fun _ _ => True) config commands columns changingAm).and
      (draws_clause (draws_definable.weaken fun _ hc => hc.1) config commands columns changingAm)
    refine hclause.bind fun clause hc => ?_
    exact (ih _ _).bind fun clauses hcs => .done ⟨hc.1, Clause.legible hc.2.1, hc.2.2, hcs⟩

private theorem Drawable.definable {columns : Nat} {changingAm : Bool} {clauses : List Clause}
    (h : Drawable columns changingAm clauses) : ∀ col ∈ added clauses, Definable col := by
  induction clauses generalizing columns changingAm with
  | nil => simp [added]
  | cons clause clauses ih =>
    obtain ⟨_, hlegible, _, hrest⟩ := h
    cases clause with
    | addColumn column => exact List.forall_mem_cons.mpr ⟨hlegible, ih hrest⟩
    | dropColumn | changeColumn | setAccessMethod | nothing => exact ih hrest

section Runs
variable {config : DdlConfig} {possibleCommands : BitFlags} {w w' : World ι} {idx : Nat}
  {p : TablePtr Table} {clauses : List Clause}

omit [DecidableEq ι] in
theorem drawable_of_chooses (h : Chooses config possibleCommands w idx p clauses) :
    Drawable p.value.columns.length false clauses := by
  obtain ⟨v, n, rest, rest', _, _, _, hc⟩ := h
  exact (draws_clauses _ _ _ _ _).of_run hc

omit [DecidableEq ι] in
/-- The subcommands are read back from a statement just if all names in it are words. -/
theorem readAlter_iff (h : Chooses config possibleCommands w idx p clauses) :
    readAlter (statement p.value (subcommandTexts p.value.columns clauses)).toList =
        some (p.value.name, subcommands p.value.columns clauses) ↔
      Told p.value (subcommands p.value.columns clauses) := by
  refine ⟨told_of_readAlter, fun ht => readAlter_statement p.value ht.1 ?_⟩
  have htexts := clauseTexts ⟨p.value.columns, [], [], false⟩
    (drawable_of_chooses h).definable ht.2 .nil
  rwa [List.nil_append] at htexts

/-- The statement of an ALTER reads as the subcommands drawn just if the names in it are words.
Where they are, an ALTER that succeeds stores the columns its statement makes on the server just if
every column whose type the statement changes is dropped by a later subcommand of it. -/
theorem stored_eq_server_iff {sql : String}
    (hrun : (execute config possibleCommands).run (recorded i steps) (w, []) =
      some (.ok (), w', [sql])) :
    ∃ idx p clauses stored, Chooses config possibleCommands w idx p clauses ∧
      w'.data.tables idx = some stored ∧
      (readAlter sql.toList = some (p.value.name, subcommands p.value.columns clauses) ↔
        Told p.value (subcommands p.value.columns clauses)) ∧
      (Told p.value (subcommands p.value.columns clauses) →
        NamesDistinct (p.value.columns ++ added clauses) →
        ((∃ subs, readAlter sql.toList = some (p.value.name, subs) ∧
            stored.value.columns.map definition =
              subs.foldl Subcommand.apply (p.value.columns.map definition)) ↔
          ∀ col ∈ changed p.value.columns clauses, col ∉ remaining p.value.columns clauses)) := by
  obtain ⟨idx, p, clauses, hchooses, hsql, hstored⟩ :=
    sent_of_run (alters config possibleCommands w) hrun
  obtain rfl : sql = statement p.value (subcommandTexts p.value.columns clauses) := by
    simpa using hsql
  have hslot : w'.data.tables idx = some ⟨p.id, { p.value with
      columns := altered p.value.columns clauses }⟩ := by
    rw [hstored.1]
    simp
  refine ⟨idx, p, clauses, _, hchooses, hslot, readAlter_iff hchooses, fun htold hnames => ?_⟩
  rw [← server_eq_iff hnames, (readAlter_iff hchooses).mpr htold]
  constructor
  · rintro ⟨subs, hread, heq⟩
    obtain ⟨_, rfl⟩ := Prod.mk.inj (Option.some.inj hread)
    exact heq.symm
  · exact fun heq => ⟨_, rfl, heq.symm⟩

def alterSecond (rest : List Input) : World (Fin 1) :=
  ⟨twoTables.data, .closed, .drawn 1 :: .drawn 1 :: rest⟩

def addOne (r : SqlResult) : World (Fin 1) :=
  alterSecond [.drawn 0, .drawn 7, .drawn 1, .drawn 20, .sql r]

theorem chooses_addOne (r : SqlResult) : Chooses {} .allSet (addOne r) 1 ⟨1, "foo2", twoColumns⟩
    [.addColumn { name := "col7", type := .CHAR, length := 20 }] := by
  refine ⟨1, 1, _, [.sql r], rfl, rfl, rfl, ?_⟩
  rcases r with (_ | _ | _) | _ <;> decide +kernel

def wideTable : Table := ⟨"foo3", twoColumns ++ [⟨"col5", .INT, 0, false, false⟩]⟩

def oneWide : GapFree Table where
  tables := [⟨0, wideTable⟩]
  movedToMap _ := npos
  nextTable := 1
  fits := by decide
  distinct := by decide
  older := by decide

def alterWide (r : SqlResult) : World (Fin 1) :=
  ⟨oneWide.data, .closed, [.drawn 0, .drawn 3, .drawn 0, .drawn 7, .drawn 1, .drawn 20,
    .drawn 1, .drawn 2, .drawn 3, .drawn 1, .sql r]⟩

def wideClauses : List Clause :=
  [.addColumn { name := "col7", type := .CHAR, length := 20 }, .dropColumn 2,
    .setAccessMethod "tde_heap"]

def wideStatement : String :=
  "ALTER TABLE foo3 \n ADD COLUMN col7 CHAR(20),\nDROP COLUMN col5,\nSET ACCESS METHOD tde_heap;"

theorem chooses_alterWide (r : SqlResult) :
    Chooses {} .allSet (alterWide r) 0 ⟨0, wideTable⟩ wideClauses := by
  refine ⟨0, 3, _, [.sql r], rfl, rfl, rfl, ?_⟩
  rcases r with (_ | _ | _) | _ <;> decide +kernel

/-- What the statement says is what is stored. -/
theorem stored_eq_server_add : ∃ (w' : World (Fin 1)) (stored : TablePtr Table)
    (subs : List Subcommand),
    (execute {} .allSet).run (recorded 0 2) (alterWide (.returned .success), []) =
        some (.ok (), w', [wideStatement]) ∧
      readAlter wideStatement.toList = some ("foo3", subs) ∧ subs.length = 3 ∧
      w'.data.tables 0 = some stored ∧
      stored.value.columns.map definition =
        subs.foldl Subcommand.apply (wideTable.columns.map definition) := by
  obtain ⟨⟨o, w', log⟩, hrun, ho⟩ := Option.map_eq_some_iff.mp (show
    ((execute {} .allSet).run (recorded (0 : Fin 1) 2) (alterWide (.returned .success), [])).map
        (fun x => (x.1, x.2.2)) = some (.ok (), [wideStatement]) by decide +kernel)
  obtain ⟨rfl, rfl⟩ := Prod.mk.inj ho
  obtain ⟨idx, p, clauses, stored, hc, hslot, hread, hiff⟩ := stored_eq_server_iff hrun
  obtain ⟨rfl, rfl, rfl⟩ := (chooses_alterWide _).unique hc
  have htold : Told wideTable (subcommands wideTable.columns wideClauses) := by decide
  obtain ⟨subs, hsubs, heq⟩ := (hiff htold (by decide)).mpr (by decide)
  obtain ⟨_, rfl⟩ := Prod.mk.inj (Option.some.inj ((hread.mpr htold).symm.trans hsubs))
  exact ⟨w', stored, _, hrun, hsubs, rfl, hslot, heq⟩

/-- A column whose type the statement changes is stored as it was. -/
theorem type_change_not_stored : ∃ w' : World (Fin 1),
    (execute {} .allSet).run (recorded 0 2) (alterSecond
      [.drawn 2, .sql (.returned .success)], []) =
        some (.ok (), w', ["ALTER TABLE foo2 \n ALTER COLUMN col1 TYPE VARCHAR(32);"]) ∧
      (w'.data.tables 1).map (fun p => p.value.columns) = some twoColumns ∧
      NamesDistinct twoColumns ∧
      ∃ subs, readAlter "ALTER TABLE foo2 \n ALTER COLUMN col1 TYPE VARCHAR(32);".toList =
          some ("foo2", subs) ∧
        subs.foldl Subcommand.apply (twoColumns.map definition) ≠ twoColumns.map definition := by
  obtain ⟨⟨o, w', log⟩, hrun, ho⟩ := Option.map_eq_some_iff.mp (show
    ((execute {} .allSet).run (recorded (0 : Fin 1) 2) (alterSecond
      [.drawn 2, .sql (.returned .success)], [])).map
        (fun x => (x.1, x.2.2, (x.2.1.data.tables 1).map fun p => p.value.columns)) =
      some (.ok (), ["ALTER TABLE foo2 \n ALTER COLUMN col1 TYPE VARCHAR(32);"],
        some twoColumns) by decide +kernel)
  obtain ⟨rfl, rest⟩ := Prod.mk.inj ho
  obtain ⟨rfl, hcolumns⟩ := Prod.mk.inj rest
  have hread : readAlter "ALTER TABLE foo2 \n ALTER COLUMN col1 TYPE VARCHAR(32);".toList =
      some ("foo2", [.alterColumn "col1".toList .VARCHAR 32]) := by decide +kernel
  exact ⟨w', hrun, hcolumns, by decide, _, hread, by decide⟩

end Runs
end PStress.Actions.AlterTable
