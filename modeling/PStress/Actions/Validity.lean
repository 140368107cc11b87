import PStress.Actions.Statements

/-! Which statements of an ALTER a server can accept. Column 0 is the first numeric column, so
every subcommand that changes a column's type names it: two of them make a statement that no
server accepts, and so do clauses that are all passed over. -/
namespace PStress.Actions.AlterTable
open Interaction Metadata Program Text
variable {ι : Type} [DecidableEq ι] {i : ι} {steps : Nat}

namespace Subcommand

def column : Subcommand → Option (List Char)
  | .addColumn definition => some definition.name
  | .dropColumn name | .alterColumn name _ _ => some name
  | .setAccessMethod _ => none

/-- The column that has to be there before the statement. -/
def existing : Subcommand → Option (List Char)
  | .dropColumn name | .alterColumn name _ _ => some name
  | .addColumn _ | .setAccessMethod _ => none

def changesAm : Subcommand → Bool
  | .setAccessMethod _ => true
  | .addColumn _ | .dropColumn _ | .alterColumn .. => false

end Subcommand

/-- A statement that the server can accept for a table with these columns. -/
structure Acceptable (columns : List Column) (subs : List Subcommand) : Prop where
  nonempty : subs ≠ []
  existing : ∀ sub ∈ subs, ∀ name, sub.existing = some name →
    ∃ col ∈ columns, col.name.toList = name
  once : (subs.filterMap Subcommand.column).Nodup
  key : ∀ col, columns.head? = some col → .dropColumn col.name.toList ∉ subs
  accessMethod : subs.countP Subcommand.changesAm ≤ 1

def dropped (columns : List Column) : List Clause → List Column
  | [] => []
  | .dropColumn k :: clauses => columns[k]?.toList ++ dropped (columns.eraseIdx k) clauses
  | _ :: clauses => dropped columns clauses

section Lists
variable {columns rest : List Column} {clauses : List Clause} {key : Column}

/-- Columns that are dropped or changed were there before. -/
theorem exists_of_existing {sub : Subcommand} {name : List Char}
    (hs : sub ∈ subcommands columns clauses) (hn : sub.existing = some name) :
    ∃ col ∈ columns, col.name.toList = name := by
  induction clauses generalizing columns with
  | nil => cases hs
  | cons clause clauses ih =>
    rcases List.mem_append.mp hs with hs | hs
    · cases clause with
      | dropColumn k =>
        obtain ⟨col, hk, rfl⟩ := Option.map_eq_some_iff.mp (Option.mem_toList.mp hs)
        exact ⟨col, List.mem_of_getElem? hk, Option.some.inj hn⟩
      | changeColumn =>
        obtain ⟨col, hf, rfl⟩ := Option.map_eq_some_iff.mp (Option.mem_toList.mp hs)
        exact ⟨col, List.mem_of_find?_eq_some hf, Option.some.inj hn⟩
      | addColumn | setAccessMethod =>
        obtain rfl := Option.some.inj (Option.mem_toList.mp hs)
        cases hn
      | nothing => cases hs
    · obtain ⟨col, hc, hname⟩ := ih hs
      exact ⟨col, after_subset columns clause hc, hname⟩

private theorem exists_of_dropColumn {name : List Char}
    (hs : .dropColumn name ∈ subcommands columns clauses) :
    ∃ col ∈ dropped columns clauses, col.name.toList = name := by
  induction clauses generalizing columns with
  | nil => cases hs
  | cons clause clauses ih =>
    rcases List.mem_append.mp hs with hs | hs
    · cases clause with
      | dropColumn k =>
        obtain ⟨col, hk, he⟩ := Option.map_eq_some_iff.mp (Option.mem_toList.mp hs)
        refine ⟨col, List.mem_append_left _ (Option.mem_toList.mpr hk), ?_⟩
        exact Subcommand.dropColumn.inj he
      | changeColumn =>
        obtain ⟨col, _, he⟩ := Option.map_eq_some_iff.mp (Option.mem_toList.mp hs)
        cases he
      | addColumn | setAccessMethod => cases Option.mem_toList.mp hs
      | nothing => cases hs
    · obtain ⟨col, hc, hname⟩ := ih hs
      refine ⟨col, ?_, hname⟩
      cases clause with
      | dropColumn k => exact List.mem_append_right _ hc
      | addColumn | changeColumn | setAccessMethod | nothing => exact hc

private theorem countP_changesAm (columns : List Column) (clauses : List Clause) :
    (subcommands columns clauses).countP Subcommand.changesAm =
      clauses.countP Clause.changesAm := by
  induction clauses generalizing columns with
  | nil => rfl
  | cons clause clauses ih =>
    rw [subcommands, List.countP_append, ih, List.countP_cons, Nat.add_comm]
    congr 1
    cases clause with
    | dropColumn k =>
      simp only [Clause.subcommand, Clause.changesAm]
      cases columns[k]? <;> rfl
    | changeColumn =>
      simp only [Clause.subcommand, Clause.changesAm]
      cases columns.find? numeric <;> rfl
    | addColumn | setAccessMethod | nothing => rfl

private theorem Drawable.countP_changesAm {n : Nat} {changingAm : Bool}
    (h : Drawable n changingAm clauses) :
    clauses.countP Clause.changesAm + changingAm.toNat ≤ 1 := by
  induction clauses generalizing n changingAm with
  | nil => cases changingAm <;> decide
  | cons clause clauses ih =>
    obtain ⟨_, _, ham, hrest⟩ := h
    have hle := ih hrest
    rw [List.countP_cons]
    cases hc : clause.changesAm
    · simpa [hc] using hle
    · cases changingAm with
      | true => simp [ham rfl] at hc
      | false => simpa [hc] using hle

private theorem dropColumn_key_mem (h : .dropColumn 0 ∈ clauses) :
    .dropColumn key.name.toList ∈ subcommands (key :: rest) clauses := by
  induction clauses generalizing rest with
  | nil => cases h
  | cons clause clauses ih =>
    rw [subcommands, List.mem_append]
    rcases List.mem_cons.mp h with rfl | hm
    · exact .inl (by simp [Clause.subcommand])
    · cases clause with
      | dropColumn k =>
        cases k with
        | zero => exact .inl (by simp [Clause.subcommand])
        | succ k => exact .inr (ih hm)
      | addColumn | changeColumn | setAccessMethod | nothing => exact .inr (ih hm)

private theorem dropped_perm (columns : List Column) (clauses : List Clause) :
    (remaining columns clauses ++ dropped columns clauses).Perm columns := by
  induction clauses generalizing columns with
  | nil => simp [remaining, dropped]
  | cons clause clauses ih =>
    cases clause with
    | dropColumn k =>
      rw [remaining, dropped]
      cases hk : columns[k]? with
      | none =>
        rw [List.eraseIdx_of_length_le (List.getElem?_eq_none_iff.mp hk)]
        exact ih columns
      | some col =>
        have hcol := List.getElem?_eq_some_iff.mp hk
        obtain ⟨hlt, rfl⟩ := hcol
        calc remaining (columns.eraseIdx k) clauses ++
              ((some columns[k]).toList ++ dropped (columns.eraseIdx k) clauses)
            _ = remaining (columns.eraseIdx k) clauses ++
              columns[k] :: dropped (columns.eraseIdx k) clauses := rfl
            List.Perm _ (columns[k] :: (remaining (columns.eraseIdx k) clauses ++
              dropped (columns.eraseIdx k) clauses)) := List.perm_middle
            List.Perm _ (columns[k] :: columns.eraseIdx k) := (ih _).cons _
            List.Perm _ columns := List.getElem_cons_eraseIdx_perm hlt
    | addColumn | changeColumn | setAccessMethod | nothing => exact ih columns

end Lists

section Key
variable {rest : List Column} {clauses : List Clause} {key : Column}

private theorem find?_key (hn : numeric key = true) : (key :: rest).find? numeric = some key :=
  List.find?_cons_of_pos hn

private theorem named_perm (hn : numeric key = true) (hk : .dropColumn 0 ∉ clauses) :
    ((subcommands (key :: rest) clauses).filterMap Subcommand.column).Perm
      ((List.replicate (clauses.count .changeColumn) key ++
        (dropped (key :: rest) clauses ++ added clauses)).map fun col => col.name.toList) := by
  induction clauses generalizing rest with
  | nil => simp [subcommands, dropped, added]
  | cons clause clauses ih =>
    have hrest : .dropColumn 0 ∉ clauses := fun h => hk (List.mem_cons_of_mem clause h)
    rw [subcommands, List.filterMap_append]
    cases clause with
    | dropColumn k =>
      cases k with
      | zero => exact absurd List.mem_cons_self hk
      | succ k =>
        have hrec := @ih (rest.eraseIdx k) hrest
        simp only [Clause.subcommand, Clause.after, dropped, added, List.getElem?_cons_succ,
          List.eraseIdx_cons_succ]
        rw [List.count_cons_of_ne (by simp)]
        cases rest[k]? with
        | none => exact hrec
        | some col =>
          simp only [List.map_append] at hrec ⊢
          exact (hrec.cons col.name.toList).trans List.perm_middle.symm
    | addColumn col =>
      have hrec := @ih rest hrest
      simp only [Clause.subcommand, Clause.after, dropped, added]
      rw [List.count_cons_of_ne (by simp)]
      simp only [List.map_append, List.map_cons] at hrec ⊢
      rw [← List.append_assoc] at hrec ⊢
      exact (hrec.cons col.name.toList).trans List.perm_middle.symm
    | changeColumn =>
      simp only [Clause.subcommand, Clause.after, dropped, added, find?_key hn]
      rw [List.count_cons_self, List.replicate_succ]
      exact (ih hrest).cons _
    | setAccessMethod am =>
      simp only [Clause.subcommand, Clause.after, dropped, added]
      rw [List.count_cons_of_ne (by simp)]
      exact ih hrest
    | nothing =>
      simp only [Clause.subcommand, Clause.after, dropped, added]
      rw [List.count_cons_of_ne (by simp)]
      exact ih hrest

private theorem remaining_key (hk : .dropColumn 0 ∉ clauses) :
    ∃ rest', remaining (key :: rest) clauses = key :: rest' := by
  induction clauses generalizing rest with
  | nil => exact ⟨rest, rfl⟩
  | cons clause clauses ih =>
    have hrest : .dropColumn 0 ∉ clauses := fun h => hk (List.mem_cons_of_mem clause h)
    cases clause with
    | dropColumn k =>
      cases k with
      | zero => exact absurd List.mem_cons_self hk
      | succ k => exact ih hrest
    | addColumn | changeColumn | setAccessMethod | nothing => exact ih hrest

private theorem names_nodup (hk : .dropColumn 0 ∉ clauses)
    (hd : NamesDistinct (key :: rest ++ added clauses)) :
    ((key :: (dropped (key :: rest) clauses ++ added clauses)).map
      fun col => col.name.toList).Nodup := by
  obtain ⟨rest', hr⟩ : ∃ rest', remaining (key :: rest) clauses = key :: rest' :=
    remaining_key hk
  have hperm := (dropped_perm (key :: rest) clauses).append_right (added clauses)
  have hall : NamesDistinct (remaining (key :: rest) clauses ++ dropped (key :: rest) clauses ++
      added clauses) := (hperm.map _).nodup_iff.mpr hd
  rw [hr, List.append_assoc] at hall
  have hsub : (key :: (dropped (key :: rest) clauses ++ added clauses)).Sublist
      (key :: rest' ++ (dropped (key :: rest) clauses ++ added clauses)) :=
    (List.sublist_append_right rest' _).cons_cons key
  have hchars := List.Nodup.map (f := String.toList) (fun _ _ => String.toList_inj.mp)
    (hall.sublist hsub)
  rwa [List.map_map] at hchars

private theorem once_iff (hn : numeric key = true) (hk : .dropColumn 0 ∉ clauses)
    (hd : NamesDistinct (key :: rest ++ added clauses)) :
    ((subcommands (key :: rest) clauses).filterMap Subcommand.column).Nodup ↔
      clauses.count .changeColumn ≤ 1 := by
  have hnames := names_nodup hk hd
  rw [(named_perm hn hk).nodup_iff]
  generalize clauses.count .changeColumn = n
  rcases n with _ | _ | n
  · simpa using (List.nodup_cons.mp hnames).2
  · simpa using hnames
  · simp [List.replicate_succ]

private theorem nonempty_iff (hn : numeric key = true) (hk : .dropColumn 0 ∉ clauses)
    {changingAm : Bool} (hd : Drawable (key :: rest).length changingAm clauses) :
    subcommands (key :: rest) clauses ≠ [] ↔ ∃ clause ∈ clauses, clause ≠ .nothing := by
  induction clauses generalizing rest changingAm with
  | nil => simp [subcommands]
  | cons clause clauses ih =>
    have hrest : .dropColumn 0 ∉ clauses := fun h => hk (List.mem_cons_of_mem clause h)
    obtain ⟨hfit, _, _, hd⟩ := hd
    cases clause with
    | nothing =>
      simpa [subcommands, Clause.subcommand, Clause.after] using ih hrest hd
    | dropColumn k =>
      have hlt : k < (key :: rest).length := hfit.2.1
      simp [subcommands, Clause.subcommand, List.getElem?_eq_getElem hlt]
    | changeColumn => simp [subcommands, Clause.subcommand, find?_key hn]
    | addColumn | setAccessMethod => simp [subcommands, Clause.subcommand]

private theorem dropColumn_key_not_mem (hk : .dropColumn 0 ∉ clauses)
    (hd : NamesDistinct (key :: rest ++ added clauses)) :
    .dropColumn key.name.toList ∉ subcommands (key :: rest) clauses := by
  intro hs
  obtain ⟨col, hc, hname⟩ := exists_of_dropColumn hs
  refine (List.nodup_cons.mp (names_nodup hk hd)).1 ?_
  exact List.mem_map.mpr ⟨col, List.mem_append_left _ hc, hname⟩

/-- A statement can be accepted just if some clause is not passed over, at most one changes a
type, and the first column is not dropped. -/
private theorem acceptable_iff (hn : numeric key = true)
    (hd : NamesDistinct (key :: rest ++ added clauses))
    (hdraw : Drawable (key :: rest).length false clauses) :
    Acceptable (key :: rest) (subcommands (key :: rest) clauses) ↔
      (∃ clause ∈ clauses, clause ≠ .nothing) ∧ clauses.count .changeColumn ≤ 1 ∧
        .dropColumn 0 ∉ clauses := by
  constructor
  · intro h
    have hk : .dropColumn 0 ∉ clauses := fun hm => h.key key rfl (dropColumn_key_mem hm)
    exact ⟨(nonempty_iff hn hk hdraw).mp h.nonempty, (once_iff hn hk hd).mp h.once, hk⟩
  · rintro ⟨hsome, hcount, hk⟩
    refine ⟨(nonempty_iff hn hk hdraw).mpr hsome, fun sub hs name hname =>
      exists_of_existing hs hname, (once_iff hn hk hd).mpr hcount, ?_, ?_⟩
    · rintro col hc
      cases hc
      exact dropColumn_key_not_mem hk hd
    · rw [countP_changesAm]
      exact hdraw.countP_changesAm

end Key
section Runs
variable {config : DdlConfig} {possibleCommands : BitFlags} {w w' : World ι}

/-- The statement of an ALTER reads as the subcommands drawn just if the names in it are words.
Where they are, the server can accept it just if some clause is not passed over, at most one
changes a type, and none drops column 0. -/
theorem sent_acceptable_iff {o : Except Halt Unit} {sql : String}
    (hrun : (execute config possibleCommands).run (recorded i steps) (w, []) =
      some (o, w', [sql])) :
    ∃ idx p clauses, Chooses config possibleCommands w idx p clauses ∧
      (readAlter sql.toList = some (p.value.name, subcommands p.value.columns clauses) ↔
        Told p.value (subcommands p.value.columns clauses)) ∧
      (∀ key rest, p.value.columns = key :: rest → key.type = .INT →
        NamesDistinct (p.value.columns ++ added clauses) →
        Told p.value (subcommands p.value.columns clauses) →
          ((∃ subs, readAlter sql.toList = some (p.value.name, subs) ∧
              Acceptable p.value.columns subs) ↔
            (∃ clause ∈ clauses, clause ≠ .nothing) ∧
              clauses.count .changeColumn ≤ 1 ∧ .dropColumn 0 ∉ clauses)) := by
  obtain ⟨idx, p, clauses, hchooses, hsql, _⟩ :=
    sent_of_run (alters config possibleCommands w) hrun
  obtain rfl : sql = statement p.value (subcommandTexts p.value.columns clauses) := by
    simpa using hsql
  refine ⟨idx, p, clauses, hchooses, readAlter_iff hchooses, ?_⟩
  intro key rest hcolumns htype hnames htold
  have hdraw := drawable_of_chooses hchooses
  rw [(readAlter_iff hchooses).mpr htold]
  rw [hcolumns] at hnames hdraw ⊢
  rw [← acceptable_iff (by simp [numeric, htype]) hnames hdraw]
  constructor
  · rintro ⟨subs, hread, hacceptable⟩
    obtain ⟨_, rfl⟩ := Prod.mk.inj (Option.some.inj hread)
    exact hacceptable
  · exact fun hacceptable => ⟨_, rfl, hacceptable⟩

/-- A statement that adds a column, drops one and changes the access method can be accepted, also
when it fails. -/
theorem sent_acceptable_add : ∃ (w' : World (Fin 1)) (subs : List Subcommand),
    (execute {} .allSet).run (recorded 0 2) (alterWide (.returned .error), []) =
        some (.error .thrown, w', [wideStatement]) ∧
      readAlter wideStatement.toList = some ("foo3", subs) ∧ subs.length = 3 ∧
      Acceptable wideTable.columns subs := by
  obtain ⟨⟨o, w', log⟩, hrun, ho⟩ := Option.map_eq_some_iff.mp (show
    ((execute {} .allSet).run (recorded (0 : Fin 1) 2) (alterWide (.returned .error), [])).map
        (fun x => (x.1, x.2.2)) = some (.error .thrown, [wideStatement]) by decide +kernel)
  obtain ⟨rfl, rfl⟩ := Prod.mk.inj ho
  obtain ⟨idx, p, clauses, hc, hread, hiff⟩ := sent_acceptable_iff hrun
  obtain ⟨rfl, rfl, rfl⟩ := (chooses_alterWide _).unique hc
  have htold : Told wideTable (subcommands wideTable.columns wideClauses) := by decide
  obtain ⟨subs, hsubs, hacceptable⟩ := (hiff _ _ rfl rfl (by decide) htold).mpr (by decide)
  obtain ⟨_, rfl⟩ := Prod.mk.inj (Option.some.inj ((hread.mpr htold).symm.trans hsubs))
  exact ⟨w', _, hrun, hsubs, rfl, hacceptable⟩

/-- A statement may change the type of a column twice. -/
theorem type_changed_twice : ∃ w' : World (Fin 1),
    (execute {} .allSet).run (recorded 0 2) (⟨twoTables.data, .closed,
      [.drawn 1, .drawn 2, .drawn 2, .drawn 2, .sql (.returned .success)]⟩, []) =
        some (.ok (), w', ["ALTER TABLE foo2 \n ALTER COLUMN col1 TYPE VARCHAR(32),\n" ++
          "ALTER COLUMN col1 TYPE VARCHAR(32);"]) ∧
      ∃ subs, readAlter ("ALTER TABLE foo2 \n ALTER COLUMN col1 TYPE VARCHAR(32),\n" ++
          "ALTER COLUMN col1 TYPE VARCHAR(32);").toList = some ("foo2", subs) ∧
        ¬ Acceptable twoColumns subs := by
  obtain ⟨⟨o, w', log⟩, hrun, ho⟩ := Option.map_eq_some_iff.mp (show
    ((execute {} .allSet).run (recorded (0 : Fin 1) 2) (⟨twoTables.data, .closed,
      [.drawn 1, .drawn 2, .drawn 2, .drawn 2, .sql (.returned .success)]⟩, [])).map
        (fun x => (x.1, x.2.2)) =
      some (.ok (), ["ALTER TABLE foo2 \n ALTER COLUMN col1 TYPE VARCHAR(32),\n" ++
        "ALTER COLUMN col1 TYPE VARCHAR(32);"]) by decide +kernel)
  obtain ⟨rfl, rfl⟩ := Prod.mk.inj ho
  refine ⟨w', hrun, [.alterColumn "col1".toList .VARCHAR 32,
    .alterColumn "col1".toList .VARCHAR 32], by decide +kernel, fun h => ?_⟩
  exact absurd h.once (by decide)

end Runs
end PStress.Actions.AlterTable
