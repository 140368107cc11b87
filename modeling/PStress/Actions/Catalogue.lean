import PStress.Actions.Creations

/-! DDL statements as a database server reads them, and what they do to the tables it has. -/
namespace PStress.Actions
open Text AlterTable

inductive Ddl where
  | create (name : String) (columns : List Definition)
  | alter (name : String) (subs : List Subcommand)
  | drop (name : String)
  deriving DecidableEq, Repr

/-- The columns of each table that the server has. -/
abbrev Catalogue := String → Option (List Definition)

def readDdl (s : List Char) : Option Ddl :=
  match tokens s with
  | some (.word verb :: .word table :: .word name :: ts) =>
    if [verb, table] = ["CREATE".toList, "TABLE".toList] then
      (readCreation s).map fun c => .create c.name (c.columns.map definition)
    else if [verb, table] = ["ALTER".toList, "TABLE".toList] then
      (readClauses ts).map (.alter (String.ofList name))
    else if [verb, table] = ["DROP".toList, "TABLE".toList] ∧ ts = [.mark ';'] then
      some (.drop (String.ofList name))
    else none
  | _ => none

namespace AlterTable.Subcommand

def adds : Subcommand → Option (List Char)
  | .addColumn definition => some definition.name
  | .dropColumn _ | .alterColumn .. | .setAccessMethod _ => none

end AlterTable.Subcommand

namespace Ddl

/-- What the server has to find: a name that is free and distinct columns, or the table, and in it
no column of a name that is added. -/
def Applicable (db : Catalogue) : Ddl → Prop
  | create name columns => db name = none ∧ (columns.map Definition.name).Nodup
  | alter name subs => ∃ columns ∈ db name,
    (columns.map Definition.name ++ subs.filterMap Subcommand.adds).Nodup
  | drop name => (db name).isSome

instance (db : Catalogue) : (d : Ddl) → Decidable (d.Applicable db)
  | create name columns =>
    inferInstanceAs (Decidable (db name = none ∧ (columns.map Definition.name).Nodup))
  | alter name subs => inferInstanceAs (Decidable (∃ columns ∈ db name,
    (columns.map Definition.name ++ subs.filterMap Subcommand.adds).Nodup))
  | drop name => inferInstanceAs (Decidable (db name).isSome)

def apply (db : Catalogue) : Ddl → Catalogue
  | create name columns => Function.update db name (some columns)
  | alter name subs =>
    Function.update db name ((db name).map fun columns => subs.foldl Subcommand.apply columns)
  | drop name => Function.update db name none

end Ddl

section Reading
variable {table : Table}

/-- Statements that begin with another word are none of these. -/
theorem readDdl_eq_none {w : List Char} (hw : w ≠ [] ∧ w.all wordChar)
    (hverb : w ∉ ["CREATE".toList, "ALTER".toList, "DROP".toList]) (s : List Char) :
    readDdl (w ++ ' ' :: s) = none := by
  have hread := reads_all hw (' ' :: s) fun c r he => by cases he; rfl
  have hverb : w ≠ "CREATE".toList ∧ w ≠ "ALTER".toList ∧ w ≠ "DROP".toList := by
    simpa [-String.reduceToList] using hverb
  rw [readDdl, hread]
  cases tokens (' ' :: s) with
  | none => rfl
  | some ts =>
    rcases ts with _ | ⟨⟨x⟩ | _ | _, _ | ⟨⟨y⟩ | _ | _, ts⟩⟩ <;> simp [-String.reduceToList, hverb]

/-- A CREATE is read as the columns of its table. -/
theorem readDdl_create (h : Legible table) (hne : table.keys ≠ []) :
    readDdl (CreateTable.statement table).toList =
      some (.create table.name (table.columns.map definition)) := by
  rw [toList_statement hne, readDdl, tokens_creationText h]
  simp only [if_true, readCreation_creationText h hne, Option.map_some, List.map_map]
  rfl

theorem readDdl_drop (h : Word table.name) :
    readDdl (DropTable.statement table).toList = some (.drop table.name) := by
  have htext : (DropTable.statement table).toList =
      "DROP TABLE ".toList ++ (table.name.toList ++ [';']) := by
    simp [DropTable.statement]
  have hread := (reads_all (w := "DROP".toList) (by decide)).append_blank
    ((reads_all (w := "TABLE".toList) (by decide)).append_blank
      (Reads.append_mark (c := ';') rfl (reads_name h) .nil))
  have htokens : tokens ("DROP TABLE ".toList ++ (table.name.toList ++ [';'])) =
      some [.word "DROP".toList, .word "TABLE".toList, .word table.name.toList, .mark ';'] :=
    hread.tokens_eq
  rw [htext, readDdl, htokens]
  simp

/-- An ALTER is read as the subcommands of its texts. -/
theorem readDdl_alter (table : Table) (h : Word table.name) {texts : List String}
    {subs : List Subcommand} (hsubs : List.Forall₂ ClauseText texts subs) (hne : subs ≠ []) :
    readDdl (AlterTable.statement table texts).toList = some (.alter table.name subs) := by
  obtain ⟨ts, htokens, hread, _⟩ := tokens_statement table h.spoken hsubs
  rw [readDdl, htokens]
  simp [hread hne]

/-- A statement without subcommands is none. -/
theorem readDdl_alter_nil (table : Table) (h : Word table.name) :
    readDdl (AlterTable.statement table []).toList = none := by
  obtain ⟨ts, htokens, _, hnone⟩ := tokens_statement table h.spoken .nil
  obtain rfl := hnone rfl
  rw [readDdl, htokens]
  simp [readClauses_nil]

end Reading
section Clauses

def AlterTable.Clause.Sayable : Clause → Prop
  | .addColumn column => Definable column
  | .setAccessMethod am => Spoken am
  | .dropColumn _ | .changeColumn | .nothing => True

theorem definable_of_sayable {clauses : List Clause} (hc : ∀ clause ∈ clauses, clause.Sayable) :
    ∀ col ∈ added clauses, Definable col :=
  fun _ hcol => hc _ (mem_added hcol)

/-- The subcommands of such clauses consist of words, if the columns' names are words. -/
theorem spelled_of_sayable {columns : List Column} {clauses : List Clause}
    (hcols : ∀ col ∈ columns, Word col.name) (hc : ∀ clause ∈ clauses, clause.Sayable) :
    ∀ sub ∈ subcommands columns clauses, ∀ w ∈ sub.word, Spelled w := by
  induction clauses generalizing columns with
  | nil => simp [subcommands]
  | cons clause clauses ih =>
    obtain ⟨hclause, hclauses⟩ := List.forall_mem_cons.mp hc
    intro sub hs w hw
    rcases List.mem_append.mp hs with hs | hs
    · cases clause with
      | dropColumn k =>
        obtain ⟨col, hk, rfl⟩ := Option.map_eq_some_iff.mp (Option.mem_toList.mp hs)
        cases hw
        exact (hcols col (List.mem_of_getElem? hk)).spoken
      | changeColumn =>
        obtain ⟨col, hf, rfl⟩ := Option.map_eq_some_iff.mp (Option.mem_toList.mp hs)
        cases hw
        exact (hcols col (List.mem_of_find?_eq_some hf)).spoken
      | addColumn column =>
        cases Option.mem_toList.mp hs
        cases hw
      | setAccessMethod am =>
        cases Option.mem_toList.mp hs
        cases hw
        exact hclause
      | nothing => cases hs
    · exact ih (fun col hcol => hcols col (after_subset columns clause hcol)) hclauses sub hs w hw

end Clauses
section Effect
variable {o t : Table} {columns : List Definition} {subs : List Subcommand}

private theorem remaining_sublist (columns : List Column) (clauses : List Clause) :
    (remaining columns clauses).Sublist columns := by
  induction clauses generalizing columns with
  | nil => exact List.Sublist.refl _
  | cons clause clauses ih =>
    rw [remaining_cons]
    refine (ih (clause.after columns)).trans ?_
    cases clause with
    | dropColumn k => exact List.eraseIdx_sublist columns k
    | addColumn | changeColumn | setAccessMethod | nothing => exact List.Sublist.refl _

private theorem subcommands_adds (columns : List Column) (clauses : List Clause) :
    (subcommands columns clauses).filterMap Subcommand.adds =
      (added clauses).map fun col => col.name.toList := by
  induction clauses generalizing columns with
  | nil => rfl
  | cons clause clauses ih =>
    rw [subcommands, List.filterMap_append, ih]
    cases clause with
    | dropColumn k =>
      simp only [Clause.subcommand]
      cases columns[k]? <;> rfl
    | changeColumn =>
      simp only [Clause.subcommand]
      cases columns.find? numeric <;> rfl
    | addColumn | setAccessMethod | nothing => rfl

/-- Without subcommands nothing changes. -/
theorem unchanged_of_subcommands {columns : List Column} {clauses : List Clause}
    (h : subcommands columns clauses = []) :
    remaining columns clauses = columns ∧ added clauses = [] := by
  induction clauses with
  | nil => exact ⟨rfl, rfl⟩
  | cons clause clauses ih =>
    obtain ⟨hclause, hclauses⟩ := List.append_eq_nil_iff.mp h
    cases clause with
    | addColumn | setAccessMethod => cases hclause
    | changeColumn | nothing => exact ih hclauses
    | dropColumn k =>
      have hk : columns[k]? = none := by simpa [Clause.subcommand] using hclause
      have hsame : columns.eraseIdx k = columns :=
        List.eraseIdx_of_length_le (List.getElem?_eq_none_iff.mp hk)
      rw [Clause.after, hsame] at hclauses
      rw [remaining, hsame]
      exact ih hclauses

/-- `t` is the table `o` after the subcommands of a statement. -/
def Alters (o t : Table) (subs : List Subcommand) : Prop :=
  ∃ clauses, subs = subcommands o.columns clauses ∧ (∀ clause ∈ clauses, clause.Sayable) ∧
    t = { o with columns := remaining o.columns clauses ++ added clauses }

/-- The table on the server: the columns in `cs`, which are numeric in memory, have become texts
there, and all the others are as they are in memory. -/
def Mirrors (t : Table) (columns : List Definition) : Prop :=
  Legible t ∧ NamesDistinct t.columns ∧
    ∃ cs, (∀ col ∈ cs, numeric col) ∧ columns = t.columns.map (onServer cs)

private theorem namesDistinct_iff (columns : List Column) :
    NamesDistinct columns ↔ (columns.map fun col => col.name.toList).Nodup := by
  have hmap : columns.map (fun col => col.name.toList) =
      (columns.map Column.name).map String.toList := by simp
  rw [hmap, NamesDistinct]
  exact ⟨List.Nodup.map fun _ _ => String.toList_inj.mp, List.Nodup.of_map _⟩

theorem mirrors_create (h : Legible t) (hn : ((t.columns.map definition).map
    Definition.name).Nodup) : Mirrors t (t.columns.map definition) := by
  refine ⟨h, (namesDistinct_iff _).mpr (by rwa [List.map_map] at hn), [], by simp, ?_⟩
  exact List.map_congr_left fun col _ => by simp [onServer]

theorem Mirrors.names (h : Mirrors t columns) :
    columns.map Definition.name = t.columns.map fun col => col.name.toList := by
  obtain ⟨_, _, cs, _, rfl⟩ := h
  rw [List.map_map]
  exact List.map_congr_left fun col _ => onServer_name cs col

theorem Alters.legible (h : Alters o t subs) (ho : Legible o) : Legible t := by
  obtain ⟨clauses, _, hsay, rfl⟩ := h
  refine ⟨ho.name, fun col hcol => ?_⟩
  rcases List.mem_append.mp hcol with hcol | hcol
  · exact ho.columns col ((remaining_sublist _ _).subset hcol)
  · exact hsay _ (mem_added hcol)

/-- An ALTER does to the table on the server what was done to the one in memory, but for the types
it changes. -/
theorem Mirrors.alter (h : Mirrors o columns) (ha : Alters o t subs)
    (hn : (columns.map Definition.name ++ subs.filterMap Subcommand.adds).Nodup) :
    Mirrors t (subs.foldl Subcommand.apply columns) := by
  have hlegible := ha.legible h.1
  obtain ⟨clauses, rfl, _, rfl⟩ := ha
  rw [h.names, subcommands_adds, ← List.map_append, ← namesDistinct_iff] at hn
  obtain ⟨_, _, cs, hcs, rfl⟩ := h
  have hsub := (remaining_sublist o.columns clauses).append_right (added clauses)
  have hserver : o.columns.map (onServer cs) = server o.columns [] cs := by simp [server]
  refine ⟨hlegible, hn.sublist hsub,
    (cs ++ changed o.columns clauses).filter (· ∈ remaining o.columns clauses), ?_, ?_⟩
  · intro col hcol
    rcases List.mem_append.mp (List.mem_filter.mp hcol).1 with hcol | hcol
    · exact hcs col hcol
    · exact mem_changed hcol
  · rw [hserver, foldl_server (by simpa using hn), List.nil_append, server, List.map_append]
    congr 1
    · refine List.map_congr_left fun col hcol => ?_
      simp [onServer, hcol]
    · refine List.map_congr_left fun col hcol => ?_
      have hout : col ∉ remaining o.columns clauses := fun hr =>
        hn.name_ne ((remaining_sublist _ _).subset hr) hcol rfl
      simp [onServer, hout]

end Effect
end PStress.Actions
