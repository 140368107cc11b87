import PStress.Actions.Alterations
import PStress.Actions.Rows

/-! CREATE TABLE statements and the definitions of columns, as read back from their tokens. -/
namespace PStress.Actions
open Text

/-- What a CREATE TABLE statement says. The columns are without `primary_key`: the keys are listed
after them. -/
structure Creation where
  name : String
  columns : List Column
  keys : List String
  deriving DecidableEq, Repr

def typeNamed (w : List Char) : Option ColumnType :=
  ColumnType.all.find? fun t => t.name.toList = w

/-- A column: its name with `SERIAL`, or with a type and a length if there is one. -/
def readColumn : List Token → Option Column
  | [.word name, .word type] =>
    if type = "SERIAL".toList then
      some { name := String.ofList name, type := .INT, auto_increment := true }
    else (typeNamed type).map fun type => { name := String.ofList name, type }
  | [.word name, .word type, .mark '(', .word length, .mark ')'] => do
    return { name := String.ofList name, type := ← typeNamed type, length := ← number length }
  | _ => none

def readColumnDefinition (s : List Char) : Option Column := (tokens s).bind readColumn

def readKeys : List Token → Option (List String)
  | .word primary :: .word key :: .mark '(' :: ts =>
    if [primary, key] = ["PRIMARY".toList, "KEY".toList] then
      match readNames ts with
      | some (names, []) => some (names.map String.ofList)
      | _ => none
    else none
  | _ => none

def readCreation (s : List Char) : Option Creation :=
  match tokens s with
  | some (.word create :: .word table :: .word name :: .mark '(' :: ts) =>
    if [create, table] = ["CREATE".toList, "TABLE".toList] then
      match items [] 0 ts with
      | some (defs, [.mark ';']) => do
        let columns ← defs.dropLast.mapM readColumn
        let keys ← readKeys (← defs.getLast?)
        return ⟨String.ofList name, columns, keys⟩
      | _ => none
    else none
  | _ => none

/-- The columns with their keys marked. -/
def Creation.table (c : Creation) : Table where
  name := c.name
  columns := c.columns.map fun col => { col with primary_key := c.keys.contains col.name }

def Table.keys (t : Table) : List String := (t.columns.filter Column.primary_key).map Column.name

/-- A statement that defines exactly this table, with its keys in their order. -/
def Defines (sql : String) (t : Table) : Prop :=
  ∃ c, readCreation sql.toList = some c ∧ c.table = t ∧ c.keys = t.keys

/-- A column as its definition alone tells it. -/
def Column.unkeyed (col : Column) : Column := { col with primary_key := false }

section Columns
variable {col : Column}

/-- A column that can be told from its definition, but for `primary_key`. -/
structure Definable (col : Column) : Prop where
  name : Word col.name
  serial : col.auto_increment = true → col.type = .INT ∧ col.length = 0

def definitionTokens (col : Column) : List Token :=
  if col.auto_increment then [.word col.name.toList, .word "SERIAL".toList]
  else [.word col.name.toList, .word col.type.name.toList] ++
    if 0 < col.length then [.mark '(', .word (toString col.length).toList, .mark ')'] else []

theorem reads_number (n : Nat) : Reads (toString n).toList [.word (toString n).toList] := by
  refine reads_word (toString_ne_nil n) fun c hc => ?_
  simp [wordChar, Char.isAlphanum, isDigit_of_mem_toString hc]

private theorem reads_typeName (t : ColumnType) : Reads t.name.toList [.word t.name.toList] := by
  apply reads_all
  cases t <;> decide

theorem reads_columnDefinition (h : Definable col) :
    Reads (columnDefinition col).toList (definitionTokens col) := by
  have hname := reads_name h.name
  by_cases hauto : col.auto_increment = true
  · have hread := hname.append_blank (reads_all (w := "SERIAL".toList) (by decide))
    simpa [columnDefinition, definitionTokens, hauto] using hread
  · have hread := hname.append_blank (reads_typeName col.type)
    by_cases hlen : 0 < col.length
    · have hlong := hname.append_blank (Reads.append_mark (c := '(') rfl (reads_typeName col.type)
        (Reads.append_mark (c := ')') rfl (reads_number col.length) .nil))
      simpa [columnDefinition, definitionTokens, hauto, hlen, String.toList_append] using hlong
    · simpa [columnDefinition, definitionTokens, hauto, hlen, String.toList_append] using hread

private theorem typeNamed_name (t : ColumnType) : typeNamed t.name.toList = some t := by
  cases t <;> rfl

private theorem typeName_ne_serial (t : ColumnType) : t.name.toList ≠ "SERIAL".toList := by
  cases t <;> decide

/-- Columns are read back from their definitions. -/
theorem readColumn_tokens (h : Definable col) :
    readColumn (definitionTokens col) = some col.unkeyed := by
  obtain ⟨name, type, length, primary_key, auto_increment⟩ := col
  cases auto_increment with
  | true =>
    obtain ⟨rfl, rfl⟩ := h.serial rfl
    simp [definitionTokens, readColumn, Column.unkeyed]
  | false =>
    have hnumber : number (Nat.toDigits 10 length) = some length := by
      simpa using number_toString length
    by_cases hlen : 0 < length
    · simp [definitionTokens, readColumn, hlen, typeNamed_name, hnumber, Column.unkeyed]
    · obtain rfl := Nat.eq_zero_of_not_pos hlen
      simp only [definitionTokens, Bool.false_eq_true, if_false, lt_irrefl, List.append_nil,
        readColumn, typeName_ne_serial, typeNamed_name, Column.unkeyed]
      simp

private theorem readColumns_tokens {columns : List Column} (h : ∀ col ∈ columns, Definable col) :
    (columns.map definitionTokens).mapM readColumn =
      some (columns.map Column.unkeyed) := by
  induction columns with
  | nil => rfl
  | cons col columns ih =>
    obtain ⟨hcol, hcolumns⟩ := List.forall_mem_cons.mp h
    rw [List.map_cons, List.mapM_cons, readColumn_tokens hcol, ih hcolumns]
    rfl

theorem readColumnDefinition_eq (h : Definable col) :
    readColumnDefinition (columnDefinition col).toList = some col.unkeyed := by
  rw [readColumnDefinition, (reads_columnDefinition h).tokens_eq, Option.bind_some,
    readColumn_tokens h]

theorem enclosed_definition (col : Column) : Enclosed 0 (definitionTokens col) := by
  have hwords (w : List Char) : Enclosed 0 [.word col.name.toList, .word w] :=
    (Enclosed.word _).append (.word w)
  have hlength : Enclosed 0 [.mark '(', .word (toString col.length).toList, .mark ')'] :=
    Enclosed.parens (.word _)
  rw [definitionTokens]
  split
  · exact hwords _
  · split
    · exact (hwords _).append hlength
    · simpa using hwords col.type.name.toList

theorem word_number {name : String} (h : Word name) (n : Nat) : Word (name ++ toString n) := by
  refine ⟨fun he => ?_, fun c hc => ?_⟩
  · have hempty := (String.append_eq_empty_iff.mp he).1
    exact h.1 hempty
  · rw [String.toList_append] at hc
    rcases List.mem_append.mp hc with hc | hc
    · exact h.2 c hc
    · simp [Char.isAlphanum, isDigit_of_mem_toString hc]

theorem definable_number {type : ColumnType} {length : Nat} (number : Nat) :
    Definable { name := s!"col{number}", type, length } := by
  refine ⟨?_, fun h => by cases h⟩
  exact word_number ⟨by decide, List.all_eq_true.mp rfl⟩ number

theorem definable_serial (number : Nat) : Definable
    { name := s!"col{number}", type := .INT, primary_key := true, auto_increment := true } := by
  refine ⟨?_, fun _ => ⟨rfl, rfl⟩⟩
  exact word_number ⟨by decide, List.all_eq_true.mp rfl⟩ number

end Columns

private theorem enclosed_listed (names : List (List Char)) :
    Enclosed 1 (listed (names.map .word)) := by
  induction names with
  | nil => exact fun item ts => by simp [listed]
  | cons c cs ih =>
    cases cs with
    | nil => exact Enclosed.word c
    | cons d cs =>
      rw [List.map_cons, List.map_cons, listed_cons_cons]
      exact (Enclosed.word c).append (Enclosed.comma.append ih)

private theorem readNames_ne_nil {ts rest : List Token} {names : List (List Char)}
    (h : readNames ts = some (names, rest)) : names ≠ [] := by
  rw [readNames.eq_def] at h
  split at h
  · obtain ⟨y, _, he⟩ := Option.map_eq_some_iff.mp h
    cases he
    exact List.cons_ne_nil _ _
  · cases h
    exact List.cons_ne_nil _ _
  · cases h

private theorem readKeys_ne_nil {ts : List Token} {keys : List String}
    (h : readKeys ts = some keys) :
    keys ≠ [] := by
  simp only [readKeys] at h
  split at h
  · split at h
    · split at h
      · rename_i hnames
        cases h
        simpa using readNames_ne_nil hnames
      · cases h
    · cases h
  · cases h

private theorem readCreation_keys_ne_nil {s : List Char} {c : Creation}
    (h : readCreation s = some c) :
    c.keys ≠ [] := by
  simp only [readCreation] at h
  split at h
  · split at h
    · split at h
      · obtain ⟨columns, _, h⟩ := Option.bind_eq_some_iff.mp h
        obtain ⟨last, _, h⟩ := Option.bind_eq_some_iff.mp h
        obtain ⟨keys, hkeys, h⟩ := Option.bind_eq_some_iff.mp h
        cases h
        exact readKeys_ne_nil hkeys
      · cases h
    · cases h
  · cases h

section Statements
variable {table : Table}

def keyText (table : Table) : List Char :=
  "PRIMARY KEY (".toList ++ ([',', ' '].intercalate (table.keys.map String.toList) ++ [')'])

def keyTokens (table : Table) : List Token :=
  .word "PRIMARY".toList :: .word "KEY".toList :: .mark '(' ::
    (listed ((table.keys.map String.toList).map .word) ++ [.mark ')'])

/-- A table whose statement can be read back. -/
structure Legible (table : Table) : Prop where
  name : Word table.name
  columns : ∀ col ∈ table.columns, Definable col

theorem Legible.keys (h : Legible table) {key : String} (hk : key ∈ table.keys) : Word key := by
  obtain ⟨col, hcol, rfl⟩ := List.mem_map.mp hk
  exact (h.columns col (List.mem_filter.mp hcol).1).name

private theorem reads_keys (h : Legible table) : Reads (keyText table) (keyTokens table) := by
  have hlist : Reads ([',', ' '].intercalate (table.keys.map String.toList))
      (listed ((table.keys.map String.toList).map .word)) := by
    refine reads_names fun c hc => ?_
    obtain ⟨key, hk, rfl⟩ := List.mem_map.mp hc
    exact reads_name (h.keys hk)
  exact (reads_all (w := "PRIMARY".toList) (by decide)).append_blank
    ((reads_all (w := "KEY".toList) (by decide)).append_blank (Reads.parens hlist))

private theorem readKeys_tokens (hne : table.keys ≠ []) :
    readKeys (keyTokens table) = some table.keys := by
  obtain ⟨key, keys, hkeys⟩ := List.exists_cons_of_ne_nil hne
  have hread := readNames_listed key.toList (keys.map String.toList) []
  simp only [keyTokens, hkeys, List.map_cons, readKeys] at hread ⊢
  rw [hread]
  simp [Function.comp_def]

private theorem enclosed_keys (table : Table) : Enclosed 0 (keyTokens table) := by
  exact (Enclosed.word "PRIMARY".toList).append ((Enclosed.word "KEY".toList).append
    (Enclosed.parens (enclosed_listed (table.keys.map String.toList))))

def itemTexts (table : Table) : List (List Char) :=
  table.columns.map (fun col => (columnDefinition col).toList) ++ [keyText table]

def itemTokens (table : Table) : List (List Token) :=
  table.columns.map definitionTokens ++ [keyTokens table]

def creationText (table : Table) : List Char :=
  "CREATE TABLE ".toList ++ (table.name.toList ++ (" (".toList ++
    ([',', '\n'].intercalate (itemTexts table) ++ ");".toList)))

theorem toList_statement (hne : table.keys ≠ []) :
    (CreateTable.statement table).toList = creationText table := by
  have hkeys : ((table.columns.filter Column.primary_key).map Column.name).isEmpty = false := by
    cases hk : table.keys with
    | nil => exact absurd hk hne
    | cons key keys =>
      rw [Table.keys] at hk
      rw [hk]
      rfl
  have hclause (keys : String) :
      s!"PRIMARY KEY ({keys})".toList = "PRIMARY KEY (".toList ++ (keys.toList ++ [')']) := by
    simp
  have htext (name body : String) : s!"CREATE TABLE {name} ({body});".toList =
      "CREATE TABLE ".toList ++ (name.toList ++ (" (".toList ++ (body.toList ++ ");".toList))) := by
    simp
  have hcomma : ", ".toList = [',', ' '] := rfl
  have hline : ",\n".toList = [',', '\n'] := rfl
  unfold CreateTable.statement
  simp only [htext, hkeys, Bool.false_eq_true, if_false]
  simp only [String.toList_intercalate, List.map_append, List.map_map, List.map_singleton]
  rw [hclause, String.toList_intercalate, hcomma, hline]
  rfl

private theorem reads_items (h : Legible table) :
    Reads ([',', '\n'].intercalate (itemTexts table))
      ([.mark ','].intercalate (itemTokens table)) := by
  apply Reads.commas rfl
  refine List.rel_append ?_ (.cons (reads_keys h) .nil)
  rw [List.forall₂_map_left_iff, List.forall₂_map_right_iff, List.forall₂_same]
  exact fun col hc => reads_columnDefinition (h.columns col hc)

theorem tokens_creationText (h : Legible table) : tokens (creationText table) =
    some (.word "CREATE".toList :: .word "TABLE".toList :: .word table.name.toList :: .mark '(' ::
      ([.mark ','].intercalate (itemTokens table) ++ [.mark ')', .mark ';'])) := by
  have hlist := Reads.cons_mark (c := '(') rfl (Reads.append_mark (c := ')') rfl (reads_items h)
    (.mark (c := ';') rfl))
  have hname := (reads_name h.name).append_blank hlist
  have htext := (reads_all (w := "CREATE".toList) (by decide)).append_blank
    ((reads_all (w := "TABLE".toList) (by decide)).append_blank hname)
  exact htext.tokens_eq

/-- Statements are read back. -/
theorem readCreation_creationText (h : Legible table) (hne : table.keys ≠ []) :
    readCreation (creationText table) =
      some ⟨table.name, table.columns.map Column.unkeyed, table.keys⟩ := by
  have henclosed : ∀ x ∈ itemTokens table, Enclosed 0 x := by
    intro x hx
    rcases List.mem_append.mp hx with hx | hx
    · obtain ⟨col, _, rfl⟩ := List.mem_map.mp hx
      exact enclosed_definition col
    · obtain rfl := List.mem_singleton.mp hx
      exact enclosed_keys table
  have hitems := items_commas (by simp [itemTokens]) henclosed [.mark ';']
  have hcolumns := readColumns_tokens h.columns
  rw [readCreation, tokens_creationText h]
  simp only [hitems]
  simp [itemTokens, hcolumns, readKeys_tokens hne]

private theorem table_keyed (hnames : AlterTable.NamesDistinct table.columns) :
    (Creation.mk table.name (table.columns.map Column.unkeyed) table.keys).table = table := by
  have hkey : ∀ col ∈ table.columns, table.keys.contains col.name = col.primary_key := by
    intro col hcol
    rw [Bool.eq_iff_iff, List.contains_iff_mem]
    constructor
    · intro hk
      obtain ⟨key, hmem, hname⟩ := List.mem_map.mp hk
      obtain ⟨hkeycol, hprimary⟩ := List.mem_filter.mp hmem
      rwa [← hnames.eq_of_name hkeycol hcol hname]
    · exact fun hprimary => List.mem_map_of_mem (List.mem_filter.mpr ⟨hcol, hprimary⟩)
  have hcolumns : table.columns.map (fun col =>
      { col with primary_key := table.keys.contains col.name }) = table.columns := by
    calc table.columns.map (fun col => { col with primary_key := table.keys.contains col.name })
        _ = table.columns.map id := List.map_congr_left fun col hcol => by rw [hkey col hcol]; rfl
        _ = table.columns := List.map_id _
  rw [Creation.table, List.map_map]
  exact congrArg (Table.mk table.name) hcolumns

/-- A statement defines its table just if it lists keys. -/
theorem defines_statement_iff (h : Legible table)
    (hnames : AlterTable.NamesDistinct table.columns) :
    Defines (CreateTable.statement table) table ↔ table.keys ≠ [] := by
  constructor
  · rintro ⟨c, hread, _, hkeys⟩
    rw [← hkeys]
    exact readCreation_keys_ne_nil hread
  · intro hne
    refine ⟨_, ?_, table_keyed hnames, rfl⟩
    rw [toList_statement hne, readCreation_creationText h hne]

example : readCreation
    "CREATE TABLE foo7 (col1 SERIAL,\ncol3 CHAR(20),\nPRIMARY KEY (col1));".toList =
      some ⟨"foo7", [⟨"col1", .INT, 0, false, true⟩, ⟨"col3", .CHAR, 20, false, false⟩],
        ["col1"]⟩ := by
  decide +kernel

end Statements
end PStress.Actions
