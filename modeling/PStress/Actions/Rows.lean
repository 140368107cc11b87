import PStress.Actions.Requests
import PStress.Text.Tokens
import PStress.Text.Words

/-! INSERT and UPDATE statements, as read back from their tokens, and what they have to say for a
table. -/
namespace PStress.Actions
open Text

structure Insert where
  table : List Char
  columns : List (List Char)
  rows : List (List Token)
  deriving DecidableEq, Repr

/-- An update of the rows whose `key` is among the `selected` of some row of `source`. -/
structure Update where
  table : List Char
  assignments : List (List Char × Token)
  key : List Char
  selected : List Char
  source : List Char
  deriving DecidableEq, Repr

def isMark : Token → Bool
  | .mark _ => true
  | .word _ | .quoted _ => false

def readNames : List Token → Option (List (List Char) × List Token)
  | .word c :: .mark ',' :: ts => (readNames ts).map fun y => (c :: y.1, y.2)
  | .word c :: .mark ')' :: ts => some ([c], ts)
  | _ => none

def readRows (row : List Token) : List Token → Option (List (List Token))
  | v :: .mark ',' :: ts => if isMark v then none else readRows (row ++ [v]) ts
  | v :: .mark ')' :: .mark ',' :: .mark '(' :: ts =>
    if isMark v then none else (readRows [] ts).map fun rows => (row ++ [v]) :: rows
  | [v, .mark ')', .mark ';'] => if isMark v then none else some [row ++ [v]]
  | _ => none

def readInsert (s : List Char) : Option Insert :=
  match tokens s with
  | some (.word insert :: .word into :: .word table :: .mark '(' :: ts) =>
    if [insert, into] = ["INSERT".toList, "INTO".toList] then
      match readNames ts with
      | some (columns, .word values :: .mark '(' :: ts) =>
        if values = "VALUES".toList then (readRows [] ts).map fun rows => ⟨table, columns, rows⟩
        else none
      | _ => none
    else none
  | _ => none

/-- Assignments up to a `WHERE`, and what follows it. -/
def readAssignments : List Token → Option (List (List Char × Token) × List Token)
  | .word c :: .mark '=' :: v :: .mark ',' :: ts =>
    if isMark v then none else (readAssignments ts).map fun y => ((c, v) :: y.1, y.2)
  | .word c :: .mark '=' :: v :: .word w :: ts =>
    if isMark v = false ∧ w = "WHERE".toList then some ([(c, v)], ts) else none
  | _ => none

def readUpdate (s : List Char) : Option Update :=
  match tokens s with
  | some (.word update :: .word table :: .word set :: ts) =>
    if [update, set] = ["UPDATE".toList, "SET".toList] then
      match readAssignments ts with
      | some (assignments, [.word key, .word a, .mark '(', .word b, .word selected, .word c,
          .word source, .word d, .word e, .word f, .mark '(', .mark ')', .word g, .word one,
          .mark ')', .mark ';']) =>
        if [a, b, c, d, e, f, g, one] = ["IN".toList, "SELECT".toList, "FROM".toList,
          "ORDER".toList, "BY".toList, "random".toList, "LIMIT".toList, "1".toList] then
          some ⟨table, assignments, key, selected, source⟩
        else none
      | _ => none
    else none
  | _ => none

/-- A literal of a column's type. -/
def Literal (col : Column) (v : Token) : Prop :=
  match col.type with
  | .INT => ∃ w n, v = .word w ∧ number w = some n ∧ n < 2147483648
  | .REAL => ∃ a b, v = .word (a ++ '.' :: b) ∧ (number a).isSome ∧ (number b).isSome
  | .BOOL => v = .word "true".toList ∨ v = .word "false".toList
  | .CHAR | .VARCHAR => ∃ t, v = .quoted t ∧ t.length ≤ col.length
  | .BYTEA | .TEXT => ∃ t, v = .quoted t

/-- The columns that an INSERT or UPDATE fills. -/
def filled (columns : List Column) : List Column := columns.filter fun col => !col.auto_increment

structure Insert.Matches (insert : Insert) (t : Table) (rows : Nat) : Prop where
  table : insert.table = t.name.toList
  columns : insert.columns = (filled t.columns).map fun col => col.name.toList
  count : insert.rows.length = rows
  values : ∀ row ∈ insert.rows, List.Forall₂ Literal (filled t.columns) row

structure Update.Matches (update : Update) (t : Table) : Prop where
  table : update.table = t.name.toList
  columns : update.assignments.map Prod.fst = (filled t.columns).map fun col => col.name.toList
  values : List.Forall₂ Literal (filled t.columns) (update.assignments.map Prod.snd)
  key : t.columns[0]?.map (fun col => col.name.toList) = some update.key
  selected : update.selected = update.key
  source : update.source = update.table

/-- A name of letters and digits. -/
def Word (name : String) : Prop := name ≠ "" ∧ ∀ c ∈ name.toList, c.isAlphanum

theorem reads_name {name : String} (h : Word name) : Reads name.toList [.word name.toList] := by
  refine reads_word (by simpa using h.1) fun c hc => ?_
  simp [wordChar, h.2 c hc]

/-- A table with names of letters and digits, at least two columns of which the server fills the
first, and lengths as they are drawn. -/
structure Regular (table : Table) : Prop where
  name : Word table.name
  names : ∀ col ∈ table.columns, Word col.name
  wide : 2 ≤ table.columns.length
  serial : ∀ k col, table.columns[k]? = some col → (col.auto_increment = true ↔ k = 0)
  lengths : ∀ col ∈ table.columns, col.length ≤ 100

def listed (ts : List Token) : List Token := [Token.mark ','].intercalate (ts.map fun t => [t])

theorem listed_cons_cons (t u : Token) (ts : List Token) :
    listed (t :: u :: ts) = t :: .mark ',' :: listed (u :: ts) := by
  simp [listed, List.intercalate_cons_cons]

private theorem listed_singleton (t : Token) : listed [t] = [t] := by
  simp [listed]

theorem readNames_listed (c : List Char) (cs : List (List Char)) (ts : List Token) :
    readNames (listed ((c :: cs).map .word) ++ .mark ')' :: ts) = some (c :: cs, ts) := by
  induction cs generalizing c with
  | nil => simp [listed_singleton, readNames]
  | cons d cs ih =>
    have hd := ih d
    simp only [List.map_cons] at hd
    simp [listed_cons_cons, readNames, hd]

def tuple (row : List Token) : List Token := .mark '(' :: (listed row ++ [.mark ')'])

private theorem readRows_listed {row : List Token} (hrow : ∀ v ∈ row, isMark v = false)
    (hne : row ≠ []) (pre : List Token) (ts : List Token) :
    readRows pre (listed row ++ .mark ')' :: .mark ',' :: .mark '(' :: ts) =
        (readRows [] ts).map (fun rows => (pre ++ row) :: rows) ∧
      readRows pre (listed row ++ [.mark ')', .mark ';']) = some [pre ++ row] := by
  induction row generalizing pre with
  | nil => exact absurd rfl hne
  | cons v row ih =>
    obtain ⟨hv, hrow⟩ := List.forall_mem_cons.mp hrow
    cases row with
    | nil => simp [listed_singleton, readRows, hv]
    | cons u row =>
      obtain ⟨hmore, hend⟩ := ih hrow (List.cons_ne_nil u row) (pre ++ [v])
      simp only [List.append_assoc, List.singleton_append] at hmore hend
      simp [listed_cons_cons, readRows, hv, hmore, hend]

private theorem readRows_tuples {rows : List (List Token)} {row : List Token}
    (hrows : ∀ r ∈ row :: rows, r ≠ [] ∧ ∀ v ∈ r, isMark v = false) :
    ∃ ts, [Token.mark ','].intercalate ((row :: rows).map tuple) ++ [.mark ';'] = .mark '(' :: ts ∧
      readRows [] ts = some (row :: rows) := by
  induction rows generalizing row with
  | nil =>
    obtain ⟨hne, hrow⟩ := hrows row List.mem_cons_self
    have hread := (readRows_listed hrow hne [] []).2
    exact ⟨listed row ++ [.mark ')', .mark ';'], by simp [tuple], hread⟩
  | cons r rows ih =>
    obtain ⟨hne, hrow⟩ := hrows row List.mem_cons_self
    obtain ⟨ts, hts, hread⟩ := ih fun r' hr => hrows r' (List.mem_cons_of_mem row hr)
    have hmore := (readRows_listed hrow hne [] ts).1
    refine ⟨listed row ++ .mark ')' :: .mark ',' :: .mark '(' :: ts, ?_, ?_⟩
    · rw [List.map_cons] at hts ⊢
      rw [List.map_cons, List.intercalate_cons_cons]
      simp only [List.append_assoc, hts]
      simp [tuple]
    · rw [hmore, hread]
      rfl

def assignment (a : List Char × Token) : List Token := [.word a.1, .mark '=', a.2]

private theorem readAssignments_assignments {a : List Char × Token} {as : List (List Char × Token)}
    (has : ∀ b ∈ a :: as, isMark b.2 = false) (ts : List Token) :
    readAssignments ([Token.mark ','].intercalate ((a :: as).map assignment) ++
      .word "WHERE".toList :: ts) = some (a :: as, ts) := by
  induction as generalizing a with
  | nil =>
    have ha := has a List.mem_cons_self
    simp [assignment, readAssignments, ha]
  | cons b as ih =>
    have ha := has a List.mem_cons_self
    have hrest := ih fun c hc => has c (List.mem_cons_of_mem a hc)
    rw [List.map_cons] at hrest ⊢
    rw [List.map_cons, List.intercalate_cons_cons, List.append_assoc, List.append_assoc]
    simp only [assignment, List.cons_append, List.nil_append, readAssignments, ha] at hrest ⊢
    rw [hrest]
    rfl

section Texts
variable {name key : List Char} {names : List (List Char)}

def tupleText (texts : List (List Char)) : List Char :=
  '(' :: ([',', ' '].intercalate texts ++ [')'])

def insertText (name : List Char) (names : List (List Char)) (rows : List (List (List Char))) :
    List Char :=
  "INSERT INTO ".toList ++ (name ++ (" (".toList ++ ([',', ' '].intercalate names ++
    (" ) VALUES ".toList ++ ([',', ' '].intercalate (rows.map tupleText) ++ [';'])))))

def Values (texts : List (List Char)) (row : List Token) : Prop :=
  List.Forall₂ (fun x v => Reads x [v] ∧ isMark v = false) texts row

theorem Values.reads {texts : List (List Char)} {row : List Token} (h : Values texts row) :
    Reads ([',', ' '].intercalate texts) (listed row) := by
  apply Reads.commas rfl
  rw [List.forall₂_map_right_iff]
  exact h.imp fun _ _ hv => hv.1

private theorem Values.not_mark {texts : List (List Char)} {row : List Token}
    (h : Values texts row) :
    ∀ v ∈ row, isMark v = false := by
  induction h with
  | nil => simp
  | cons hv _ ih => exact List.forall_mem_cons.mpr ⟨hv.2, ih⟩

private theorem not_mark_of_values {rows : List (List (List Char))} {tuples : List (List Token)}
    (h : List.Forall₂ Values rows tuples) : ∀ row ∈ tuples, ∀ v ∈ row, isMark v = false := by
  induction h with
  | nil => simp
  | cons hv _ ih => exact List.forall_mem_cons.mpr ⟨hv.not_mark, ih⟩

theorem reads_names (hnames : ∀ c ∈ names, Reads c [.word c]) :
    Reads ([',', ' '].intercalate names) (listed (names.map .word)) := by
  apply Reads.commas rfl
  rw [List.map_map, List.forall₂_map_right_iff, List.forall₂_same]
  exact hnames

/-- INSERT statements are read back. -/
theorem readInsert_insertText {rows : List (List (List Char))} {tuples : List (List Token)}
    (hname : Reads name [.word name]) (hne : names ≠ [])
    (hnames : ∀ c ∈ names, Reads c [.word c]) (hrows : List.Forall₂ Values rows tuples)
    (hsome : tuples ≠ []) (hwide : ∀ row ∈ tuples, row ≠ []) :
    readInsert (insertText name names rows) = some ⟨name, names, tuples⟩ := by
  have htuples : Reads ([',', ' '].intercalate (rows.map tupleText))
      ([Token.mark ','].intercalate (tuples.map tuple)) := by
    apply Reads.commas rfl
    rw [List.forall₂_map_left_iff, List.forall₂_map_right_iff]
    exact hrows.imp fun _ _ hv => Reads.parens hv.reads
  have hall : tokens (insertText name names rows) = some (.word "INSERT".toList ::
      .word "INTO".toList :: .word name :: .mark '(' :: (listed (names.map .word) ++
        .mark ')' :: .word "VALUES".toList :: ([Token.mark ','].intercalate (tuples.map tuple) ++
          [.mark ';']))) := by
    have hvalues := (Reads.mark (c := ')') rfl).append_blank ((reads_all (w := "VALUES".toList)
      (by decide)).append_blank (Reads.append_mark (c := ';') rfl htuples .nil))
    have hlist := Reads.cons_mark (c := '(') rfl ((reads_names hnames).append_blank hvalues)
    have htext := (reads_all (w := "INSERT".toList) (by decide)).append_blank
      ((reads_all (w := "INTO".toList) (by decide)).append_blank (hname.append_blank hlist))
    exact htext.tokens_eq
  obtain ⟨c, cs, rfl⟩ := List.exists_cons_of_ne_nil hne
  obtain ⟨row, rest, rfl⟩ := List.exists_cons_of_ne_nil hsome
  have hmarks : ∀ r ∈ row :: rest, r ≠ [] ∧ ∀ v ∈ r, isMark v = false := fun r hr =>
    ⟨hwide r hr, not_mark_of_values hrows r hr⟩
  obtain ⟨ts, hts, hread⟩ := readRows_tuples hmarks
  rw [readInsert, hall, hts]
  simp only [readNames_listed, hread]
  rfl

example : readInsert "INSERT INTO foo1 (col2, col3 ) VALUES ('ab', 7), ('', 8);".toList =
    some ⟨"foo1".toList, ["col2".toList, "col3".toList],
      [[.quoted "ab".toList, .word "7".toList], [.quoted [], .word "8".toList]]⟩ := by
  decide +kernel

def assignmentText (a : List Char × List Char) : List Char := a.1 ++ (" = ".toList ++ a.2)

def updateText (name : List Char) (assignments : List (List Char × List Char)) (key : List Char) :
    List Char :=
  "UPDATE ".toList ++ (name ++ (" SET ".toList ++
    ([',', ' '].intercalate (assignments.map assignmentText) ++ (" WHERE ".toList ++ (key ++
      (" IN (SELECT ".toList ++ (key ++ (" FROM ".toList ++ (name ++
        " ORDER BY random() LIMIT 1);".toList)))))))))

/-- The text of a name and of a value that is not a mark. -/
def Assigns (x : List Char × List Char) (a : List Char × Token) : Prop :=
  x.1 = a.1 ∧ Reads a.1 [.word a.1] ∧ Reads x.2 [a.2] ∧ isMark a.2 = false

theorem Assigns.reads {x : List Char × List Char} {a : List Char × Token} (h : Assigns x a) :
    Reads (assignmentText x) (assignment a) := by
  obtain ⟨he, hname, hvalue, _⟩ := h
  rw [assignmentText, he]
  exact hname.append_blank (Reads.cons_mark (c := '=') rfl (Reads.nil.append_blank hvalue))

private theorem Assigns.not_mark {xs : List (List Char × List Char)} {as : List (List Char × Token)}
    (h : List.Forall₂ Assigns xs as) : ∀ a ∈ as, isMark a.2 = false := by
  induction h with
  | nil => simp
  | cons hx _ ih => exact List.forall_mem_cons.mpr ⟨hx.2.2.2, ih⟩

/-- The condition that UPDATE and DELETE end with. -/
theorem reads_where {limit : List Char} (hname : Reads name [.word name])
    (hkey : Reads key [.word key]) (hlimit : Reads limit [.word limit]) :
    Reads ("WHERE ".toList ++ (key ++ (" IN (SELECT ".toList ++ (key ++ (" FROM ".toList ++
        (name ++ (" ORDER BY random() LIMIT ".toList ++ (limit ++ ");".toList))))))))
      [.word "WHERE".toList, .word key, .word "IN".toList, .mark '(', .word "SELECT".toList,
        .word key, .word "FROM".toList, .word name, .word "ORDER".toList, .word "BY".toList,
        .word "random".toList, .mark '(', .mark ')', .word "LIMIT".toList, .word limit, .mark ')',
        .mark ';'] := by
  have hend := (reads_all (w := "LIMIT".toList) (by decide)).append_blank
    (Reads.append_mark (c := ')') rfl hlimit (.mark (c := ';') rfl))
  have horder := (reads_all (w := "ORDER".toList) (by decide)).append_blank
    ((reads_all (w := "BY".toList) (by decide)).append_blank
      (Reads.append_mark (c := '(') rfl (reads_all (w := "random".toList) (by decide))
        (Reads.cons_mark (c := ')') rfl (Reads.nil.append_blank hend))))
  have hselect := (reads_all (w := "SELECT".toList) (by decide)).append_blank
    (hkey.append_blank ((reads_all (w := "FROM".toList) (by decide)).append_blank
      (hname.append_blank horder)))
  exact (reads_all (w := "WHERE".toList) (by decide)).append_blank
    (hkey.append_blank ((reads_all (w := "IN".toList) (by decide)).append_blank
      (Reads.cons_mark (c := '(') rfl hselect)))

/-- UPDATE statements are read back. -/
theorem readUpdate_updateText {xs : List (List Char × List Char)}
    {assignments : List (List Char × Token)} (hname : Reads name [.word name])
    (hkey : Reads key [.word key]) (h : List.Forall₂ Assigns xs assignments)
    (hsome : assignments ≠ []) :
    readUpdate (updateText name xs key) = some ⟨name, assignments, key, key, name⟩ := by
  have hset : Reads ([',', ' '].intercalate (xs.map assignmentText))
      ([Token.mark ','].intercalate (assignments.map assignment)) := by
    apply Reads.commas rfl
    rw [List.forall₂_map_left_iff, List.forall₂_map_right_iff]
    exact h.imp fun _ _ ha => ha.reads
  have hall : tokens (updateText name xs key) = some (.word "UPDATE".toList :: .word name ::
      .word "SET".toList :: ([Token.mark ','].intercalate (assignments.map assignment) ++
        .word "WHERE".toList :: [.word key, .word "IN".toList, .mark '(',
          .word "SELECT".toList, .word key, .word "FROM".toList, .word name,
          .word "ORDER".toList, .word "BY".toList, .word "random".toList, .mark '(', .mark ')',
          .word "LIMIT".toList, .word "1".toList, .mark ')', .mark ';'])) := by
    have htext := (reads_all (w := "UPDATE".toList) (by decide)).append_blank
      (hname.append_blank ((reads_all (w := "SET".toList) (by decide)).append_blank
        (hset.append_blank (reads_where hname hkey (reads_all (w := "1".toList) (by decide))))))
    exact htext.tokens_eq
  obtain ⟨a, as, rfl⟩ := List.exists_cons_of_ne_nil hsome
  rw [readUpdate, hall]
  simp only [readAssignments_assignments (Assigns.not_mark h)]
  rfl

end Texts
end PStress.Actions
