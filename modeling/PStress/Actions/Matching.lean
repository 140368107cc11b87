import PStress.Actions.Alone
import PStress.Actions.Filling

/-! INSERT and UPDATE statements match their tables, whatever is drawn and whatever else is
answered: tables may come and go while an action looks for one. -/
namespace PStress.Actions
open Interaction Metadata Program Text

section Tables
variable {t : Table} {columns : List Column} {texts : List (List Char)}

private theorem mem_of_mem_filled {col : Column} (h : col ∈ filled columns) : col ∈ columns :=
  (List.mem_filter.mp h).1

private theorem Regular.filled_ne_nil (h : Regular t) : filled t.columns ≠ [] := by
  have hwide := h.wide
  have hsecond := List.getElem?_eq_getElem (show 1 < t.columns.length by omega)
  have hauto : t.columns[1].auto_increment = false := by
    have hs := h.serial 1 _ hsecond
    simpa using hs
  apply List.ne_nil_of_mem
  exact List.mem_filter.mpr ⟨List.getElem_mem _, by rw [hauto]; rfl⟩

private theorem RowFor.exists_row (h : RowFor columns texts)
    (hl : ∀ col ∈ columns, col.length ≤ 100) :
    ∃ row, Values texts row ∧ List.Forall₂ Literal (filled columns) row := by
  have hl : ∀ col ∈ filled columns, col.length ≤ 100 := fun col hc => hl col (mem_of_mem_filled hc)
  rw [RowFor] at h
  generalize filled columns = cols at h hl ⊢
  induction h with
  | nil => exact ⟨[], .nil, .nil⟩
  | cons hx _ ih =>
    obtain ⟨v, hv, hliteral⟩ := hx
    obtain ⟨hcol, hl⟩ := List.forall_mem_cons.mp hl
    obtain ⟨row, hrow, hliterals⟩ := ih hl
    exact ⟨v :: row, .cons hv hrow, .cons (hliteral hcol) hliterals⟩

private theorem exists_rows {rows : List (List (List Char))}
    (h : ∀ texts ∈ rows, RowFor columns texts) (hl : ∀ col ∈ columns, col.length ≤ 100) :
    ∃ tuples, List.Forall₂ Values rows tuples ∧
      ∀ row ∈ tuples, List.Forall₂ Literal (filled columns) row := by
  induction rows with
  | nil => exact ⟨[], .nil, by simp⟩
  | cons texts rows ih =>
    obtain ⟨htexts, h⟩ := List.forall_mem_cons.mp h
    obtain ⟨row, hrow, hliterals⟩ := htexts.exists_row hl
    obtain ⟨tuples, htuples, hall⟩ := ih h
    exact ⟨row :: tuples, .cons hrow htuples, List.forall_mem_cons.mpr ⟨hliterals, hall⟩⟩

/-- The text of an INSERT into a regular table is read back as one that matches it. -/
private theorem insertText_matches (ht : Regular t) {rows : List (List (List Char))}
    (hsome : rows ≠ []) (hrows : ∀ texts ∈ rows, RowFor t.columns texts) :
    ∃ insert, readInsert (insertText t.name.toList
      ((filled t.columns).map fun col => col.name.toList) rows) = some insert ∧
        insert.Matches t rows.length := by
  obtain ⟨tuples, htuples, hall⟩ := exists_rows hrows ht.lengths
  have hlen := htuples.length_eq
  refine ⟨_, readInsert_insertText (reads_name ht.name) ?_ ?_ htuples ?_ ?_,
    rfl, rfl, hlen.symm, hall⟩
  · simpa using ht.filled_ne_nil
  · rw [List.forall_mem_map]
    exact fun col hc => reads_name (ht.names col (mem_of_mem_filled hc))
  · rintro rfl
    exact hsome (List.eq_nil_of_length_eq_zero hlen)
  · rintro row hr rfl
    exact ht.filled_ne_nil (List.forall₂_nil_right_iff.mp (hall [] hr))

private theorem AssignmentsFor.exists_assignments {xs : List (List Char × List Char)}
    (h : AssignmentsFor columns xs) (hn : ∀ col ∈ columns, Word col.name)
    (hl : ∀ col ∈ columns, col.length ≤ 100) : ∃ assignments, List.Forall₂ Assigns xs assignments ∧
      assignments.map Prod.fst = (filled columns).map (fun col => col.name.toList) ∧
      List.Forall₂ Literal (filled columns) (assignments.map Prod.snd) := by
  have hn : ∀ col ∈ filled columns, Word col.name := fun col hc => hn col (mem_of_mem_filled hc)
  have hl : ∀ col ∈ filled columns, col.length ≤ 100 := fun col hc => hl col (mem_of_mem_filled hc)
  rw [AssignmentsFor] at h
  generalize filled columns = cols at h hn hl ⊢
  induction h with
  | nil => exact ⟨[], .nil, rfl, .nil⟩
  | @cons col x cols xs hx _ ih =>
    obtain ⟨he, v, hv, hliteral⟩ := hx
    obtain ⟨hcol, hl⟩ := List.forall_mem_cons.mp hl
    obtain ⟨hword, hn⟩ := List.forall_mem_cons.mp hn
    obtain ⟨as, has, hnames, hliterals⟩ := ih hn hl
    refine ⟨(col.name.toList, v) :: as, .cons ⟨he, reads_name hword, hv⟩ has, ?_, ?_⟩
    · rw [List.map_cons, List.map_cons, hnames]
    · exact .cons (hliteral hcol) hliterals

/-- The text of an UPDATE of a regular table is read back as one that matches it. -/
private theorem updateText_matches (ht : Regular t) {xs : List (List Char × List Char)}
    (hxs : AssignmentsFor t.columns xs) {pk : Column} (hpk : t.columns[0]? = some pk) :
    ∃ update, readUpdate (updateText t.name.toList xs pk.name.toList) = some update ∧
      update.Matches t := by
  obtain ⟨assignments, has, hnames, hliterals⟩ := hxs.exists_assignments ht.names ht.lengths
  refine ⟨_, readUpdate_updateText (reads_name ht.name)
    (reads_name (ht.names pk (List.mem_of_getElem? hpk))) has ?_, rfl, hnames, hliterals, ?_, rfl,
      rfl⟩
  · rintro rfl
    exact ht.filled_ne_nil (List.map_eq_nil_iff.mp hnames.symm)
  · rw [hpk]
    rfl

end Tables

/-- What an action has been told, and what it has said: the size it goes by, the table found last,
and the statements sent, with their results. -/
structure Dialogue where
  size : Option Nat := none
  found : Option Table := none
  sent : List (String × SqlResult) := []
  deriving DecidableEq, Repr

def Request.said : (q : Request) → q.Answer → Dialogue → Dialogue
  | .size .guard, n, d => { d with size := some n }
  | .lookup _, r, d => { d with found := r }
  | .executeQuery sql, r, d => { d with sent := d.sent ++ [(sql, r)] }
  | _, _, d => d

section Sending
variable {α : Type} {fits : Table → String → Prop} {found : Option Table}

def Request.lookedUp : (q : Request) → q.Answer → Option Table → Option Table
  | .lookup _, r, _ => r
  | _, _, found => found

/-- Statements may be sent that fit the table found last, and anything may be answered: random
numbers within their bounds, and whatever other threads make of the rest. -/
def sending (fits : Table → String → Prop) : Session Request Request.Answer (Option Table) where
  may found q := ∀ sql, q = .executeQuery sql → ∃ t, found = some t ∧ fits t sql
  next found q r found' := q.Given (fun _ _ => True) r ∧ found' = q.lookedUp r found

private theorem sending_tolerates : Tolerates (fun _ _ => True) (sending fits) found where
  may q hq sql he := by
    subst he
    cases hq
  next q r found' hq h := by
    refine ⟨?_, h.1⟩
    rw [h.2]
    cases q with
    | random | real => rfl
    | _ => cases hq

theorem sending_draws {P : α → Prop} {p : Execution α} {β : Type} {f : α → Execution β}
    (hp : Draws (fun _ _ => True) P p)
    (hf : ∀ a, P a → Keeps (sending fits) (fun _ _ => True) (fun _ _ => True) found (f a)) :
    Keeps (sending fits) (fun _ _ => True) (fun _ _ => True) found (p >>= f) := by
  refine keeps_bind.mpr ((hp.keeps sending_tolerates).mono ?_ fun _ _ _ => trivial)
  rintro a _ ⟨ha, rfl⟩
  exact hf a ha

theorem sending_perform {q : Request} {f : q.Answer → Execution α}
    (hq : ∀ sql, q ≠ .executeQuery sql) (hf : ∀ r, Keeps (sending fits) (fun _ _ => True)
      (fun _ _ => True) (q.lookedUp r found) (f r)) :
    Keeps (sending fits) (fun _ _ => True) (fun _ _ => True) found (perform q >>= f) := by
  refine ⟨fun sql he => absurd he (hq sql), fun r found' h => ?_⟩
  rw [h.2]
  exact hf r

theorem sending_executeQuery {t : Table} {sql : String} (h : fits t sql) :
    Keeps (sending fits) (fun _ _ => True) (fun _ _ => True) (some t) (executeQuery sql) := by
  refine ⟨fun sql' he => ?_, fun r found' _ => ?_⟩
  · cases he
    exact ⟨t, rfl, h⟩
  · rcases r with (_ | _ | _) | _ <;> trivial

/-- The loop that looks for a table goes on with the table it has found. -/
theorem sending_selectTable {β : Type} {f : Table → Execution β}
    (hf : ∀ t, Keeps (sending fits) (fun _ _ => True) (fun _ _ => True) (some t) (f t))
    (attempts : Nat) :
    Keeps (sending fits) (fun _ _ => True) (fun _ _ => True) found
      (selectTable attempts >>= f) := by
  induction attempts generalizing found with
  | zero => trivial
  | succ n ih =>
    refine sending_perform (fun sql => nofun) fun size => ?_
    refine sending_perform (q := .random .size _ _) (fun sql => nofun) fun v => ?_
    refine sending_perform (fun sql => nofun) fun r => ?_
    cases r with
    | none => exact ih
    | some t => exact hf t

def InsertFits (rows : Nat) (t : Table) (sql : String) : Prop :=
  Regular t → ∃ insert, readInsert sql.toList = some insert ∧ insert.Matches t rows

def UpdateFits (t : Table) (sql : String) : Prop :=
  Regular t → ∃ update, readUpdate sql.toList = some update ∧ update.Matches t

theorem insertText_fits {rows : Nat} (hrows : 1 ≤ rows) {t : Table} (ht : Regular t) {sql : String}
    (h : ∃ all, all.length = rows ∧ (∀ texts ∈ all, RowFor t.columns texts) ∧
      sql.toList = insertText t.name.toList
        ((filled t.columns).map fun col => col.name.toList) all) :
    ∃ insert, readInsert sql.toList = some insert ∧ insert.Matches t rows := by
  obtain ⟨all, rfl, hall, he⟩ := h
  rw [he]
  exact insertText_matches ht (List.ne_nil_of_length_pos hrows) hall

private theorem updateText_fits {t : Table} (ht : Regular t) {pk : Column}
    (hpk : t.columns[0]? = some pk)
    {sql : String} (h : ∃ xs, AssignmentsFor t.columns xs ∧ sql.toList =
      ("UPDATE " ++ t.name ++ " SET ").toList ++ [',', ' '].intercalate (xs.map assignmentText)) :
    ∃ update, readUpdate (sql ++ s!" WHERE {pk.name} IN (SELECT {pk.name} FROM {t.name}" ++
      " ORDER BY random() LIMIT 1);").toList = some update ∧ update.Matches t := by
  obtain ⟨xs, hxs, he⟩ := h
  have htext : (sql ++ s!" WHERE {pk.name} IN (SELECT {pk.name} FROM {t.name}" ++
      " ORDER BY random() LIMIT 1);").toList = updateText t.name.toList xs pk.name.toList := by
    unfold updateText
    simp [String.toList_append, he]
  rw [htext]
  exact updateText_matches ht hxs hpk

theorem insert_fits {rows : Nat} (hrows : 1 ≤ rows) (table : Option Table) (attempts : Nat) :
    Keeps (sending (InsertFits rows)) (fun _ _ => True) (fun _ _ => True) table
      (InsertData.execute table rows attempts) := by
  have send (t : Table) : Keeps (sending (InsertFits rows)) (fun _ _ => True) (fun _ _ => True)
      (some t) (InsertData.statement t rows >>= executeQuery) := by
    exact sending_draws (draws_insert t rows) fun sql hsql =>
      sending_executeQuery fun ht => insertText_fits hrows ht hsql
  refine sending_perform (fun sql => nofun) fun size => ?_
  split
  · trivial
  · cases table with
    | some t => exact send t
    | none => exact sending_selectTable send attempts

theorem update_fits (attempts : Nat) (found : Option Table) :
    Keeps (sending UpdateFits) (fun _ _ => True) (fun _ _ => True) found
      (UpdateOneRow.execute attempts) := by
  refine sending_perform (fun sql => nofun) fun size => ?_
  split
  · trivial
  · refine sending_selectTable (fun t => ?_) attempts
    refine sending_draws (draws_deref _) fun pk hpk => ?_
    exact sending_draws (draws_assignments _ _) fun sql hsql =>
      sending_executeQuery fun ht => updateText_fits ht hpk hsql

end Sending

section Talking
variable {α : Type} {fits : Table → String → Prop} {table : Option Table} {d : Dialogue}

/-- Anything may be answered: random numbers within their bounds, and whatever other threads make
of the rest. -/
def talking : Session Request Request.Answer Dialogue :=
  answering (fun q r => q.Given (fun _ _ => True) r) Request.said

/-- The statement that was sent, with its result: it fits the table that was given, or else the one
found last, and there was some table when the size was read. -/
def Dialogue.Sent (fits : Table → String → Prop) (table : Option Table) (r : SqlResult)
    (d : Dialogue) : Prop :=
  d.size ≠ some 0 ∧ ∃ t sql, table.or d.found = some t ∧ fits t sql ∧ d.sent = [(sql, r)]

/-- How an action may end that sends one statement about a table: it returns once the statement has
succeeded, or without a statement if there are no tables, and throws if the statement fails. It may
find no table in all its attempts, or one without columns. -/
def Concludes (fits : Table → String → Prop) (table : Option Table) :
    Except Halt Unit → Dialogue → Prop
  | .ok _, d => d.size = some 0 ∧ d.sent = [] ∨ d.Sent fits table (.returned .success)
  | .error .thrown, d => ∃ r, r ≠ .returned .success ∧ d.Sent fits table r
  | .error .unfinished, d => table = none ∧ d.found = none ∧ d.sent = []
  | .error .undefined, d => ∃ t, table.or d.found = some t ∧ t.columns = [] ∧ d.sent = []

/-- However it is answered, the action so ends. -/
def Concluding (fits : Table → String → Prop) (table : Option Table) (d : Dialogue)
    (p : Execution Unit) : Prop :=
  Keeps talking (fun u => Concludes fits table (.ok u)) (fun e => Concludes fits table (.error e))
    d p

private theorem concluding_perform {q : Request} {f : q.Answer → Execution Unit}
    (hf : ∀ r, Concluding fits table (q.said r d) (f r)) :
    Concluding fits table d (perform q >>= f) := by
  refine ⟨trivial, fun r d' h => ?_⟩
  obtain ⟨-, rfl⟩ := h
  exact hf r

private theorem concluding_draws {P : α → Prop} {p : Execution α} {f : α → Execution Unit}
    (hp : Yields (fun _ _ => True) P p) (hf : ∀ a, P a → Concluding fits table d (f a)) :
    Concluding fits table d (p >>= f) := by
  have htolerates : Tolerates (fun _ _ => True) talking d := by
    refine ⟨fun _ _ => trivial, fun q r d' hq h => ⟨?_, h.1⟩⟩
    rw [h.2]
    cases q with
    | random | real => rfl
    | _ => cases hq
  refine keeps_bind.mpr ((htolerates.keeps hp).mono ?_ fun _ _ he => he.1.elim)
  rintro a _ ⟨ha, rfl⟩
  exact hf a ha

private theorem concluding_executeQuery {t : Table} {sql : String} (hsize : d.size ≠ some 0)
    (hsent : d.sent = []) (hfound : table.or d.found = some t) (hfits : fits t sql) :
    Concluding fits table d (executeQuery sql) := by
  refine ⟨trivial, fun r d' h => ?_⟩
  obtain ⟨-, rfl⟩ := h
  have hone : (Request.said (.executeQuery sql) r d).Sent fits table r :=
    ⟨hsize, t, sql, hfound, hfits, by simp [Request.said, hsent]⟩
  rcases r with (_ | _ | _) | _
  · exact .inr hone
  · exact ⟨_, by decide, hone⟩
  · exact ⟨_, by decide, hone⟩
  · exact ⟨_, by decide, hone⟩

/-- The loop goes on with the table it has found, if it finds any. -/
private theorem concluding_selectTable {f : Table → Execution Unit} (hfound : d.found = none)
    (hsent : d.sent = []) (hf : ∀ t, Concluding fits none { d with found := some t } (f t))
    (attempts : Nat) : Concluding fits none d (selectTable attempts >>= f) := by
  induction attempts with
  | zero => exact ⟨rfl, hfound, hsent⟩
  | succ n ih =>
    refine concluding_perform fun size => ?_
    refine concluding_perform (q := .random .size _ _) fun v => ?_
    refine concluding_perform fun r => ?_
    cases r with
    | none =>
      have hsame : { d with found := none } = d := by rw [← hfound]
      exact hsame.symm ▸ ih
    | some t => exact hf t

private theorem concludes_of_run {ι : Type} [DecidableEq ι] {i : ι} {steps : Nat} {w w' : World ι}
    {d' : Dialogue} {p : Execution Unit} {o : Except Halt Unit} (h : Concluding fits table d p)
    (hrun : p.run (noting Request.said (alone i steps)) (w, d) = some (o, w', d')) :
    Concludes fits table o d' := by
  have hg (q : Request) (w : World ι) (r : q.Answer) (w' : World ι)
      (ha : alone i steps q w = some (r, w')) : q.Given (fun _ _ => True) r := alone_given ha
  have hend := keeps_run (Keeps.noted hg h) hrun
  cases o with
  | ok | error => exact hend

/-- Whatever is drawn and answered, an INSERT of at least one row and an UPDATE send one statement,
unless they have read that there are no tables, and it matches the table that was given, or else
the one they have found. Only an UPDATE of a table without columns and a search that finds no table
end otherwise. -/
theorem dml_statements_match {rows : Nat} (hrows : 1 ≤ rows) (table : Option Table)
    (attempts : Nat) :
    Concluding (InsertFits rows) table {} (InsertData.execute table rows attempts) ∧
      Concluding UpdateFits none {} (UpdateOneRow.execute attempts) := by
  constructor
  · have send (t : Table) {d : Dialogue} (hsize : d.size ≠ some 0) (hsent : d.sent = [])
        (hfound : table.or d.found = some t) : Concluding (InsertFits rows) table d
          (InsertData.statement t rows >>= executeQuery) := by
      exact concluding_draws ((yields_insert t rows).draws (draws_insert t rows)) fun sql hsql =>
        concluding_executeQuery hsize hsent hfound fun ht => insertText_fits hrows ht hsql
    refine concluding_perform fun size => ?_
    by_cases hsize : size = 0
    · simp only [hsize]
      exact .inl ⟨rfl, rfl⟩
    · have hsome : (Request.said (.size .guard) size {}).size ≠ some 0 := by
        simpa [Request.said] using hsize
      simp only [beq_iff_eq, hsize, if_false]
      cases table with
      | some t => exact send t hsome rfl rfl
      | none => exact concluding_selectTable rfl rfl (fun t => send t hsome rfl rfl) attempts
  · refine concluding_perform fun size => ?_
    by_cases hsize : size = 0
    · simp only [hsize]
      exact .inl ⟨rfl, rfl⟩
    · simp only [beq_iff_eq, hsize, if_false]
      refine concluding_selectTable rfl rfl (fun t => ?_) attempts
      cases hpk : t.columns[0]? with
      | none => exact ⟨t, rfl, by simpa using hpk, rfl⟩
      | some pk =>
        rw [deref, done_bind]
        refine concluding_draws ((yields_assignments _ _).draws (draws_assignments _ _))
          fun sql hsql => ?_
        refine concluding_executeQuery (by simpa [Request.said] using hsize) rfl rfl
          fun ht => updateText_fits ht hpk hsql

def foo : Table := ⟨"foo1", [⟨"col1", .INT, 0, true, true⟩, ⟨"col2", .VARCHAR, 20, false, false⟩]⟩

private theorem regular_foo : Regular foo where
  name := ⟨by decide, List.all_eq_true.mp rfl⟩
  names := by
    intro col hc
    rcases List.mem_pair.mp hc with rfl | rfl <;> exact ⟨by decide, List.all_eq_true.mp rfl⟩
  wide := by decide
  serial := by
    rintro (_ | _ | k) col hc
    · cases hc
      simp
    · cases hc
      simp
    · cases hc
  lengths := by decide

def oneFoo : GapFree Table where
  tables := [⟨0, foo⟩]
  movedToMap _ := npos
  nextTable := 1
  fits := by decide
  distinct := by decide
  older := by decide

def aloneWithFoo (draws : List Int) (r : SqlResult) : World (Fin 1) :=
  ⟨oneFoo.data, .closed, draws.map .drawn ++ [.sql r]⟩

def insertFoo : String := "INSERT INTO foo1 (col2 ) VALUES ('AB'), ('');"

def updateFoo : String :=
  "UPDATE foo1 SET col2 = 'a' WHERE col1 IN (SELECT col1 FROM foo1 ORDER BY random() LIMIT 1);"

/-- An INSERT of two rows that succeeds, and an UPDATE that fails. -/
theorem dml_statements_match_foo : Regular foo ∧
    (∃ w d, (InsertData.execute (some foo) 2 5).run (noting Request.said (alone 0 10))
        (aloneWithFoo [2, 10, 11, 0] (.returned .success), {}) = some (.ok (), w, d) ∧
      d.sent = [(insertFoo, .returned .success)] ∧ InsertFits 2 foo insertFoo) ∧
    ∃ w d, (UpdateOneRow.execute 5).run (noting Request.said (alone 0 10))
        (aloneWithFoo [0, 1, 36] (.returned .error), {}) = some (.error .thrown, w, d) ∧
      d.found = some foo ∧ d.sent = [(updateFoo, .returned .error)] ∧ UpdateFits foo updateFoo := by
  refine ⟨regular_foo, ?_, ?_⟩
  · obtain ⟨⟨o, w, d⟩, hrun, hd⟩ := Option.map_eq_some_iff.mp (show
      ((InsertData.execute (some foo) 2 5).run (noting Request.said (alone (0 : Fin 1) 10))
        (aloneWithFoo [2, 10, 11, 0] (.returned .success), {})).map (fun x => (x.1, x.2.2.sent)) =
          some (.ok (), [(insertFoo, .returned .success)]) by decide +kernel)
    obtain ⟨rfl, hsent⟩ := Prod.mk.inj hd
    refine ⟨w, d, hrun, hsent, ?_⟩
    rcases concludes_of_run (dml_statements_match (by decide) (some foo) 5).1 hrun with hnone | hone
    · rw [hnone.2] at hsent
      cases hsent
    · obtain ⟨-, t, sql, ht, hfits, hsql⟩ := hone
      cases ht
      rw [hsent] at hsql
      cases hsql
      exact hfits
  · obtain ⟨⟨o, w, d⟩, hrun, hd⟩ := Option.map_eq_some_iff.mp (show
      ((UpdateOneRow.execute 5).run (noting Request.said (alone (0 : Fin 1) 10))
        (aloneWithFoo [0, 1, 36] (.returned .error), {})).map
          (fun x => (x.1, x.2.2.found, x.2.2.sent)) =
            some (.error .thrown, some foo, [(updateFoo, .returned .error)]) by decide +kernel)
    obtain ⟨rfl, hd⟩ := Prod.mk.inj hd
    obtain ⟨hfound, hsent⟩ := Prod.mk.inj hd
    refine ⟨w, d, hrun, hfound, hsent, ?_⟩
    obtain ⟨r, -, -, t, sql, ht, hfits, hsql⟩ :=
      concludes_of_run (dml_statements_match (Nat.le_refl 1) none 5).2 hrun
    rw [hsent] at hsql
    cases hsql
    cases hfound.symm.trans ht
    exact hfits

end Talking
end PStress.Actions
