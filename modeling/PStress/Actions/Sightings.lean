import PStress.Actions.Regularity
import PStress.Actions.Retries
import PStress.Actions.Mirror

/-! The DML statements that workers send, beside the tables they have found: each says what it has
to say for the table found last, whose columns the server had when it was found. -/
namespace PStress.Actions
open Interaction Interleaving Metadata Program Records AlterTable Text
variable {ι : Type}

section Deletes

/-- A deletion of the rows whose `key` is among the `selected` of so many rows of `source`. -/
structure Delete where
  table : List Char
  key : List Char
  selected : List Char
  source : List Char
  limit : Nat
  deriving DecidableEq, Repr

def readDelete (s : List Char) : Option Delete :=
  match tokens s with
  | some [.word delete, .word a, .word table, .word b, .word key, .word c, .mark '(', .word d,
      .word selected, .word e, .word source, .word f, .word g, .word h, .mark '(', .mark ')',
      .word j, .word n, .mark ')', .mark ';'] =>
    if [delete, a, b, c, d, e, f, g, h, j] = ["DELETE".toList, "FROM".toList, "WHERE".toList,
      "IN".toList, "SELECT".toList, "FROM".toList, "ORDER".toList, "BY".toList, "random".toList,
      "LIMIT".toList] then (number n).map fun limit => ⟨table, key, selected, source, limit⟩
    else none
  | _ => none

structure Delete.Matches (delete : Delete) (t : Table) (config : DmlConfig) : Prop where
  table : delete.table = t.name.toList
  key : t.columns[0]?.map (fun col => col.name.toList) = some delete.key
  selected : delete.selected = delete.key
  source : delete.source = delete.table
  limit : ∃ v, Drawn config.deleteMin config.deleteMax v ∧ delete.limit = toSize v

def deleteText (name key : List Char) (limit : Nat) : List Char :=
  "DELETE FROM ".toList ++ (name ++ (" WHERE ".toList ++ (key ++ (" IN (SELECT ".toList ++ (key ++
    (" FROM ".toList ++ (name ++ (" ORDER BY random() LIMIT ".toList ++
      ((toString limit).toList ++ ");".toList)))))))))

private theorem toList_deleteText (name key : String) (limit : Nat) :
    (s!"DELETE FROM {name} WHERE {key} IN (SELECT {key} FROM {name}" ++
      s!" ORDER BY random() LIMIT {limit});").toList =
        deleteText name.toList key.toList limit := by
  unfold deleteText
  simp [String.toList_append]

private theorem readDelete_deleteText {name key : List Char} (hname : Reads name [.word name])
    (hkey : Reads key [.word key]) (limit : Nat) :
    readDelete (deleteText name key limit) = some ⟨name, key, key, name, limit⟩ := by
  have hall : tokens (deleteText name key limit) = some [.word "DELETE".toList,
      .word "FROM".toList, .word name, .word "WHERE".toList, .word key, .word "IN".toList,
      .mark '(', .word "SELECT".toList, .word key, .word "FROM".toList, .word name,
      .word "ORDER".toList, .word "BY".toList, .word "random".toList, .mark '(', .mark ')',
      .word "LIMIT".toList, .word (toString limit).toList, .mark ')', .mark ';'] := by
    have htext := (reads_all (w := "DELETE".toList) (by decide)).append_blank
      ((reads_all (w := "FROM".toList) (by decide)).append_blank (hname.append_blank
        (reads_where hname hkey (reads_number limit))))
    exact htext.tokens_eq
  rw [readDelete, hall]
  simp only [number_toString]
  rfl

end Deletes

/-- An INSERT of some rows, a DELETE or an UPDATE, of a table it selects itself. -/
def Action.Selects : Action → Prop
  | .insertData none rows => 1 ≤ rows
  | .deleteData _ | .updateOneRow => True
  | .insertData (some _) _ | .createTable _ | .dropTable _ | .alterTable .. | .customSql _ => False

/-- What the statement of an action has to say for a table. -/
def Action.Fits (a : Action) (t : Table) (sql : String) : Prop :=
  match a with
  | .insertData _ rows => ∃ insert, readInsert sql.toList = some insert ∧ insert.Matches t rows
  | .deleteData config =>
    ∃ delete, readDelete sql.toList = some delete ∧ delete.Matches t config
  | .updateOneRow => ∃ update, readUpdate sql.toList = some update ∧ update.Matches t
  | .createTable _ | .dropTable _ | .alterTable .. | .customSql _ => True

/-- It says so for tables that are as they are drawn. -/
def Action.FitsProper (a : Action) (t : Table) (sql : String) : Prop := t.Proper → a.Fits t sql

section Sending
variable {α : Type} {found : Option Table} {a : Action}

def Sends (a : Action) (found : Option Table) (p : Execution α) : Prop :=
  Keeps (sending a.FitsProper) (fun _ _ => True) (fun _ _ => True) found p

private theorem sending_mono {fits fits' : Table → String → Prop}
    (h : ∀ t sql, fits t sql → fits' t sql) {p : Execution α}
    (hp : Keeps (sending fits) (fun _ _ => True) (fun _ _ => True) found p) :
    Keeps (sending fits') (fun _ _ => True) (fun _ _ => True) found p := by
  induction p generalizing found with
  | done | stop => trivial
  | ask q k ih =>
    refine ⟨fun sql he => ?_, fun r found' hn => ih r (hp.2 r found' hn)⟩
    obtain ⟨t, hfound, hfits⟩ := hp.1 sql he
    exact ⟨t, hfound, h t sql hfits⟩

private theorem sends_delete (config : DmlConfig) (attempts : Nat) :
    Sends (.deleteData config) found (DeleteData.execute config attempts) := by
  refine sending_perform (fun sql => nofun) fun size => ?_
  split
  · trivial
  · refine sending_selectTable (fun t => ?_) attempts
    refine sending_draws (draws_deref _) fun pk hpk => ?_
    refine ⟨fun sql he => (by cases he), fun v found' hv => ?_⟩
    obtain ⟨⟨hdrawn, _⟩, rfl⟩ := hv
    refine sending_executeQuery fun ht => ?_
    have hread := readDelete_deleteText (reads_name ht.name)
      (reads_name (ht.columns pk (List.mem_of_getElem? hpk)).1) (toSize v)
    rw [← toList_deleteText] at hread
    have hmatches : Delete.Matches ⟨t.name.toList, pk.name.toList, pk.name.toList, t.name.toList,
        toSize v⟩ t config :=
      ⟨rfl, congrArg (Option.map fun col => col.name.toList) hpk, rfl, rfl, v, hdrawn, rfl⟩
    exact ⟨_, hread, hmatches⟩

private theorem sends_execute (h : a.Selects) (attempts : Nat) :
    Sends a none (a.execute attempts) := by
  cases a with
  | insertData table rows =>
    cases table with
    | none => exact sending_mono (fun t sql hf ht => hf ht.regular) (insert_fits h none attempts)
    | some t => cases h
  | deleteData config => exact sends_delete config attempts
  | updateOneRow =>
    exact sending_mono (fun t sql hf ht => hf ht.regular) (update_fits attempts none)
  | createTable | dropTable | alterTable | customSql => cases h

end Sending

def loading : Pc Table → Option Nat
  | .lookupLoad k => some k
  | _ => none

private theorem loading_eq_some {pc : Pc Table} {k : Nat} (h : loading pc = some k) :
    pc = .lookupLoad k := by
  cases pc with
  | lookupLoad =>
    cases h
    rfl
  | _ => cases h

def Found.record [DecidableEq ι] (s : State ι) (l : Label ι) (found : ι → Option Table) :
    ι → Option Table :=
  match l with
  | .begin i .. => Function.update found i none
  | .go .. => found
  | .tick i =>
    match loading (s.metadata.threads i).pc with
    | some k => Function.update found i ((s.metadata.data.tables k).map TablePtr.value)
    | none => found

/-- What the workers have found, and what they send then. -/
structure Fitting (s : State ι) (found : ι → Option Table) : Prop where
  proper : ∀ i t, found i = some t → t.Proper
  sends : ∀ i a, (s.workers i).action = some a → a.Selects →
    Sends a (found i) (s.workers i).program

section Steps
variable {d d' : InternalData ι Table} {r : Reservation Table} {pc : Pc Table} {t' : Thread Table}
  {a : Action} {found : Option Table}

private theorem serve_sends {x : Input} {q : Request} {k : q.Answer → Execution Unit}
    {ans : Option q.Answer} (h : serve x d r q = some (d', t', ans))
    (hk : Sends a found (.ask q k)) : Sends a found (resume q k ans) := by
  cases ans with
  | none => exact hk
  | some answer =>
    have hsame : q.lookedUp answer found = found := by
      cases q with
      | lookup idx =>
        obtain ⟨y, _, hans⟩ := Option.map_eq_some_iff.mp h
        cases hans
      | _ => rfl
    exact hk.2 answer found ⟨serve_given h, hsame.symm⟩

private theorem deliver_of_not_loading {p : Execution Unit} (h : loading pc = none) :
    deliver d pc p = p := by
  cases pc with
  | lookupLoad => cases h
  | _ => rfl

variable [DecidableEq ι] {s s' : State ι} {l : Label ι} {seen : ι → Option Table}

/-- What a step of worker `i` has to keep. -/
theorem Fitting.set {i : ι} {t : Thread Table} {w : Worker} {seen' : ι → Option Table}
    (hf : Fitting s seen) (others : ∀ j, j ≠ i → seen' j = seen j)
    (proper : ∀ t, seen' i = some t → t.Proper)
    (sends : ∀ a, w.action = some a → a.Selects → Sends a (seen' i) w.program) :
    Fitting (s.set i d t w) seen' := by
  refine ⟨fun j t hj => ?_, fun j a ha hsel => ?_⟩ <;> by_cases hji : j = i
  · subst hji
    exact proper t hj
  · exact hf.proper j t (others j hji ▸ hj)
  · subst hji
    have hsends := sends a (by simpa [State.set] using ha) hsel
    simpa [State.set] using hsends
  · have hsends := hf.sends j a (by simpa [State.set, hji] using ha) hsel
    simpa [State.set, hji, others j hji] using hsends

private theorem fitting_step (h : step s l = some s') (hs : Searches s)
    (hproper : ∀ k p, s.metadata.data.tables k = some p → p.value.Proper)
    (hf : Fitting s seen) : Fitting s' (Found.record s l seen) := by
  cases l with
  | begin i a n =>
    obtain ⟨_, _, rfl⟩ := step_begin h
    refine hf.set (fun j hj => by simp [Found.record, hj])
      (fun t ht => by simp [Found.record] at ht) fun b hb hsel => ?_
    cases hb
    simpa [Found.record] using sends_execute hsel n
  | go i x =>
    obtain ⟨r, q, k, d', t', ans, _, hask, hserve, rfl⟩ := step_go h
    refine hf.set (fun _ _ => rfl) (hf.proper i) fun b hb hsel => ?_
    have hk := hf.sends i b hb hsel
    rw [hask] at hk
    exact serve_sends hserve hk
  | tick i =>
    obtain ⟨d', t', ht, rfl⟩ := step_tick h
    cases hload : loading (s.metadata.threads i).pc with
    | none =>
      simp only [Found.record, hload]
      refine hf.set (fun _ _ => rfl) (hf.proper i) fun b hb hsel => ?_
      rw [deliver_of_not_loading hload]
      exact hf.sends i b hb hsel
    | some k =>
      have hpc := loading_eq_some hload
      obtain ⟨f, hask⟩ := head_eq_some (hs i k (by rw [hpc]; rfl))
      simp only [Found.record, hload]
      refine hf.set (fun j hj => Function.update_of_ne hj _ _) (fun t ht => ?_)
        fun b hb hsel => ?_
      · rw [Function.update_self] at ht
        obtain ⟨p, hp, rfl⟩ := Option.map_eq_some_iff.mp ht
        exact hproper k p hp
      · have hk := hf.sends i b hb hsel
        rw [hask] at hk ⊢
        rw [Function.update_self, hpc, deliver_lookup]
        exact hk.2 _ _ ⟨trivial, rfl⟩

end Steps

section Runs
variable [DecidableEq ι] {g : GapFree Table} {s : State ι} {found : ι → Option Table} {i : ι}
  {a : Action} {sql : String}

private theorem fitting_of_reach (hg : ∀ p ∈ g.tables, p.value.Proper)
    (h : Reach (Interleaving.recorded step Found.record) (fun x l => DrawsInOrder x.1 l)
      (.at g.data, fun _ => none) (s, found)) : Fitting s found := by
  refine h.invariant_with (I := fun x => Fitting x.1 x.2) (fun _ hx => hx)
    ⟨fun _ _ ht => (by cases ht), fun _ _ ha => (by cases ha)⟩ ?_
  rintro ⟨s, found⟩ l ⟨s', found'⟩ hx _ hf _ he
  obtain ⟨hstep, rfl⟩ := Interleaving.recorded_eq_some.mp he
  have hr : Reach step DrawsInOrder (.at g.data) s := hx.forget
  exact fitting_step hstep (searches_of_reach hr)
    (fun k p hp => proper_of_reach hg (fun _ _ hl => hl) hr hp) hf

omit [DecidableEq ι] in
theorem Fitting.sent (hf : Fitting s found) (ha : (s.workers i).action = some a) (hsel : a.Selects)
    (hsql : (s.workers i).program.head = some (.executeQuery sql)) :
    ∃ t, found i = some t ∧ t.Proper ∧ a.Fits t sql := by
  have hk := hf.sends i a ha hsel
  obtain ⟨f, hp⟩ := head_eq_some hsql
  rw [hp] at hk
  obtain ⟨t, ht, hfits⟩ := hk.1 sql rfl
  have hproper := hf.proper i t ht
  exact ⟨t, ht, hproper, hfits hproper⟩

/-- In every run from proper tables whose draws keep the order of their bounds, whatever the
workers do and however statements end: every table that an action finds is proper, and each INSERT
of some rows, DELETE or UPDATE that is sent says just what it has to for the table its action has
found. -/
theorem sent_statement_fits (hg : ∀ p ∈ g.tables, p.value.Proper)
    (h : Reach (Interleaving.recorded step Found.record) (fun x l => DrawsInOrder x.1 l)
      (.at g.data, fun _ => none) (s, found)) :
    (∀ i t, found i = some t → t.Proper) ∧
    ∀ i a sql, (s.workers i).action = some a → a.Selects →
      (s.workers i).program.head = some (.executeQuery sql) →
      ∃ t, found i = some t ∧ t.Proper ∧ a.Fits t sql :=
  ⟨(fitting_of_reach hg h).proper, fun _ _ _ ha hsel hsql =>
    (fitting_of_reach hg h).sent ha hsel hsql⟩

def Worker.deletes (w : Worker) : Option DmlConfig :=
  match w.action with
  | some (.deleteData config) => some config
  | _ => none

omit [DecidableEq ι] in
private theorem Worker.deletes_eq_some {w : Worker} {config : DmlConfig}
    (h : w.deletes = some config) :
    w.action = some (.deleteData config) := by
  unfold Worker.deletes at h
  split at h <;> cases h
  assumption

def Worker.inserts (w : Worker) : Option (Option Table × Nat) :=
  match w.action with
  | some (.insertData table rows) => some (table, rows)
  | _ => none

omit [DecidableEq ι] in
private theorem Worker.inserts_eq_some {w : Worker} {table : Option Table} {rows : Nat}
    (h : w.inserts = some (table, rows)) : w.action = some (.insertData table rows) := by
  unfold Worker.inserts at h
  split at h <;> cases h
  assumption

/-- A worker has begun the action, and finds the table with its first draw. -/
def selectFirst (a : Action) : List (Label Unit) :=
  [.begin () a 1, .go () .none, .go () .none, .go () (.drawn 0), .go () .none, .tick (), .tick (),
    .tick ()]

/-- A DELETE of five rows. -/
theorem sent_statement_fits_delete : ∃ (s : State Unit) (found : Unit → Option Table),
    execute (Interleaving.recorded step Found.record) (fun x l => DrawsInOrder x.1 l)
      (createOne ++ selectFirst (.deleteData {}) ++ [.go () (.drawn 5)])
      (.at GapFree.empty.data, fun _ => none) = some (s, found) ∧
      ∃ t, found () = some t ∧ t.Proper ∧ (Action.deleteData {}).Fits t
        "DELETE FROM foo1 WHERE col7 IN (SELECT col7 FROM foo1 ORDER BY random() LIMIT 5);" := by
  obtain ⟨⟨s, found⟩, he, hs⟩ := Option.map_eq_some_iff.mp (show
    (execute (Interleaving.recorded step Found.record) (fun x l => DrawsInOrder x.1 l)
      (createOne ++ selectFirst (.deleteData {}) ++ [.go () (.drawn 5)])
      (.at GapFree.empty.data, fun _ => none)).map (fun x =>
        ((x.1.workers ()).deletes, decide ((x.1.workers ()).program.head = some (.executeQuery
          "DELETE FROM foo1 WHERE col7 IN (SELECT col7 FROM foo1 ORDER BY random() LIMIT 5);")))) =
      some (some {}, true) by decide +kernel)
  obtain ⟨hconfig, hsql⟩ := Prod.mk.inj hs
  exact ⟨s, found, he, (sent_statement_fits (fun p hp => (by simp [GapFree.empty] at hp))
    (reach_of_execute _ he)).2 () _ _ (Worker.deletes_eq_some hconfig) trivial
      (of_decide_eq_true hsql)⟩

end Runs

/-- A table that was found, and its columns on the server at that time. -/
structure Sighting where
  table : Table
  columns : Option (List Definition)

/-- What each worker has found last since it began its action, beside the tables of the server. -/
def Sighting.record [DecidableEq ι] (s : State ι) (l : Label ι)
    (x : Catalogue × (ι → Option Sighting)) : Catalogue × (ι → Option Sighting) :=
  (catalogued s l x.1,
    match l with
    | .begin i .. => Function.update x.2 i none
    | .go .. => x.2
    | .tick i =>
      match loading (s.metadata.threads i).pc with
      | some k => Function.update x.2 i
        ((s.metadata.data.tables k).map fun p => ⟨p.value, x.1 p.value.name⟩)
      | none => x.2)

def Sighting.tables (seen : ι → Option Sighting) (i : ι) : Option Table :=
  (seen i).map Sighting.table

def Listed (seen : ι → Option Sighting) : Prop :=
  ∀ i σ, seen i = some σ → ∃ columns, σ.columns = some columns ∧ Mirrors σ.table columns

section Runs
variable [DecidableEq ι] {g : GapFree Table} {s : State ι} {l : Label ι} {db₀ db : Catalogue}
  {seen : ι → Option Sighting} {i : ι} {a : Action} {sql : String}

private theorem tables_record : Sighting.tables (Sighting.record s l (db, seen)).2 =
    Found.record s l (Sighting.tables seen) := by
  funext j
  cases l with
  | begin i =>
    by_cases hj : j = i <;> simp [Sighting.record, Found.record, Sighting.tables, hj]
  | go => rfl
  | tick i =>
    cases hload : loading (s.metadata.threads i).pc with
    | none => simp only [Sighting.record, Found.record, Sighting.tables, hload]
    | some k =>
      by_cases hj : j = i <;>
        simp [Sighting.record, Found.record, Sighting.tables, hload, hj, Function.comp_def]

private theorem listed_record (hl : Listed seen)
    (hload : ∀ i k, l = .tick i → loading (s.metadata.threads i).pc = some k → ∀ p,
      s.metadata.data.tables k = some p →
        ∃ columns, db p.value.name = some columns ∧ Mirrors p.value columns) :
    Listed (Sighting.record s l (db, seen)).2 := by
  intro j σ hσ
  cases l with
  | begin i =>
    by_cases hj : j = i
    · simp [Sighting.record, hj] at hσ
    · exact hl j σ (by simpa [Sighting.record, hj] using hσ)
  | go => exact hl j σ hσ
  | tick i =>
    cases hk : loading (s.metadata.threads i).pc with
    | none => exact hl j σ (by simpa only [Sighting.record, hk] using hσ)
    | some k =>
      simp only [Sighting.record, hk] at hσ
      by_cases hj : j = i
      · subst hj
        rw [Function.update_self] at hσ
        obtain ⟨p, hp, rfl⟩ := Option.map_eq_some_iff.mp hσ
        exact hload j k rfl hk p hp
      · rw [Function.update_of_ne hj] at hσ
        exact hl j σ hσ

private theorem found_of_seen
    (h : Reach (Interleaving.recorded step Sighting.record) (fun x l => Smooth (x.1, x.2.1) l)
      (.at g.data, db₀, fun _ => none) (s, db, seen)) :
    Reach (Interleaving.recorded step Found.record) (fun x l => DrawsInOrder x.1 l)
      (.at g.data, fun _ => none) (s, Sighting.tables seen) := by
  refine h.along (fun x => (x.1, Sighting.tables x.2.2)) fun x l y hl he => ?_
  obtain ⟨hs, hy⟩ := Interleaving.recorded_eq_some.mp he
  exact .inr ⟨l, hl.order, Interleaving.recorded_eq_some.mpr ⟨hs, by rw [hy, tables_record]⟩⟩

private theorem catalogued_of_seen
    (h : Reach (Interleaving.recorded step Sighting.record) (fun x l => Smooth (x.1, x.2.1) l)
      (.at g.data, db₀, fun _ => none) (s, db, seen)) :
    Reach (Interleaving.recorded step catalogued) Smooth (.at g.data, db₀) (s, db) := by
  refine h.along (fun x => (x.1, x.2.1)) fun x l y hl he => ?_
  obtain ⟨hs, hy⟩ := Interleaving.recorded_eq_some.mp he
  exact .inr ⟨l, hl, Interleaving.recorded_eq_some.mpr ⟨hs, by rw [hy]; rfl⟩⟩

private theorem listed_of_reach [Fintype ι]
    (hg : Lists Mirrors Table.name (fun k : Nat => g.tables[k]?.map TablePtr.value) db₀)
    (h : Reach (Interleaving.recorded step Sighting.record) (fun x l => Smooth (x.1, x.2.1) l)
      (.at g.data, db₀, fun _ => none) (s, db, seen)) : Listed seen := by
  refine h.invariant_with (I := fun x => Listed x.2.2) (fun _ hx => hx)
    (fun _ _ hσ => (by cases hσ)) ?_
  rintro ⟨s, db, seen⟩ l ⟨s', db', seen'⟩ hx _ hl _ he
  obtain ⟨_, hy⟩ := Interleaving.recorded_eq_some.mp he
  -- a lookup reads its slot at a moment when the server has the table stored there
  obtain ⟨_, _, hm⟩ := mirrored_of_reach hg (catalogued_of_seen hx)
  have hrecorded : Listed (Sighting.record s l (db, seen)).2 :=
    listed_record hl fun i k _ hk p hp =>
      hm.listed (allOwned_of_reach hx.unrecorded) (loading_eq_some hk) hp
  rwa [← hy] at hrecorded

/-- In every run in which the server accepts the DDL statements, each INSERT of some rows, DELETE or
UPDATE that is sent says what it has to for a table that the server had when the action found it,
under this name and with these columns, up to the types that ALTERs have changed on the server. -/
theorem sent_statement_fits_server [Fintype ι]
    (hg : Lists Mirrors Table.name (fun k : Nat => g.tables[k]?.map TablePtr.value) db₀)
    (hproper : ∀ p ∈ g.tables, p.value.Proper)
    (h : Reach (Interleaving.recorded step Sighting.record) (fun x l => Smooth (x.1, x.2.1) l)
      (.at g.data, db₀, fun _ => none) (s, db, seen))
    (ha : (s.workers i).action = some a) (hsel : a.Selects)
    (hsql : (s.workers i).program.head = some (.executeQuery sql)) :
    ∃ t columns, seen i = some ⟨t, some columns⟩ ∧ Mirrors t columns ∧ a.Fits t sql := by
  obtain ⟨t, ht, _, hfits⟩ := (fitting_of_reach hproper (found_of_seen h)).sent ha hsel hsql
  obtain ⟨⟨_, columns⟩, hσ, rfl⟩ := Option.map_eq_some_iff.mp ht
  obtain ⟨columns, rfl, hmirrors⟩ := listed_of_reach hg h i _ hσ
  exact ⟨_, columns, hσ, hmirrors, hfits⟩

/-- An INSERT into a table that was altered before. -/
theorem sent_statement_fits_server_insert : ∃ (s : State Unit) (db : Catalogue)
    (seen : Unit → Option Sighting),
    execute (Interleaving.recorded step Sighting.record) (fun x l => Smooth (x.1, x.2.1) l)
      (createOne ++ changeFirst ++ selectFirst (.insertData none 1) ++ [.go () (.drawn 5)])
      (.at GapFree.empty.data, fun _ => none, fun _ => none) = some (s, db, seen) ∧
      ∃ t columns, seen () = some ⟨t, some columns⟩ ∧ Mirrors t columns ∧
        (Action.insertData none 1).Fits t "INSERT INTO foo1 (col8 ) VALUES (5);" := by
  obtain ⟨⟨s, db, seen⟩, he, hs⟩ := Option.map_eq_some_iff.mp (show
    (execute (Interleaving.recorded step Sighting.record) (fun x l => Smooth (x.1, x.2.1) l)
      (createOne ++ changeFirst ++ selectFirst (.insertData none 1) ++ [.go () (.drawn 5)])
      (.at GapFree.empty.data, fun _ => none, fun _ => none)).map (fun x =>
        ((x.1.workers ()).inserts, decide ((x.1.workers ()).program.head =
          some (.executeQuery "INSERT INTO foo1 (col8 ) VALUES (5);")))) =
      some (some (none, 1), true) by decide +kernel)
  obtain ⟨hinsert, hsql⟩ := Prod.mk.inj hs
  exact ⟨s, db, seen, he, sent_statement_fits_server lists_empty
    (fun p hp => (by simp [GapFree.empty] at hp)) (reach_of_execute _ he)
    (Worker.inserts_eq_some hinsert) (Nat.le_refl 1) (of_decide_eq_true hsql)⟩

end Runs
end PStress.Actions
