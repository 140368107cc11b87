import PStress.Actions.Catalogue
import PStress.Actions.Filling
import PStress.Actions.Shape

/-! What an action tells the server, by what it has reserved. It sends a DDL statement only for the
change it has prepared, and completes its reservation when that statement has been sent. -/
namespace PStress.Actions
open Interaction Metadata Program Text AlterTable
variable {α β : Type}

/-- What an action has reserved, and whether the statement for it was sent. -/
inductive Stance where
  | closed (table : Option Table)
  | creating (t : Table) (sent : Bool)
  | altering (o t : Table) (sent : Bool)
  | dropping (t : Table) (sent : Bool)

namespace Stance

def isOpen : Stance → Bool
  | closed _ => false
  | creating .. | altering .. | dropping .. => true

def table : Stance → Option Table
  | closed p => p
  | creating t _ | altering _ t _ | dropping t _ => some t

def write (t : Table) : Stance → Stance
  | creating _ sent => creating t sent
  | altering o _ sent => altering o t sent
  | st => st

def send : Stance → Stance
  | closed p => closed p
  | creating t _ => creating t true
  | altering o t _ => altering o t true
  | dropping t _ => dropping t true

/-- The statement is the one for the change, which was not sent. -/
def Describes : Stance → Ddl → Prop
  | creating t false, d => Legible t ∧ d = .create t.name (t.columns.map definition)
  | altering o t false, d => ∃ subs, Alters o t subs ∧ d = .alter o.name subs
  | dropping t false, d => d = .drop t.name
  | _, _ => False

def Editable : Stance → Prop
  | creating _ sent | altering _ _ sent => sent = false
  | closed _ | dropping .. => False

def Ready : Stance → Prop
  | closed _ => True
  | creating _ sent | dropping _ sent => sent = true
  | altering o t sent => sent = true ∨ t = o

end Stance

/-- The answers to each request and the stance after them. A DDL statement succeeds. -/
def dealt (st : Stance) : (q : Request) → q.Answer → Stance → Prop
  | .createTable, _, st' => st' = .closed none ∨ st' = .creating default false
  | .alterTable _, _, st' => st' = .closed none ∨ ∃ t, Legible t ∧ st' = .altering t t false
  | .dropTable _, _, st' => st' = .closed none ∨ ∃ t, Legible t ∧ st' = .dropping t false
  | .isOpen, b, st' => b = st.isOpen ∧ st' = st
  | .table, p, st' => p = st.table ∧ st' = st
  | .write t, _, st' => st' = st.write t
  | .complete, _, st' => st'.isOpen = false
  | .random _ min max, v, st' => (Drawn min max v ∧ OrderKept min max) ∧ st' = st
  | .executeQuery sql, r, st' => match readDdl sql.toList with
    | none => st' = st
    | some _ => r = .returned .success ∧ st' = st.send
  | .size _, _, st' | .lookup _, _, st' | .index, _, st' | .real, _, st' => st' = st

/-- A statement that the action may send: custom statements are not looked at. -/
def Sayable (a : Option Action) (st : Stance) (sql : String) : Prop :=
  (∃ c, a = some (.customSql c)) ∨ ∀ d, readDdl sql.toList = some d → st.Describes d

def dealings (a : Option Action) : Session Request Request.Answer Stance where
  may
    | st, .write _ => st.Editable
    | st, .complete => st.Ready
    | st, .executeQuery sql => Sayable a st sql
    | _, _ => True
  next st q r st' := dealt st q r st'

/-- The action keeps to the session and leaves no reservation open. -/
def Deals (a : Option Action) (st : Stance) (p : Execution α) : Prop :=
  Keeps (dealings a) (fun _ st => st.isOpen = false) (fun e st => e = .thrown → st.isOpen = false)
    st p

namespace Dealings
variable {a : Option Action} {st : Stance} {post : α → Stance → Prop}
  {fail : Halt → Stance → Prop}

theorem tolerates (a : Option Action) (st : Stance) :
    Tolerates OrderKept (dealings a) st where
  may q hq := by
    cases q with
    | random | real => trivial
    | _ => cases hq
  next q r st' hq hn := by
    cases q with
    | random => exact ⟨hn.2, hn.1⟩
    | real => exact ⟨hn, trivial⟩
    | _ => cases hq

section Rules

theorem keeps_draw {P : α → Prop} {p : Execution α} {f : α → Execution β}
    {post : β → Stance → Prop} (hp : Draws OrderKept P p) (hu : fail .undefined st)
    (hf : ∀ x, P x → Keeps (dealings a) post fail st (f x)) :
    Keeps (dealings a) post fail st (p >>= f) := by
  refine keeps_bind.mpr ((hp.keeps (tolerates a st)).mono ?_ ?_)
  · rintro x _ ⟨hx, rfl⟩
    exact hf x hx
  · rintro e _ ⟨rfl, rfl⟩
    exact hu

theorem keeps_size {use : SizeUse} {f : Nat → Execution α}
    (hf : ∀ n, Keeps (dealings a) post fail st (f n)) :
    Keeps (dealings a) post fail st (size use >>= f) := by
  refine ⟨trivial, fun n st' hn => ?_⟩
  obtain rfl : st' = st := hn
  exact hf n

theorem keeps_random {min max : Nat} {f : Nat → Execution α}
    (hf : ∀ v, Drawn min max v → OrderKept min max →
      Keeps (dealings a) post fail st (f (toSize v))) :
    Keeps (dealings a) post fail st (randomSize min max >>= f) := by
  refine ⟨trivial, fun v st' hv => ?_⟩
  obtain ⟨⟨hv, hd⟩, rfl⟩ := hv
  exact hf v hv hd

theorem keeps_lookup {idx : Nat} {f : Option Table → Execution α}
    (hf : ∀ p, Keeps (dealings a) post fail st (f p)) :
    Keeps (dealings a) post fail st (perform (.lookup idx) >>= f) := by
  refine ⟨trivial, fun p st' hp => ?_⟩
  obtain rfl : st' = st := hp
  exact hf p

theorem keeps_isOpen {f : Bool → Execution α}
    (hf : Keeps (dealings a) post fail st (f st.isOpen)) :
    Keeps (dealings a) post fail st (perform .isOpen >>= f) := by
  refine ⟨trivial, fun b st' hb => ?_⟩
  obtain ⟨rfl, rfl⟩ := hb
  exact hf

theorem keeps_table {f : Table → Execution α} (hu : fail .undefined st)
    (hf : ∀ t, st.table = some t → Keeps (dealings a) post fail st (f t)) :
    Keeps (dealings a) post fail st (perform .table >>= fun p => deref p >>= f) := by
  refine ⟨trivial, fun p st' hp => ?_⟩
  obtain ⟨rfl, rfl⟩ := hp
  cases hp : st'.table with
  | none => exact hu
  | some t => exact hf t hp

theorem keeps_write {t : Table} {f : Unit → Execution α} (he : st.Editable)
    (hf : Keeps (dealings a) post fail (st.write t) (f ())) :
    Keeps (dealings a) post fail st (perform (.write t) >>= f) := by
  refine ⟨he, fun _ st' hw => ?_⟩
  obtain rfl : st' = st.write t := hw
  exact hf

private theorem keeps_send {sql : String} {f : Unit → Execution α} {d : Ddl}
    (hread : readDdl sql.toList = some d) (hd : st.Describes d)
    (hf : Keeps (dealings a) post fail st.send (f ())) :
    Keeps (dealings a) post fail st (executeQuery sql >>= f) := by
  refine ⟨.inr fun d' hd' => ?_, fun r st' hr => ?_⟩
  · rw [hread] at hd'
    cases hd'
    exact hd
  · simp only [dealings, dealt, hread] at hr
    obtain ⟨rfl, rfl⟩ := hr
    exact hf

private theorem keeps_query {sql : String} {f : Unit → Execution α}
    (hread : readDdl sql.toList = none) (ht : fail .thrown st)
    (hf : Keeps (dealings a) post fail st (f ())) :
    Keeps (dealings a) post fail st (executeQuery sql >>= f) := by
  refine ⟨.inr fun d hd => ?_, fun r st' hr => ?_⟩
  · rw [hread] at hd
    cases hd
  · simp only [dealings, dealt, hread] at hr
    subst hr
    rcases r with (_ | _ | _) | _
    · exact hf
    · exact ht
    · exact ht
    · exact ht

theorem keeps_complete {post : Unit → Stance → Prop} (hr : st.Ready)
    (hp : ∀ st', st'.isOpen = false → post () st') (ht : st.isOpen = false → fail .thrown st) :
    Keeps (dealings a) post fail st complete := by
  refine keeps_isOpen ?_
  have now : Keeps (dealings a) post fail st (perform .complete) := ⟨hr, fun _ st' hc => hp st' hc⟩
  cases st with
  | closed => exact ht rfl
  | creating | altering | dropping => exact now

theorem keeps_destroy {post : Unit → Stance → Prop} (hr : st.Ready)
    (hp : ∀ st', st'.isOpen = false → post () st') :
    Keeps (dealings a) post fail st destroy := by
  refine keeps_isOpen ?_
  cases st with
  | closed p => exact hp (.closed p) rfl
  | creating | altering | dropping => exact keeps_complete hr hp fun hc => by cases hc

variable (a) in
/-- A callback leaves its reservation such that it may be completed, however it ends. -/
def Callback (st : Stance) (func : Execution Unit) : Prop :=
  Keeps (dealings a) (fun _ st => st.Ready) (fun e st => e = .thrown → st.Ready) st func

private theorem ready_of_not_open (h : st.isOpen = false) : st.Ready := by
  cases st with
  | closed => trivial
  | creating | altering | dropping => cases h

private theorem deals_callback {func : Execution Unit} (hf : Callback a st func) :
    Deals a st (ensuring Halt.unwinds destroy (func >>= fun _ => perform .index)) := by
  refine keeps_ensuring.mpr (keeps_bind.mpr (hf.mono (fun _ st' hr => ?_) fun e st' he => ?_))
  · refine ⟨trivial, fun n e hn => ?_⟩
    obtain rfl : e = st' := hn
    exact keeps_destroy hr fun _ => id
  · cases e with
    | thrown => exact keeps_destroy (he rfl) fun _ hopen _ => hopen
    | undefined | unfinished =>
      intro ht
      cases ht

private theorem deals_createTable {func : Execution Unit}
    (hf : ∀ st, st = .closed none ∨ st = .creating default false → Callback a st func) :
    Deals a st (createTable func) :=
  ⟨trivial, fun _ st' hr => deals_callback (hf st' hr)⟩

private theorem deals_alterTable {idx : Nat} {func : Execution Unit}
    (hf : ∀ st, (st = .closed none ∨ ∃ t, Legible t ∧ st = .altering t t false) →
      Callback a st func) : Deals a st (alterTable idx func) := by
  refine keeps_bind.mpr ⟨trivial, fun _ st' hr => ?_⟩
  exact (deals_callback (hf st' hr)).mono (fun _ _ => id) fun _ _ => id

private theorem deals_dropTable {idx : Nat} {func : Execution Unit}
    (hf : ∀ st, (st = .closed none ∨ ∃ t, Legible t ∧ st = .dropping t false) →
      Callback a st func) : Deals a st (dropTable idx func) := by
  refine keeps_bind.mpr ⟨trivial, fun _ st' hr => ?_⟩
  exact (deals_callback (hf st' hr)).mono (fun _ _ => id) fun _ _ => id

theorem ignore {p : Execution α} (hp : Deals a st p) : Deals a st (p >>= fun _ => .done ()) :=
  keeps_bind.mpr (hp.mono (fun _ _ => id) fun _ _ => id)

end Rules

section Actions
variable {config : DdlConfig}

/-- A table as a CREATE makes it is read back from its statement. -/
private theorem readDdl_created (number : Nat) {columns : List Column} {v : Int}
    (hv : 2 ≤ toSize v) (hcols : columns.length = toSize v ∧
      (∀ col ∈ columns, Definable col) ∧ ∀ col, columns[0]? = some col → col.primary_key = true) :
    Legible ⟨s!"foo{number}", columns⟩ ∧
      readDdl (CreateTable.statement ⟨s!"foo{number}", columns⟩).toList =
        some (.create s!"foo{number}" (columns.map definition)) := by
  obtain ⟨hlen, hdefinable, hfirst⟩ := hcols
  have hword : Word "foo" := ⟨by decide, List.all_eq_true.mp rfl⟩
  have hlegible : Legible ⟨s!"foo{number}", columns⟩ := ⟨word_number hword number, hdefinable⟩
  refine ⟨hlegible, readDdl_create hlegible ?_⟩
  cases columns with
  | nil =>
    rw [List.length_nil] at hlen
    omega
  | cons col columns => simp [Table.keys, hfirst col rfl]

theorem callback_create (hwide : 2 ≤ config.max_column_count) (st : Stance)
    (hst : st = .closed none ∨ st = .creating default false) :
    Callback a st (CreateTable.body config) := by
  refine keeps_table (fun ht => by cases ht) fun t ht => ?_
  obtain rfl | rfl := hst
  · cases ht
  cases ht
  refine keeps_draw (draws_randomInt (by decide)) (fun ht => by cases ht) fun number hnumber => ?_
  obtain ⟨hl, _⟩ := hnumber.between (by decide) (by decide) (by decide)
  obtain ⟨n, rfl⟩ := Int.eq_ofNat_of_zero_le (by omega : 0 ≤ number)
  refine keeps_random fun v hv hd => ?_
  refine keeps_draw (draws_legible (toSize v)) (fun ht => by cases ht) fun columns hcols => ?_
  have htwo : 2 ≤ toSize v := Drawn.le_toSize hv (by decide) (hd (by decide) (by omega))
  obtain ⟨hlegible, hread⟩ := readDdl_created n htwo hcols
  refine keeps_write rfl (keeps_send hread ⟨hlegible, rfl⟩ ?_)
  exact keeps_complete rfl (fun _ => ready_of_not_open) fun hc => by cases hc

private theorem deals_create (hwide : 2 ≤ config.max_column_count) (hst : st.isOpen = false)
    (n : Nat) :
    Deals a st (Action.execute n (.createTable config)) := by
  refine keeps_size fun size => ?_
  split
  · exact hst
  · exact ignore (deals_createTable (callback_create hwide))

theorem callback_drop (st : Stance)
    (hst : st = .closed none ∨ ∃ t, Legible t ∧ st = .dropping t false) :
    Callback a st DropTable.body := by
  refine keeps_isOpen ?_
  obtain rfl | ⟨t, ht, rfl⟩ := hst
  · trivial
  · refine keeps_table (fun ht => by cases ht) fun t' ht' => ?_
    cases ht'
    refine keeps_send (readDdl_drop ht.name) rfl ?_
    exact keeps_complete rfl (fun _ => ready_of_not_open) fun hc => by cases hc

private theorem deals_drop (hst : st.isOpen = false) (n : Nat) :
    Deals a st (Action.execute n (.dropTable config)) := by
  refine keeps_size fun size => ?_
  split
  · exact hst
  · refine keeps_size fun size => keeps_random fun v _ _ => ?_
    exact ignore (deals_dropTable callback_drop)

private theorem draws_sayable {D : Int → Int → Prop} (ham : ∀ am ∈ config.access_methods, Spoken am)
    (commands : List AlterSubcommand) (n columns : Nat) (changingAm : Bool) :
    Draws D (fun clauses => ∀ clause ∈ clauses, clause.Sayable)
      (drawClauses config commands n columns changingAm) := by
  induction n generalizing columns changingAm with
  | zero => exact .done fun clause hc => by cases hc
  | succ n ih =>
    refine Draws.bind (P := Clause.Sayable) ?_ fun clause hc => (ih _ _).bind fun clauses hcs =>
      .done (List.forall_mem_cons.mpr ⟨hc, hcs⟩)
    unfold drawClause
    refine (draws_randomSize (Nat.zero_le _)).bind fun _ _ =>
      (draws_deref _).bind fun command _ => ?_
    cases command with
    | addColumn => exact draws_definable.bind fun col hcol => .done hcol.1
    | changeColumn => exact .done trivial
    | dropColumn =>
      dsimp only
      split
      · exact .done trivial
      · have hdec : decrement columns = columns - 1 := decrement_of_pos (by omega)
        refine (draws_randomSize (by omega)).bind fun k _ => ?_
        split
        · exact .done trivial
        · exact .undefined
    | changeAccessMethod =>
      dsimp only
      split
      · exact .done trivial
      · exact (draws_randomSize (Nat.zero_le _)).bind fun _ _ => (draws_deref _).bind
          fun am hget => .done (ham am (List.mem_of_getElem? hget))

theorem callback_alter {commands : BitFlags} (ham : ∀ am ∈ config.access_methods, Spoken am)
    (st : Stance) (hst : st = .closed none ∨ ∃ t, Legible t ∧ st = .altering t t false) :
    Callback a st (AlterTable.body config commands) := by
  refine keeps_isOpen ?_
  obtain rfl | ⟨t, ht, rfl⟩ := hst
  · trivial
  · refine keeps_table (fun ht => by cases ht) fun t' ht' => ?_
    cases ht'
    refine keeps_random fun v _ _ => ?_
    rw [times_subcommand, bind_assoc]
    refine keeps_draw (draws_sayable ham _ _ _ _) (fun ht => by cases ht) fun clauses hsay => ?_
    rw [done_bind, foldl_columns, foldl_newColumns, List.nil_append]
    refine keeps_write rfl (keeps_table (fun ht => by cases ht) fun t' ht' => ?_)
    cases ht'
    have htexts := clauseTexts ⟨t.columns, [], [], false⟩ (definable_of_sayable hsay)
      (spelled_of_sayable (fun col hcol => (ht.columns col hcol).name) hsay) .nil
    rw [List.nil_append] at htexts
    by_cases hsubs : subcommands t.columns clauses = []
    · -- nothing is altered by a statement that says nothing
      obtain ⟨hsame, hnone⟩ := unchanged_of_subcommands hsubs
      have hunchanged : { t with columns := remaining t.columns clauses ++ added clauses } = t := by
        rw [hsame, hnone, List.append_nil]
      rw [hsubs, List.forall₂_nil_right_iff] at htexts
      rw [htexts]
      have hready : (Stance.altering t { t with
          columns := remaining t.columns clauses ++ added clauses } false).Ready := .inr hunchanged
      refine keeps_query (readDdl_alter_nil { t with columns := _ } ht.name)
        (fun _ => hready) ?_
      exact keeps_complete hready (fun _ => ready_of_not_open) fun hc => by cases hc
    · refine keeps_send (readDdl_alter { t with columns := _ } ht.name htexts hsubs)
        ⟨_, ⟨clauses, rfl, hsay, rfl⟩, rfl⟩ ?_
      exact keeps_complete (.inl rfl) (fun _ => ready_of_not_open) fun hc => by cases hc

private theorem deals_alter {commands : BitFlags} (ham : ∀ am ∈ config.access_methods, Spoken am)
    (n : Nat) : Deals a st (Action.execute n (.alterTable config commands)) := by
  refine keeps_size fun size => keeps_random fun v _ _ => ?_
  exact ignore (deals_alterTable (callback_alter ham))

private theorem deals_selectTable {f : Table → Execution α} (hf : ∀ t, Deals a st (f t))
    (hst : st.isOpen = false) (attempts : Nat) : Deals a st (selectTable attempts >>= f) := by
  induction attempts with
  | zero => exact fun _ => hst
  | succ attempts ih =>
    simp only [selectTable, bind_assoc]
    refine keeps_size fun size => keeps_random fun v _ _ => keeps_lookup fun p => ?_
    cases p with
    | none => exact ih
    | some t => exact hf t

private theorem deals_executeQuery {sql : String} (hst : st.isOpen = false)
    (hread : readDdl sql.toList = none) : Deals a st (executeQuery sql) := by
  have hk : Deals a st (executeQuery sql >>= Program.done) :=
    keeps_query hread (fun _ => hst) hst
  rwa [bind_done] at hk

private theorem deals_insert {table : Option Table} {rows : Nat} (hst : st.isOpen = false)
    (n : Nat) :
    Deals a st (Action.execute n (.insertData table rows)) := by
  have send (t : Table) : Deals a st (InsertData.statement t rows >>= executeQuery) := by
    refine keeps_draw (draws_insert t rows) (fun ht => by cases ht) fun sql hsql => ?_
    obtain ⟨all, _, _, he⟩ := hsql
    refine deals_executeQuery hst ?_
    rw [he]
    exact readDdl_eq_none (w := "INSERT".toList) (by decide) (by decide) _
  refine keeps_size fun size => ?_
  split
  · exact hst
  · cases table with
    | some t => exact send t
    | none => exact deals_selectTable send hst n

private theorem deals_delete {config : DmlConfig} (hst : st.isOpen = false) (n : Nat) :
    Deals a st (Action.execute n (.deleteData config)) := by
  refine keeps_size fun size => ?_
  split
  · exact hst
  · refine deals_selectTable (fun t => ?_) hst n
    refine keeps_draw (draws_deref _) (fun ht => by cases ht) fun col _ => ?_
    refine keeps_random fun v _ _ => deals_executeQuery hst ?_
    simp only [String.toList_append]
    exact readDdl_eq_none (w := "DELETE".toList) (by decide) (by decide) _

private theorem deals_update (hst : st.isOpen = false) (n : Nat) :
    Deals a st (Action.execute n .updateOneRow) := by
  refine keeps_size fun size => ?_
  split
  · exact hst
  · refine deals_selectTable (fun t => ?_) hst n
    refine keeps_draw (draws_deref _) (fun ht => by cases ht) fun col _ => ?_
    refine keeps_draw (draws_assignments _ _) (fun ht => by cases ht) fun sql hsql => ?_
    obtain ⟨xs, _, he⟩ := hsql
    refine deals_executeQuery hst ?_
    rw [String.toList_append, String.toList_append, he]
    simp only [String.toList_append]
    exact readDdl_eq_none (w := "UPDATE".toList) (by decide) (by decide) _

private theorem not_open_send (h : st.isOpen = false) : st.send.isOpen = false := by
  cases st with
  | closed => rfl
  | creating | altering | dropping => cases h

private theorem deals_custom {c : CustomSql} (hst : st.isOpen = false) (n : Nat) :
    Deals (some (.customSql c)) st (Action.execute n (.customSql c)) := by
  have send (sql : String) (st : Stance) (hst : st.isOpen = false) :
      Deals (some (.customSql c)) st (executeQuery sql) := by
    refine ⟨.inl ⟨c, rfl⟩, fun r st' hr => ?_⟩
    have hopen : st'.isOpen = false := by
      simp only [dealings, dealt] at hr
      split at hr
      · exact hr ▸ hst
      · exact hr.2 ▸ not_open_send hst
    rcases r with (_ | _ | _) | _
    · exact hopen
    · exact fun _ => hopen
    · exact fun _ => hopen
    · exact fun _ => hopen
  have inject (text : String) (p : String) (st : Stance) (hst : st.isOpen = false) :
      Keeps (dealings (some (.customSql c))) (fun _ st => st.isOpen = false)
        (fun e st => e = .thrown → st.isOpen = false) st (do
          let replacement ← CustomSql.doInject p n
          return text.replace ("\x7b" ++ p ++ "\x7d") replacement) := by
    unfold CustomSql.doInject
    split
    · rw [bind_bind]
      refine deals_selectTable (fun t => ?_) hst n
      exact hst
    · exact fun _ => hst
  refine keeps_bind.mpr ?_
  refine (keeps_foldlM (I := fun _ st => st.isOpen = false) inject c.injectParameters hst).mono
    ?_ ?_
  · exact fun sql st' hst' => send sql st' hst'
  · exact fun _ _ => id

end Actions
end Dealings

def Action.Sayable : Action → Prop
  | .createTable config => 2 ≤ config.max_column_count
  | .alterTable config _ => ∀ am ∈ config.access_methods, Spoken am
  | .dropTable _ | .insertData .. | .deleteData _ | .updateOneRow | .customSql _ => True

instance : (a : Action) → Decidable a.Sayable
  | .createTable config => inferInstanceAs (Decidable (2 ≤ config.max_column_count))
  | .alterTable config _ =>
    inferInstanceAs (Decidable (∀ am ∈ config.access_methods, Spoken am))
  | .dropTable _ | .insertData .. | .deleteData _ | .updateOneRow | .customSql _ =>
    inferInstanceAs (Decidable True)

/-- Every action tells the server just the changes it makes. -/
theorem deals_execute {a : Action} (h : a.Sayable) {st : Stance} (hst : st.isOpen = false)
    (n : Nat) : Deals (some a) st (a.execute n) := by
  cases a with
  | createTable config => exact Dealings.deals_create h hst n
  | dropTable config => exact Dealings.deals_drop hst n
  | alterTable config commands => exact Dealings.deals_alter h n
  | insertData table rows => exact Dealings.deals_insert hst n
  | deleteData config => exact Dealings.deals_delete hst n
  | updateOneRow => exact Dealings.deals_update hst n
  | customSql c => exact Dealings.deals_custom hst n

end PStress.Actions
