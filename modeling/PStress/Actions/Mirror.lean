import PStress.Actions.Stances
import PStress.Actions.Validity
import PStress.Records.Directory

/-! The tables of the server beside those in memory. Along every run of the workers the catalogue
is what the acknowledged DDL statements make of it, read from their texts; it differs from the
tables in memory just by the reservations whose statement was sent. -/
namespace PStress.Actions
open Interaction Interleaving Metadata Program Records AlterTable
variable {ι : Type}

def Request.act : Request → Option (Act Table)
  | .createTable => some .createTable
  | .alterTable idx => some (.alterTable idx)
  | .dropTable idx => some (.dropTable idx)
  | .lookup idx => some (.lookup idx)
  | .write t => some (.edit fun _ => t)
  | .complete => some .complete
  | .size _ | .isOpen | .table | .index | .random .. | .real | .executeQuery _ => none

def Label.worker : Label ι → ι
  | .begin i .. | .go i _ | .tick i => i

def Label.Sayable : Label ι → Prop
  | .begin _ a _ => a.Sayable
  | .go .. | .tick _ => True

instance : (l : Label ι) → Decidable l.Sayable
  | .begin _ a _ => inferInstanceAs (Decidable a.Sayable)
  | .go .. | .tick _ => inferInstanceAs (Decidable True)

def Worker.custom (w : Worker) : Bool :=
  match w.action with
  | some (.customSql _) => true
  | _ => false

namespace State

def operation (s : State ι) : Label ι → Option (Metadata.Label ι Table)
  | .begin .. => none
  | .go i _ => (s.workers i).program.head.bind fun q => q.act.map (.run i)
  | .tick i => some (.run i .tick)

def event (s : State ι) (l : Label ι) : Option (Event ι Table) :=
  (s.operation l).bind s.metadata.event

def ddl (s : State ι) : Label ι → Option (Ddl × SqlResult)
  | .go i (.sql r) =>
    match (s.workers i).program.head with
    | some (.executeQuery sql) => (readDdl sql.toList).map fun d => (d, r)
    | _ => none
  | _ => none

end State

/-- The tables of the server after a step. -/
def catalogued (s : State ι) (l : Label ι) (db : Catalogue) : Catalogue :=
  match s.ddl l with
  | some (d, .returned .success) => d.apply db
  | _ => db

/-- What a statement names that has to be there is on the server. -/
def Ddl.Known (db : Catalogue) : Ddl → Prop
  | create .. => True
  | alter name subs => ∃ columns, db name = some columns ∧
    ∀ sub ∈ subs, ∀ c, sub.existing = some c → c ∈ columns.map Definition.name
  | drop name => (db name).isSome

/-- The server accepts every DDL statement, and can do so; custom statements are none. -/
def Acknowledged (x : State ι × Catalogue) (l : Label ι) : Prop :=
  ∀ y ∈ x.1.ddl l, y.2 = .returned .success ∧ y.1.Applicable x.2 ∧
    (x.1.workers l.worker).custom = false

variable [DecidableEq ι]

/-- The guard of the runs: the bounds of draws are in order, statements can be read, emptiness
found is found again, and the server accepts every DDL statement. -/
structure Smooth (x : State ι × Catalogue) (l : Label ι) : Prop where
  order : DrawsInOrder x.1 l
  sayable : l.Sayable
  stable : ∀ m ∈ x.1.operation l, EmptyStable x.1.metadata m
  acknowledged : Acknowledged x l

instance (x : State ι × Catalogue) (l : Label ι) : Decidable (Smooth x l) :=
  decidable_of_iff (DrawsInOrder x.1 l ∧ l.Sayable ∧
      (∀ m ∈ x.1.operation l, EmptyStable x.1.metadata m) ∧
      ∀ y ∈ x.1.ddl l, y.2 = .returned .success ∧ y.1.Applicable x.2 ∧
        (x.1.workers l.worker).custom = false)
    ⟨fun h => ⟨h.1, h.2.1, h.2.2.1, h.2.2.2⟩,
      fun h => ⟨h.order, h.sayable, h.stable, h.acknowledged⟩⟩

section Operations
variable {s s' : State ι} {l : Label ι}

omit [DecidableEq ι] in
private theorem serve_act {x : Input} {d d' : InternalData ι Table} {r : Reservation Table}
    {q : Request} {t' : Thread Table} {ans : Option q.Answer}
    (h : serve x d r q = some (d', t', ans)) :
    (q.act = none ∧ d' = d ∧ t' = ⟨r, .idle⟩) ∨
      ∃ a, q.act = some a ∧ call d r a = some (d', t') := by
  cases q with
  | createTable | alterTable | dropTable | lookup | write | complete =>
    obtain ⟨y, hy, he⟩ := Option.map_eq_some_iff.mp h
    cases he
    exact .inr ⟨_, rfl, hy⟩
  | size | isOpen | table | index =>
    cases h
    exact .inl ⟨rfl, rfl, rfl⟩
  | random | real | executeQuery =>
    simp only [serve] at h
    (repeat' split at h) <;> cases h
    exact .inl ⟨rfl, rfl, rfl⟩

theorem step_operation (h : step s l = some s') :
    (s.operation l = none ∧ s'.metadata = s.metadata) ∨
      ∃ m, s.operation l = some m ∧ Metadata.step s.metadata m = some s'.metadata := by
  cases l with
  | begin i a n =>
    obtain ⟨_, _, rfl⟩ := step_begin h
    exact .inl ⟨rfl, by simp [State.set]⟩
  | go i x =>
    obtain ⟨r, q, k, d', t', ans, hr, hp, hs, rfl⟩ := step_go h
    simp only [State.operation, hp, head, Option.bind_some]
    obtain ⟨hq, rfl, rfl⟩ | ⟨a, hq, hc⟩ := serve_act hs
    · exact .inl ⟨by simp [hq], by simp [State.set, ← hr]⟩
    · refine .inr ⟨.run i a, by simp [hq], step_run.mpr ⟨d', t', ?_, rfl⟩⟩
      rw [hr]
      cases a with
      | tick => cases hc
      | _ => exact hc
  | tick i =>
    obtain ⟨d', t', ht, rfl⟩ := step_tick h
    exact .inr ⟨_, rfl, step_run.mpr ⟨d', t', ht, rfl⟩⟩

private theorem stands_operation [Fintype ι] {base : List (TablePtr Table)} {m : Store ι Table}
    (h : step s l = some s') (ho : AllOwned s.metadata) (hc : Counted s.metadata)
    (hm : Stands base s.metadata m) (hg : ∀ m ∈ s.operation l, EmptyStable s.metadata m) :
    ∃ n, Does Store.Next m (s.event l) n ∧ Stands base s'.metadata n := by
  obtain ⟨hnone, hsame⟩ | ⟨o, hsome, hstep⟩ := step_operation h
  · refine ⟨m, ?_, hsame ▸ hm⟩
    rw [State.event, hnone]
    rfl
  · rw [State.event, hsome]
    exact stands_step hstep ho hc hm (hg o (by simp [hsome]))

end Operations

/-- How the tables of the server agree with those in memory: the identities of the tables on the
server and the handles whose statement was sent are `h`. -/
structure Mirrored (base : List (TablePtr Table)) [Fintype ι] (s : State ι) (db : Catalogue)
    (m : Store ι Table) (h : Shadow ι Table) : Prop where
  stands : Stands base s.metadata m
  sound : m.Sound
  shadows : Shadows m h
  settled : ∀ i, m.grants i = none → h.announced i = false
  lists : Lists Mirrors Table.name h.live db
  ready : ∀ i, (s.metadata.threads i).pc.completing = true → m.grants i ≠ none →
    Shadow.Allows m h (.commit i)
  deals : ∀ i st, Stance.Ends (m.grants i) (h.announced i) (s.metadata.threads i) st →
    Deals (s.workers i).action st (s.workers i).program

section Stances
variable {m : Store ι Table} {h : Shadow ι Table} {i : ι}

omit [DecidableEq ι] in
private theorem allows_of_ready {p : Option (TablePtr Table)}
    (hr : (Stance.of (m.grants i) p (h.announced i)).Ready) (hg : m.grants i ≠ none) :
    Shadow.Allows m h (.commit i) := by
  rcases hgrant : m.grants i with _ | ⟨q | ⟨b, k, o, q⟩⟩
  · exact absurd hgrant hg
  · rw [hgrant] at hr
    exact .inl hr
  · rw [hgrant] at hr
    cases b with
    | true => exact .inl hr
    | false => exact hr.imp_right fun hq => ⟨k, o, q, hgrant, hq⟩

private theorem of_edit {g : Grant Table} {p p' : Option (TablePtr Table)} {sent : Bool} (t : Table)
    (hg : ∀ k o q, g ≠ .slot true k o q) :
    Stance.of (some (g.edit fun _ => t)) p' sent = (Stance.of (some g) p sent).write t := by
  rcases g with q | ⟨_ | _, k, o, q⟩
  · rfl
  · rfl
  · exact absurd rfl (hg k o q)

private theorem unannounced_of_editable {g : Option (Grant Table)} {p : Option (TablePtr Table)}
    {sent : Bool} (he : (Stance.of g p sent).Editable) : sent = false := by
  rcases g with _ | ⟨_ | ⟨_ | _, _, _, _⟩⟩
  · exact he.elim
  · exact he
  · exact he
  · exact he.elim

private theorem granted_of_describes {g : Option (Grant Table)} {p : Option (TablePtr Table)}
    {sent : Bool} {d : Ddl} (hd : (Stance.of g p sent).Describes d) :
    sent = false ∧ ∃ g', g = some g' := by
  rcases g with _ | ⟨_ | ⟨_ | _, _, _, _⟩⟩
  · exact hd.elim
  all_goals
    cases sent with
    | false => exact ⟨rfl, _, rfl⟩
    | true => exact hd.elim

private theorem of_send (g : Grant Table) (p : Option (TablePtr Table)) (sent : Bool) :
    (Stance.of (some g) p sent).send = Stance.of (some g) p true := by
  rcases g with _ | ⟨_ | _, _, _, _⟩ <;> rfl

end Stances

section Lists
variable {m : Store ι Table} {h : Shadow ι Table} {db : Catalogue} {i : ι}

omit [DecidableEq ι] in
/-- A stored table that nobody has reserved is on the server. -/
private theorem listed_of_free (hs : Shadows m h) (hl : Lists Mirrors Table.name h.live db)
    {k : Nat} {p : TablePtr Table} (hk : m.contents[k]? = some p)
    (hr : ∀ j, m.Reserved j k → h.announced j = false) :
    ∃ columns, db p.value.name = some columns ∧ Mirrors p.value columns :=
  hl.found p.id p.value (hs.stored k p hk hr)

omit [DecidableEq ι] in
/-- A table that is reserved is on the server until its statement is sent. -/
private theorem live_of_unsent (hm : m.Sound) (hs : Shadows m h) {b : Bool} {k : Nat}
    {o q : TablePtr Table} (hg : m.grants i = some (.slot b k o q)) (hnot : h.announced i = false) :
    h.live o.id = some o.value := by
  refine hs.stored k o (hm.kept i b k o q hg).1 fun j hj => ?_
  rwa [hm.alone j i k hj ⟨b, o, q, hg⟩]

omit [DecidableEq ι] in
private theorem known_of_describes (hm : m.Sound) (hs : Shadows m h)
    (hl : Lists Mirrors Table.name h.live db) {d : Ddl} {p : Option (TablePtr Table)}
    (hd : (Stance.of (m.grants i) p (h.announced i)).Describes d) : d.Known db := by
  obtain ⟨hnot, g, hg⟩ := granted_of_describes hd
  rw [hg, hnot] at hd
  cases g with
  | place q =>
    obtain ⟨_, rfl⟩ := hd
    trivial
  | slot b k o q =>
    obtain ⟨columns, hdb, hmirrors⟩ := hl.found o.id o.value (live_of_unsent hm hs hg hnot)
    cases b with
    | true =>
      obtain rfl := hd
      simp [Ddl.Known, hdb]
    | false =>
      obtain ⟨_, ⟨clauses, rfl, _, _⟩, rfl⟩ := hd
      refine ⟨columns, hdb, fun sub hsub c hc => ?_⟩
      obtain ⟨col, hcol, rfl⟩ := exists_of_existing hsub hc
      rw [hmirrors.names]
      exact List.mem_map_of_mem hcol

/-- A statement that is sent and accepted does to the catalogue what it announces. -/
private theorem lists_announce (hm : m.Sound) (hs : Shadows m h)
    (hl : Lists Mirrors Table.name h.live db) {g : Grant Table} (hg : m.grants i = some g)
    {d : Ddl} {p : Option (TablePtr Table)}
    (hd : (Stance.of (some g) p (h.announced i)).Describes d) (ha : d.Applicable db) :
    Lists Mirrors Table.name (h.announce i g).live (d.apply db) := by
  have hnot : h.announced i = false := (granted_of_describes hd).1
  rw [hnot] at hd
  cases g with
  | place q =>
    obtain ⟨hlegible, rfl⟩ := hd
    have hfree : h.live q.id = none := by simpa [hnot] using hs.placed i q hg
    exact hl.insert hfree ha.1 (mirrors_create hlegible ha.2)
  | slot b k o q =>
    have hlive := live_of_unsent hm hs hg hnot
    cases b with
    | true =>
      obtain rfl := hd
      exact hl.remove hlive
    | false =>
      obtain ⟨subs, halters, rfl⟩ := hd
      obtain ⟨columns, hcolumns, hnames⟩ := ha
      obtain ⟨columns', hdb, hmirrors⟩ := hl.found o.id o.value hlive
      cases hdb.symm.trans hcolumns
      have hid : q.id = o.id := (hm.kept i false k o q hg).2.1
      have hname : q.value.name = o.value.name := by
        obtain ⟨_, _, _, hq⟩ := halters
        rw [hq]
      have hreplaced := hl.replace hlive hname (hmirrors.alter halters hnames)
      simpa [Ddl.apply, Shadow.announce, Grant.announce, hdb, hid, hname] using hreplaced

end Lists

section Preserved
variable [Fintype ι] {base : List (TablePtr Table)} {s s' : State ι} {db db' : Catalogue}
  {m n : Store ι Table} {h k : Shadow ι Table} {i : ι}

/-- What a step of worker `i` has to keep. -/
theorem Mirrored.set (hm : Mirrored base s db m h) {d : InternalData ι Table} {t : Thread Table}
    {w : Worker}
    (others : ∀ j, j ≠ i → n.grants j = m.grants j ∧ k.announced j = h.announced j)
    (stands : Stands base (s.set i d t w).metadata n) (sound : n.Sound) (shadows : Shadows n k)
    (settled : n.grants i = none → k.announced i = false)
    (lists : Lists Mirrors Table.name k.live db')
    (ready : t.pc.completing = true → n.grants i ≠ none → Shadow.Allows n k (.commit i))
    (deals : ∀ st, Stance.Ends (n.grants i) (k.announced i) t st → Deals w.action st w.program) :
    Mirrored base (s.set i d t w) db' n k := by
  refine ⟨stands, sound, shadows, fun j hj => ?_, lists, fun j hpc hj => ?_, fun j st hst => ?_⟩ <;>
    by_cases hji : j = i
  · exact hji ▸ settled (hji ▸ hj)
  · obtain ⟨hgrants, hannounced⟩ := others j hji
    rw [hannounced]
    exact hm.settled j (hgrants ▸ hj)
  · subst hji
    exact ready (by simpa [State.set] using hpc) hj
  · obtain ⟨hgrants, hannounced⟩ := others j hji
    have hallows := hm.ready j (by simpa [State.set, hji] using hpc) (hgrants ▸ hj)
    simpa [Shadow.Allows, hgrants, hannounced] using hallows
  · subst hji
    have hdeals := deals st (by simpa [State.set] using hst)
    simpa [State.set] using hdeals
  · obtain ⟨hgrants, hannounced⟩ := others j hji
    rw [hgrants, hannounced] at hst
    have hdeals := hm.deals j st (by simpa [State.set, hji] using hst)
    simpa [State.set, hji] using hdeals

omit [Fintype ι] in
private theorem grants_of_does {a : Act Table} {d : InternalData ι Table} {t : Thread Table}
    (he : Does Store.Next m (t.event i a d) n) {j : ι} (hj : j ≠ i) :
    n.grants j = m.grants j := by
  cases hevent : t.event i a d with
  | none =>
    rw [hevent] at he
    cases he
    rfl
  | some e =>
    rw [hevent] at he
    exact he.frame (event_of hevent) hj

omit [Fintype ι] in
private theorem sound_of_does {o : Option (Event ι Table)} (hm : m.Sound)
    (he : Does Store.Next m o n) :
    n.Sound := by
  cases o with
  | none =>
    cases he
    exact hm
  | some e => exact hm.next he

private theorem mirrored_begin {a : Action} {c : Nat} (hs : step s (.begin i a c) = some s')
    (ha : a.Sayable) (hm : Mirrored base s db m h) : Mirrored base s' db m h := by
  obtain ⟨hpc, hfin, rfl⟩ := step_begin hs
  have hstands : Stands base (s.set i s.metadata.data (s.metadata.threads i)
      ⟨some a, a.execute c⟩).metadata m := by
    simpa [State.set] using hm.stands
  refine hm.set (fun _ _ => ⟨rfl, rfl⟩) hstands hm.sound hm.shadows (hm.settled i) hm.lists
    (fun hc => by simp [hpc, Pc.completing] at hc) fun st hst => ?_
  have hdeals := hm.deals i st hst
  have hclosed : st.isOpen = false := by
    cases hp : (s.workers i).program with
    | done => simpa [Deals, hp] using hdeals
    | stop x =>
      rw [hp] at hdeals hfin
      cases x with
      | thrown => exact hdeals rfl
      | undefined | unfinished => cases hfin
    | ask =>
      rw [hp] at hfin
      cases hfin
  exact deals_execute ha hclosed c

omit [DecidableEq ι] [Fintype ι] in
private theorem deliver_deals {d : InternalData ι Table} {pc : Pc Table} {a : Option Action}
    {st : Stance} {p : Execution Unit} (hd : Deals a st p) : Deals a st (deliver d pc p) := by
  unfold deliver
  split
  · rename_i q k
    cases q with
    | lookup idx => exact hd.2 _ st rfl
    | _ => exact hd
  · exact hd

private theorem mirrored_tick (hs : step s (.tick i) = some s') (ho : AllOwned s.metadata)
    (hm : Mirrored base s db m h) (he : Does Store.Next m (s.event (.tick i)) n)
    (hn : Stands base s'.metadata n) (ho' : AllOwned s'.metadata) :
    ∃ k, Mirrored base s' db n k := by
  obtain ⟨d', t', ht, rfl⟩ := step_tick hs
  have he : Does Store.Next m (Thread.event i .tick s.metadata.data (s.metadata.threads i)) n := he
  have hgrant : n.grants i = t'.grant n.contents := by
    simpa [State.set] using (shown ho' hn i).grant
  have hok := (ho i).ok
  have hdeals := hm.deals i
  have hready := hm.ready i
  generalize s.metadata.threads i = t at ht he hok hdeals hready
  obtain ⟨r, pc⟩ := t
  have hnone := hm.settled i
  have hallows : ∀ e, Thread.event i .tick s.metadata.data ⟨r, pc⟩ = some e →
      Shadow.Allows m h e := by
    intro e hevent
    rw [hevent] at he
    obtain ⟨hpc, rfl⟩ | ⟨_, ⟨p, rfl⟩ | ⟨b, k, p, rfl⟩ | ⟨k, rfl⟩ | ⟨k, p, rfl⟩⟩ := event_tick hevent
    · exact hready hpc he.spent.1
    · cases he
      exact hnone (by assumption)
    · cases he
      exact hnone (by assumption)
    · trivial
    · trivial
  have hshadows : Shadows n h := by
    cases hevent : Thread.event i .tick s.metadata.data ⟨r, pc⟩ with
    | none =>
      rw [hevent] at he
      cases he
      exact hm.shadows
    | some e =>
      rw [hevent] at he
      exact hm.shadows.next hm.sound he (hallows e hevent)
  have hlegible : ∀ k p, m.contents[k]? = some p → (∀ j, ¬ m.Reserved j k) → Legible p.value := by
    intro k p hk hr
    obtain ⟨_, _, hmirrors⟩ := listed_of_free hm.shadows hm.lists hk fun j hj => absurd hj (hr j)
    exact hmirrors.1
  have hsound := sound_of_does hm.sound he
  by_cases hgi : n.grants i = none
  · refine ⟨h.reset i, hm.set (fun j hj => ⟨grants_of_does he hj, by simp [Shadow.reset, hj]⟩) hn
      hsound (hshadows.reset hgi) (fun _ => by simp [Shadow.reset]) hm.lists
      (fun _ hne => absurd hgi hne) fun st hst => deliver_deals (hdeals st ?_)⟩
    exact tick_ends ht hok he hgrant hnone (fun hne => absurd hgi hne) hlegible hst
  · refine ⟨h, hm.set (fun j hj => ⟨grants_of_does he hj, rfl⟩) hn hsound hshadows
      (fun hnone => absurd hnone hgi) hm.lists (fun hpc hne => ?_) fun st hst =>
        deliver_deals (hdeals st ?_)⟩
    · have hold := completing_of_tick ht hpc
      cases hevent : Thread.event i .tick s.metadata.data ⟨r, pc⟩ with
      | none =>
        rw [hevent] at he
        cases he
        exact hready hold hne
      | some e =>
        rw [hevent] at he
        obtain ⟨_, rfl⟩ | ⟨hpc', _⟩ := event_tick hevent
        · exact absurd he.spent.2 hgi
        · simp [hold] at hpc'
    · exact tick_ends ht hok he hgrant hnone (fun _ => rfl) hlegible hst

omit [DecidableEq ι] [Fintype ι] in
private theorem of_table {r : Reservation Table} {sent : Bool} (hm : m.Sound)
    (hg : m.grants i = r.grant m.contents) :
    (Stance.of (m.grants i) r.table sent).table = r.table.map TablePtr.value := by
  cases hgrant : m.grants i with
  | none => rfl
  | some g =>
    have htable := (table_of_grant (t := ⟨r, .idle⟩) (hg.symm.trans hgrant)).1
    rw [htable]
    rcases g with q | ⟨_ | _, k, o, q⟩
    · rfl
    · rfl
    · rw [Grant.ptr, (hm.kept i true k o q hgrant).2.2 rfl]
      rfl

section Requests
variable {x : Input} {r : Reservation Table} {q : Request} {f : q.Answer → Execution Unit}
  {d' : InternalData ι Table} {t' : Thread Table} {ans : Option q.Answer} {p : Execution Unit}

omit [Fintype ι] [DecidableEq ι] in
private theorem event_go (hr : s.metadata.threads i = ⟨r, .idle⟩)
    (hp : (s.workers i).program = .ask q f) :
    s.event (.go i x) = q.act.bind fun a => Thread.event i a s.metadata.data ⟨r, .idle⟩ := by
  simp only [State.event, State.operation, hp, head, Option.bind_some]
  cases q.act with
  | none => rfl
  | some a => simp [Metadata.State.event, hr]

omit [Fintype ι] [DecidableEq ι] in
private theorem ddl_go (hp : (s.workers i).program = .ask q f) (hq : ∀ sql, q ≠ .executeQuery sql) :
    s.ddl (.go i x) = none := by
  cases x with
  | sql result =>
    simp only [State.ddl, hp, head]
    cases q with
    | executeQuery sql => exact absurd rfl (hq sql)
    | _ => rfl
  | _ => rfl

/-- A worker that makes a request, beside what its handle has been granted. -/
structure Asking (s : State ι) (m : Store ι Table) (h : Shadow ι Table) (i : ι)
    (r : Reservation Table) (q : Request) (f : q.Answer → Execution Unit) : Prop where
  thread : s.metadata.threads i = ⟨r, .idle⟩
  program : (s.workers i).program = .ask q f
  resting : Resting s.metadata.data r
  granted : m.grants i = r.grant m.contents
  isSome : (m.grants i).isSome = r.isOpen
  deals : Deals (s.workers i).action (.of (m.grants i) r.table (h.announced i)) (.ask q f)

omit [DecidableEq ι] in
theorem Mirrored.asking (hm : Mirrored base s db m h) (ho : AllOwned s.metadata)
    (hr : s.metadata.threads i = ⟨r, .idle⟩) (hp : (s.workers i).program = .ask q f) :
    Asking s m h i r q f := by
  have hok := (ho i).ok
  have hplace := hm.stands.dense.inPlace i
  have hdeals := hm.deals i (.of (m.grants i) r.table (h.announced i)) (by rw [hr]; rfl)
  have hgranted : m.grants i = r.grant m.contents := by
    simpa [hr, Thread.grant, Pc.effected] using (shown ho hm.stands i).grant
  rw [hr] at hok hplace
  rw [hp] at hdeals
  exact ⟨hr, hp, hok, hgranted, by rw [hgranted, grant_isSome hok hplace], hdeals⟩

omit [DecidableEq ι] [Fintype ι] in
/-- The deals of the program when a request has been answered that is no statement, and that grants
and gives up nothing. -/
private theorem Asking.resumed (ha : Asking s m h i r q f) (hsound : m.Sound)
    (hserve : serve x s.metadata.data r q = some (d', t', ans)) (horder : q.InOrder)
    (hq : ∀ sql, q ≠ .executeQuery sql)
    (hquiet : (q.act.bind fun a => Thread.event i a s.metadata.data ⟨r, .idle⟩) = none)
    (hgrant : m.grants i = t'.grant m.contents) {st : Stance}
    (hst : Stance.Ends (m.grants i) (h.announced i) t' st) :
    Deals (s.workers i).action st (resume q f ans) := by
  obtain ⟨_, hnext⟩ := ha.deals
  cases q with
  | size | index =>
    cases hserve
    exact hnext _ st hst
  | isOpen =>
    cases hserve
    exact hnext _ st ⟨by rw [Stance.of_isOpen, ha.isSome], hst⟩
  | table =>
    cases hserve
    exact hnext _ st ⟨(of_table hsound ha.granted).symm, hst⟩
  | random type min max =>
    simp only [serve] at hserve
    (repeat' split at hserve) <;> cases hserve
    exact hnext _ st ⟨⟨by assumption, horder⟩, hst⟩
  | real =>
    simp only [serve] at hserve
    (repeat' split at hserve) <;> cases hserve
    exact hnext _ st hst
  | createTable =>
    obtain ⟨⟨d₁, t₁⟩, hy, hx⟩ := Option.map_eq_some_iff.mp hserve
    cases hx
    cases called_of_call hy ha.resting with
    | reserve => exact hnext () st hst
    | refuse =>
      refine hnext () st (.inl (hst.trans (Stance.of_not_granted ?_ _ _)))
      exact hgrant.trans (grant_closed m.contents)
  | alterTable idx | dropTable idx =>
    obtain ⟨⟨d₁, t₁⟩, hy, hx⟩ := Option.map_eq_some_iff.mp hserve
    cases hx
    cases called_of_call hy ha.resting
    exact hnext () st hst
  | lookup idx =>
    obtain ⟨⟨d₁, t₁⟩, hy, hx⟩ := Option.map_eq_some_iff.mp hserve
    cases hx
    cases called_of_call hy ha.resting
    -- the answer comes later
    obtain rfl : st = Stance.of (m.grants i) r.table (h.announced i) := hst
    exact ⟨trivial, hnext⟩
  | write t =>
    have hedit : some (Event.edit i fun _ => t) = none := hquiet
    cases hedit
  | complete =>
    obtain ⟨⟨d₁, t₁⟩, hy, hx⟩ := Option.map_eq_some_iff.mp hserve
    cases hx
    refine hnext () st ?_
    cases called_of_call hy ha.resting <;> exact hst
  | executeQuery sql => exact absurd rfl (hq sql)

omit [DecidableEq ι] [Fintype ι] in
/-- A completion is begun only when the statement was sent. -/
theorem Asking.ready (ha : Asking s m h i r q f)
    (hserve : serve x s.metadata.data r q = some (d', t', ans))
    (hc : t'.pc.completing = true) (hne : m.grants i ≠ none) : Shadow.Allows m h (.commit i) := by
  obtain ⟨hq, _, rfl⟩ | ⟨a, hq, hcall⟩ := serve_act hserve
  · cases hc
  · cases q with
    | complete => exact allows_of_ready ha.deals.1 hne
    | createTable | alterTable | dropTable | lookup | write =>
      cases hq
      cases called_of_call hcall ha.resting <;> cases hc
    | _ => cases hq

/-- A request by which nothing is granted or given up, and that is no DDL statement. -/
theorem Mirrored.quiet (hm : Mirrored base s db m h) (hevent : s.event (.go i x) = none)
    (hddl : s.ddl (.go i x) = none) (he : Does Store.Next m (s.event (.go i x)) n)
    (hn : Stands base (s.set i d' t' ⟨(s.workers i).action, p⟩).metadata n)
    (hready : t'.pc.completing = true → m.grants i ≠ none → Shadow.Allows m h (.commit i))
    (hends : n = m → ∀ st, Stance.Ends (m.grants i) (h.announced i) t' st →
      Deals (s.workers i).action st p) :
    ∃ k, Mirrored base (s.set i d' t' ⟨(s.workers i).action, p⟩)
      (catalogued s (.go i x) db) n k := by
  rw [hevent] at he
  obtain rfl : n = m := he
  refine ⟨h, hm.set (fun _ _ => ⟨rfl, rfl⟩) hn hm.sound hm.shadows (hm.settled i) ?_ hready
    (hends rfl)⟩
  rw [catalogued, hddl]
  exact hm.lists

private theorem mirrored_write {t : Table} {f : Unit → Execution Unit} {ans : Option Unit}
    (ha : Asking s m h i r (.write t) f) (hm : Mirrored base s db m h)
    (hserve : serve x s.metadata.data r (.write t) = some (d', t', ans))
    (he : Does Store.Next m (s.event (.go i x)) n)
    (hn : Stands base (s.set i d' t' ⟨(s.workers i).action, resume (.write t) f ans⟩).metadata n) :
    ∃ k, Mirrored base (s.set i d' t' ⟨(s.workers i).action, resume (.write t) f ans⟩)
      (catalogued s (.go i x) db) n k := by
  obtain ⟨⟨d₁, t₁⟩, hy, hx⟩ := Option.map_eq_some_iff.mp hserve
  cases hx
  obtain ⟨hmay, hnext⟩ := ha.deals
  have hunsent : h.announced i = false := unannounced_of_editable hmay
  have hedit : s.event (.go i x) = some (.edit i fun _ => t) := event_go ha.thread ha.program
  have hsound := sound_of_does hm.sound he
  rw [hedit] at he
  cases he with
  | edit _ _ g hgranted hdrop =>
    have hshadows := hm.shadows.next hm.sound (.edit i (fun _ => t) g hgranted hdrop) hunsent
    have hidle : t₁.pc = .idle := by
      have hcall := called_of_call hy ha.resting
      cases hcall <;> rfl
    refine ⟨h, hm.set (fun j hj => ⟨by simp [Store.give, hj], rfl⟩) hn hsound hshadows
      (fun hnone => by simp [Store.give] at hnone) ?_
      (fun hc => by simp [hidle, Pc.completing] at hc) fun st hst => hnext () st ?_⟩
    · rw [catalogued, ddl_go ha.program (by simp)]
      exact hm.lists
    · simp only [Stance.Ends, hidle, Store.give, Function.update_self] at hst
      rw [hst, hgranted]
      exact of_edit t hdrop

private theorem mirrored_send {sql : String} {f : SqlResult → Execution Unit}
    {ans : Option SqlResult}
    (ha : Asking s m h i r (.executeQuery sql) f) (hm : Mirrored base s db m h)
    (hg : Acknowledged (s, db) (.go i x))
    (hserve : serve x s.metadata.data r (.executeQuery sql) = some (d', t', ans))
    (he : Does Store.Next m (s.event (.go i x)) n)
    (hn : Stands base
      (s.set i d' t' ⟨(s.workers i).action, resume (.executeQuery sql) f ans⟩).metadata n) :
    ∃ k, Mirrored base (s.set i d' t' ⟨(s.workers i).action, resume (.executeQuery sql) f ans⟩)
      (catalogued s (.go i x) db) n k := by
  obtain ⟨result, rfl⟩ : ∃ result, x = .sql result := by
    cases x with
    | sql result => exact ⟨result, rfl⟩
    | _ => cases hserve
  cases hserve
  obtain ⟨hmay, hnext⟩ := ha.deals
  have hevent : s.event (.go i (.sql result)) = none := event_go ha.thread ha.program
  have hddl : s.ddl (.go i (.sql result)) = (readDdl sql.toList).map fun d => (d, result) := by
    simp [State.ddl, ha.program, head]
  cases hread : readDdl sql.toList with
  | none =>
    rw [hread] at hddl
    refine hm.quiet hevent hddl he hn (fun hc => by cases hc) fun _ st hst => hnext _ st ?_
    simp only [dealings, dealt, hread]
    exact hst
  | some d =>
    rw [hread] at hddl
    obtain ⟨rfl, happlies, hcustom⟩ : result = .returned .success ∧ d.Applicable db ∧
        (s.workers i).custom = false := hg (d, result) (by simp [hddl])
    have hdescribes : (Stance.of (m.grants i) r.table (h.announced i)).Describes d := by
      obtain ⟨c, hc⟩ | hd := hmay
      · simp [Worker.custom, hc] at hcustom
      · exact hd d hread
    obtain ⟨hunsent, g, hgranted⟩ := granted_of_describes hdescribes
    rw [hevent] at he
    obtain rfl : n = m := he
    rw [hgranted] at hdescribes
    refine ⟨h.announce i g, hm.set (fun j hj => ⟨rfl, by simp [Shadow.announce, hj]⟩) hn hm.sound
      (hm.shadows.announce hm.sound hgranted) (fun hnone => by simp [hgranted] at hnone) ?_
      (fun hc => by cases hc) fun st hst => hnext _ st ?_⟩
    · rw [catalogued, hddl]
      exact lists_announce hm.sound hm.shadows hm.lists hgranted hdescribes happlies
    · simp only [dealings, dealt, hread]
      refine ⟨trivial, hst.trans ?_⟩
      rw [hgranted, of_send]
      simp [Shadow.announce]

private theorem mirrored_go (hs : step s (.go i x) = some s') (ho : AllOwned s.metadata)
    (hm : Mirrored base s db m h) (hg : Smooth (s, db) (.go i x))
    (he : Does Store.Next m (s.event (.go i x)) n) (hn : Stands base s'.metadata n)
    (ho' : AllOwned s'.metadata) :
    ∃ k, Mirrored base s' (catalogued s (.go i x) db) n k := by
  obtain ⟨r, q, f, d', t', ans, hr, hp, hserve, rfl⟩ := step_go hs
  have hgrant : n.grants i = t'.grant n.contents := by
    simpa [State.set] using (shown ho' hn i).grant
  have horder : q.InOrder := hg.order q (by simp [hp, head])
  have ha := hm.asking ho hr hp
  have hevent := event_go (x := x) hr hp
  cases q with
  | write t => exact mirrored_write ha hm hserve he hn
  | executeQuery sql => exact mirrored_send ha hm hg.acknowledged hserve he hn
  | _ =>
    refine hm.quiet (hevent.trans rfl) (ddl_go hp (by simp)) he hn (ha.ready hserve)
      fun hnm st hst => ?_
    exact ha.resumed hm.sound hserve horder (by simp) rfl (hnm ▸ hgrant) hst

end Requests

private theorem mirrored_step {l : Label ι} (hs : step s l = some s') (ho : AllOwned s.metadata)
    (ho' : AllOwned s'.metadata) (hc : Counted s.metadata) (hg : Smooth (s, db) l)
    (hm : Mirrored base s db m h) : ∃ n k, Mirrored base s' (catalogued s l db) n k := by
  obtain ⟨n, he, hn⟩ := stands_operation hs ho hc hm.stands hg.stable
  cases l with
  | begin i a c => exact ⟨m, h, mirrored_begin hs hg.sayable hm⟩
  | go i x => exact ⟨n, mirrored_go hs ho hm hg he hn ho'⟩
  | tick i => exact ⟨n, mirrored_tick hs ho hm he hn ho'⟩

end Preserved

section Keys
variable {cs : List (TablePtr Table)} {live : Nat → Option Table} {db : Catalogue}

private theorem lists_slots_iff (hd : (cs.map TablePtr.id).Nodup)
    (hlive : ∀ x t, live x = some t ↔ ⟨x, t⟩ ∈ cs) :
    Lists Mirrors Table.name live db ↔
      Lists Mirrors Table.name (fun k : Nat => cs[k]?.map TablePtr.value) db := by
  have at_slot {x : Nat} {t : Table} (h : live x = some t) : ∃ k : Nat, cs[k]? = some ⟨x, t⟩ :=
    List.mem_iff_getElem?.mp ((hlive x t).mp h)
  have of_slot {k : Nat} {t : Table} (h : cs[k]?.map TablePtr.value = some t) :
      ∃ x, cs[k]? = some ⟨x, t⟩ ∧ live x = some t := by
    obtain ⟨⟨x, _⟩, hp, rfl⟩ := Option.map_eq_some_iff.mp h
    exact ⟨x, hp, (hlive x _).mpr (List.mem_of_getElem? hp)⟩
  constructor
  · intro h
    refine h.rekey (fun k x => cs[k]?.map TablePtr.id = some x) (fun k t hk => ?_)
      (fun x t hx => ?_) fun k l x hk hl => ?_
    · obtain ⟨x, hp, hx⟩ := of_slot hk
      exact ⟨x, by simp [hp], hx⟩
    · obtain ⟨k, hk⟩ := at_slot hx
      exact ⟨k, by simp [hk]⟩
    · obtain ⟨p, hp, hpx⟩ := Option.map_eq_some_iff.mp hk
      obtain ⟨q, hq, hqx⟩ := Option.map_eq_some_iff.mp hl
      by_contra hne
      exact entry_ne hd hp hq hne (hpx.trans hqx.symm)
  · intro h
    refine h.rekey (fun x k => cs[k]?.map TablePtr.id = some x) (fun x t hx => ?_)
      (fun k t hk => ?_) fun x y k hx hy => Option.some.inj (hx.symm.trans hy)
    · obtain ⟨k, hk⟩ := at_slot hx
      exact ⟨k, by simp [hk], by simp [hk]⟩
    · obtain ⟨x, _, hx⟩ := of_slot hk
      exact ⟨x, hx⟩

end Keys

section Runs
variable [Fintype ι] {g : GapFree Table} {s : State ι} {db₀ db : Catalogue}

def identified (g : GapFree Table) (x : Nat) : Option Table :=
  (g.tables.find? fun p => p.id = x).map TablePtr.value

omit [DecidableEq ι] [Fintype ι] in
private theorem identified_eq_some {x : Nat} {t : Table} :
    identified g x = some t ↔ ⟨x, t⟩ ∈ g.tables := by
  constructor
  · intro h
    obtain ⟨p, hp, rfl⟩ := Option.map_eq_some_iff.mp h
    obtain rfl : p.id = x := by simpa using List.find?_some hp
    exact List.mem_of_find?_eq_some hp
  · intro hp
    obtain ⟨q, hq⟩ : ∃ q, (g.tables.find? fun p => p.id = x) = some q :=
      Option.isSome_iff_exists.mp (List.find?_isSome.mpr ⟨_, hp, by simp⟩)
    have hid : q.id = x := by simpa using List.find?_some hq
    cases List.inj_on_of_nodup_map g.distinct (List.mem_of_find?_eq_some hq) hp hid
    rw [identified, hq]
    rfl

omit [DecidableEq ι] in
private theorem mirrored_start
    (hg : Lists Mirrors Table.name (fun k : Nat => g.tables[k]?.map TablePtr.value) db₀) :
    Mirrored g.tables (State.at g.data : State ι) db₀ g.store ⟨identified g, fun _ => false⟩ := by
  refine ⟨stands_start g, sound_start g, ⟨fun k p hk _ => ?_, ?_, ?_, ?_, fun x t hx => ?_⟩,
    fun _ _ => rfl, ?_, fun i hc => ?_, fun i st hst => ?_⟩
  · exact identified_eq_some.mpr (List.mem_of_getElem? hk)
  · exact fun i p hp => by cases hp
  · exact fun i k o p hp => by cases hp
  · exact fun i k o p hp => by cases hp
  · exact .inl (List.mem_map_of_mem (identified_eq_some.mp hx))
  · exact (lists_slots_iff g.distinct fun x t => identified_eq_some).mpr hg
  · cases hc
  · rw [show st = .closed none from hst]
    rfl

theorem mirrored_of_reach
    (hg : Lists Mirrors Table.name (fun k : Nat => g.tables[k]?.map TablePtr.value) db₀)
    (h : Reach (Interleaving.recorded step catalogued) Smooth (.at g.data, db₀) (s, db)) :
    ∃ m k, Mirrored g.tables s db m k := by
  refine h.invariant_with (I := fun x => ∃ m k, Mirrored g.tables x.1 x.2 m k)
    (J := fun x => AllOwned x.1.metadata ∧ Counted x.1.metadata) (fun x hx => ?_)
    ⟨_, _, mirrored_start hg⟩ ?_
  · have hr := reach_metadata hx.unrecorded
    exact ⟨(allOwned_start g).of_reach hr, (counted_start g).of_reach (allOwned_start g) hr⟩
  · rintro ⟨s, db⟩ l ⟨s', db'⟩ ⟨ho, hc⟩ ⟨ho', _⟩ ⟨m, k, hm⟩ hl he
    obtain ⟨hs, rfl⟩ := recorded_eq_some.mp he
    exact mirrored_step hs ho ho' hc hl hm

end Runs

omit [DecidableEq ι] in
/-- A table that may be read is on the server. -/
theorem Mirrored.listed [Fintype ι] {base : List (TablePtr Table)} {s : State ι} {db : Catalogue}
    {m : Store ι Table} {h : Shadow ι Table} (hm : Mirrored base s db m h)
    (ho : AllOwned s.metadata) {i : ι} {k : Nat}
    (hpc : (s.metadata.threads i).pc = .lookupLoad k) {p : TablePtr Table}
    (hp : s.metadata.data.tables k = some p) :
    ∃ columns, db p.value.name = some columns ∧ Mirrors p.value columns := by
  have hshown := shown ho hm.stands i
  have hfree : (s.metadata.data.tableLocks k).writer = none := by
    refine hshown.reading k (((ho i).reader k).mpr ?_)
    rw [hpc]
    simp [Pc.shared]
  have hcell : s.metadata.data.tables k = m.contents[k]? := (hm.stands.dense.free k hfree).cell
  refine listed_of_free hm.shadows hm.lists (hcell ▸ hp) fun j hj => ?_
  have howner := hshown.owner j k hj
  rw [hfree] at howner
  cases howner

def createOne : List (Label Unit) :=
  create {} [1, 2, 7, 8, 0] ++ [.tick (), .tick (), .go () .none, .go () .none]

def changeFirst : List (Label Unit) :=
  [.begin () (.alterTable {} .allSet) 0, .go () .none, .go () (.drawn 0), .go () .none, .tick (),
    .tick (), .go () .none, .go () .none, .go () (.drawn 1), .go () (.drawn 2), .go () .none,
    .go () .none, .go () (.sql (.returned .success)), .go () .none, .go () .none, .tick (),
    .tick (), .go () .none, .go () .none]

def runUnit (ls : List (Label Unit)) : Option (State Unit × Catalogue) :=
  execute (Interleaving.recorded step catalogued) Smooth ls (.at GapFree.empty.data, fun _ => none)

theorem lists_empty : Lists Mirrors Table.name
    (fun k : Nat => GapFree.empty.tables[k]?.map TablePtr.value) fun _ => none := by
  simpa [GapFree.empty] using Lists.empty

section Runs
variable [Fintype ι] {g : GapFree Table} {s : State ι} {db₀ db : Catalogue}

/-- Between actions the server has just the stored tables, each with its columns up to the types
that ALTERs have changed, in every run in which it accepts the DDL statements. -/
theorem catalogue_lists_tables
    (hg : Lists Mirrors Table.name (fun k : Nat => g.tables[k]?.map TablePtr.value) db₀)
    (h : Reach (Interleaving.recorded step catalogued) Smooth (.at g.data, db₀) (s, db))
    (hrest : ∀ i, (s.metadata.threads i).pc = .idle ∧ finished (s.workers i).program = true) :
    Lists Mirrors Table.name (fun k => (s.metadata.data.tables k).map TablePtr.value) db := by
  obtain ⟨m, k, hm⟩ := mirrored_of_reach hg h
  have ho : AllOwned s.metadata := allOwned_of_reach h.unrecorded
  have hnone : ∀ i, m.grants i = none := by
    intro i
    obtain ⟨hpc, hfin⟩ := hrest i
    have hdeals := hm.deals i (.of (m.grants i) (s.metadata.threads i).res.table (k.announced i))
      (by simp only [Stance.Ends, hpc])
    have hclosed : (m.grants i).isSome = false := by
      rw [← Stance.of_isOpen]
      cases hp : (s.workers i).program with
      | done =>
        rw [hp] at hdeals
        exact hdeals
      | stop x =>
        rw [hp] at hdeals hfin
        cases x with
        | thrown => exact hdeals rfl
        | undefined | unfinished => cases hfin
      | ask =>
        rw [hp] at hfin
        cases hfin
    simpa using hclosed
  obtain ⟨htables, _⟩ := hm.stands.dense.settled ho fun i => by simp [(hrest i).1, Pc.completing]
  have hlists := (lists_slots_iff hm.sound.distinct (hm.shadows.settled hnone)).mp hm.lists
  simpa only [htables] using hlists

/-- The table is created and altered: the server has a text where a number is stored. -/
theorem catalogue_lists_tables_altered : ∃ (s : State Unit) (db : Catalogue),
    runUnit (createOne ++ changeFirst) = some (s, db) ∧
      db "foo1" = some [⟨"col7".toList, .VARCHAR, 32⟩, ⟨"col8".toList, .INT, 0⟩] ∧
      Lists Mirrors Table.name (fun k => (s.metadata.data.tables k).map TablePtr.value) db := by
  obtain ⟨⟨s, db⟩, he, hs⟩ := Option.map_eq_some_iff.mp (show
    (runUnit (createOne ++ changeFirst)).map (fun x => (x.2 "foo1",
      decide (∀ i, (x.1.metadata.threads i).pc = .idle ∧
        finished (x.1.workers i).program = true))) =
      some (some [⟨"col7".toList, .VARCHAR, 32⟩, ⟨"col8".toList, .INT, 0⟩], true) by decide +kernel)
  obtain ⟨hdb, hrest⟩ := Prod.mk.inj hs
  exact ⟨s, db, he, hdb,
    catalogue_lists_tables lists_empty (reach_of_execute _ he) (of_decide_eq_true hrest)⟩

/-- The table a lookup finds is on the server, under its name and with its columns, up to the types
that ALTERs have changed on the server. -/
theorem looked_up_table_listed
    (hg : Lists Mirrors Table.name (fun k : Nat => g.tables[k]?.map TablePtr.value) db₀)
    (h : Reach (Interleaving.recorded step catalogued) Smooth (.at g.data, db₀) (s, db)) {i : ι}
    {k : Nat} (hpc : (s.metadata.threads i).pc = .lookupLoad k) {p : TablePtr Table}
    (hp : s.metadata.data.tables k = some p) :
    ∃ columns, db p.value.name = some columns ∧ Mirrors p.value columns := by
  obtain ⟨_, _, hm⟩ := mirrored_of_reach hg h
  exact hm.listed (allOwned_of_reach h.unrecorded) hpc hp

/-- An INSERT looks the table up. -/
theorem looked_up_table_listed_insert : ∃ (s : State Unit) (db : Catalogue) (p : TablePtr Table),
    runUnit (createOne ++ [.begin () (.insertData none 1) 1, .go () .none, .go () .none,
      .go () (.drawn 0), .go () .none, .tick ()]) = some (s, db) ∧
      (s.metadata.threads ()).pc = .lookupLoad 0 ∧ s.metadata.data.tables 0 = some p ∧
      ∃ columns, db p.value.name = some columns ∧ Mirrors p.value columns := by
  obtain ⟨⟨s, db⟩, he, hs⟩ := Option.map_eq_some_iff.mp (show
    (runUnit (createOne ++ [.begin () (.insertData none 1) 1, .go () .none, .go () .none,
      .go () (.drawn 0), .go () .none, .tick ()])).map (fun x =>
        (decide ((x.1.metadata.threads ()).pc = .lookupLoad 0),
          (x.1.metadata.data.tables 0).isSome)) = some (true, true) by decide +kernel)
  obtain ⟨hpc, hsome⟩ := Prod.mk.inj hs
  obtain ⟨p, hp⟩ := Option.isSome_iff_exists.mp hsome
  have hlookup := of_decide_eq_true hpc
  exact ⟨s, db, p, he, hlookup, hp,
    looked_up_table_listed lists_empty (reach_of_execute _ he) hlookup hp⟩

/-- Every ALTER and every DROP that a worker is about to send is for a table that the server has,
and every column that the ALTER drops or changes is one of that table. -/
theorem sent_statement_known
    (hg : Lists Mirrors Table.name (fun k : Nat => g.tables[k]?.map TablePtr.value) db₀)
    (h : Reach (Interleaving.recorded step catalogued) Smooth (.at g.data, db₀) (s, db)) {i : ι}
    (hpc : (s.metadata.threads i).pc = .idle) {sql : String}
    (hsql : (s.workers i).program.head = some (.executeQuery sql))
    (hcustom : (s.workers i).custom = false) {d : Ddl} (hd : readDdl sql.toList = some d) :
    d.Known db := by
  obtain ⟨m, k, hm⟩ := mirrored_of_reach hg h
  have hdeals := hm.deals i (.of (m.grants i) (s.metadata.threads i).res.table (k.announced i))
    (by simp only [Stance.Ends, hpc])
  obtain ⟨f, hp⟩ := head_eq_some hsql
  rw [hp] at hdeals
  obtain ⟨c, hc⟩ | hdescribes := hdeals.1
  · simp [Worker.custom, hc] at hcustom
  · exact known_of_describes hm.sound hm.shadows hm.lists (hdescribes d hd)

/-- The table is about to be dropped. -/
theorem sent_statement_known_drop : ∃ (s : State Unit) (db : Catalogue),
    runUnit (createOne ++ [.begin () (.dropTable { min_table_count := 0 }) 0, .go () .none,
      .go () .none, .go () (.drawn 0), .go () .none, .tick (), .tick (), .go () .none,
      .go () .none]) = some (s, db) ∧
      (s.workers ()).program.head = some (.executeQuery "DROP TABLE foo1;") ∧
      (Ddl.drop "foo1").Known db := by
  obtain ⟨⟨s, db⟩, he, hs⟩ := Option.map_eq_some_iff.mp (show
    (runUnit (createOne ++ [.begin () (.dropTable { min_table_count := 0 }) 0, .go () .none,
      .go () .none, .go () (.drawn 0), .go () .none, .tick (), .tick (), .go () .none,
      .go () .none])).map (fun x => (decide ((x.1.metadata.threads ()).pc = .idle),
        (x.1.workers ()).custom, decide ((x.1.workers ()).program.head =
          some (.executeQuery "DROP TABLE foo1;")))) = some (true, false, true) by decide +kernel)
  obtain ⟨hpc, hrest⟩ := Prod.mk.inj hs
  obtain ⟨hcustom, hhead⟩ := Prod.mk.inj hrest
  have hsql := of_decide_eq_true hhead
  exact ⟨s, db, he, hsql, sent_statement_known lists_empty (reach_of_execute _ he)
    (of_decide_eq_true hpc) hsql hcustom (by decide +kernel)⟩

end Runs
end PStress.Actions
