import PStress.Actions.Contract
import PStress.Actions.Filling

/-! Every action keeps its side of a contract: rules for the requests in a session, and from them
each action. -/
namespace PStress.Actions
open Interaction Metadata Program
variable {α β : Type}

def Request.Plain : Request → Prop
  | .random .. | .alterTable _ | .dropTable _ | .lookup _ => False
  | _ => True

namespace Contract
variable {c : Contract} {a : Option Action} {h : Handle} {post : α → Handle → Prop}
  {fail : Halt → Handle → Prop}

/-- An action may draw between bounds that are in order, and pick an index below a size it has
read. -/
structure Lenient (c : Contract) (a : Option Action) : Prop where
  plain : ∀ q : Request, q.Plain → c.asks a q
  ordered : ∀ {type min max}, min ≤ max → c.asks a (.random type min max)
  index : ∀ {n : Nat} {v : Int}, c.counts .bound n → Drawn 0 (decrement n) v →
    c.asks a (.alterTable (toSize v)) ∧ c.asks a (.dropTable (toSize v)) ∧
      c.asks a (.lookup (toSize v))

theorem Lenient.tolerates (hl : c.Lenient a) (h : Handle) :
    Tolerates c.draws (c.session a) h where
  may q hq := by
    cases q with
    | random => exact ⟨hl.ordered hq, fun hc => by cases hc⟩
    | real => exact ⟨hl.plain _ trivial, fun hc => by cases hc⟩
    | _ => cases hq
  next q r h' hq hn := by
    cases q with
    | random => exact ⟨hn.2, hn.1⟩
    | real => exact ⟨hn, trivial⟩
    | _ => cases hq

section Rules

theorem keeps_draw {P : α → Prop} {p : Execution α} {f : α → Execution β}
    {post : β → Handle → Prop} (hl : c.Lenient a) (hp : Draws c.draws P p)
    (hu : fail .undefined h) (hf : ∀ x, P x → Keeps (c.session a) post fail h (f x)) :
    Keeps (c.session a) post fail h (p >>= f) := by
  refine keeps_bind.mpr ((hp.keeps (hl.tolerates h)).mono ?_ ?_)
  · rintro x _ ⟨hx, rfl⟩
    exact hf x hx
  · rintro e _ ⟨rfl, rfl⟩
    exact hu

theorem keeps_size {use : SizeUse} {f : Nat → Execution α} (hl : c.Lenient a)
    (hf : ∀ n, c.counts use n → Keeps (c.session a) post fail h (f n)) :
    Keeps (c.session a) post fail h (size use >>= f) := by
  refine ⟨⟨hl.plain _ trivial, fun hc => by cases hc⟩, fun n h' hn => ?_⟩
  obtain ⟨hcount, rfl⟩ := hn
  exact hf n hcount

theorem keeps_random {min max : Nat} {f : Nat → Execution α}
    (ha : c.asks a (.random .size min max))
    (hf : ∀ v, Drawn min max v → c.draws min max →
      Keeps (c.session a) post fail h (f (toSize v))) :
    Keeps (c.session a) post fail h (randomSize min max >>= f) := by
  refine ⟨⟨ha, fun hc => by cases hc⟩, fun v h' hv => ?_⟩
  obtain ⟨⟨hv, hd⟩, rfl⟩ := hv
  exact hf v hv hd

theorem keeps_lookup {idx : Nat} {f : Option Table → Execution α} (ha : c.asks a (.lookup idx))
    (hf : ∀ p, Keeps (c.session a) post fail h (f p)) :
    Keeps (c.session a) post fail h (perform (.lookup idx) >>= f) := by
  refine ⟨⟨ha, fun hc => by cases hc⟩, fun p h' hp => ?_⟩
  obtain ⟨_, rfl⟩ := hp
  exact hf p

theorem keeps_isOpen {f : Bool → Execution α} (hl : c.Lenient a)
    (hf : Keeps (c.session a) post fail h (f h.isOpen)) :
    Keeps (c.session a) post fail h (perform .isOpen >>= f) := by
  refine ⟨⟨hl.plain _ trivial, fun hc => by cases hc⟩, fun b h' hb => ?_⟩
  obtain ⟨rfl, rfl⟩ := hb
  exact hf

theorem keeps_table {f : Table → Execution α} (hl : c.Lenient a) (hu : fail .undefined h)
    (hf : ∀ t, h.points (some t) → Keeps (c.session a) post fail h (f t)) :
    Keeps (c.session a) post fail h (perform .table >>= fun p => deref p >>= f) := by
  refine ⟨⟨hl.plain _ trivial, fun hc => by cases hc⟩, fun p h' hp => ?_⟩
  obtain ⟨hpoints, rfl⟩ := hp
  cases p with
  | none => exact hu
  | some t => exact hf t hpoints

theorem keeps_write {t : Table} {f : Unit → Execution α} (hl : c.Lenient a)
    (hf : Keeps (c.session a) post fail (h.write t) (f ())) :
    Keeps (c.session a) post fail h (perform (.write t) >>= f) := by
  refine ⟨⟨hl.plain _ trivial, fun hc => by cases hc⟩, fun _ h' hw => ?_⟩
  obtain rfl : h' = h.write t := hw
  exact hf

theorem keeps_executeQuery {sql : String} {f : Unit → Execution α} (hl : c.Lenient a)
    (ht : fail .thrown h) (hf : Keeps (c.session a) post fail h (f ())) :
    Keeps (c.session a) post fail h (executeQuery sql >>= f) := by
  refine ⟨⟨hl.plain _ trivial, fun hc => by cases hc⟩, fun r h' hr => ?_⟩
  obtain rfl : h' = h := hr
  rcases r with (_ | _ | _) | _
  · exact hf
  · exact ht
  · exact ht
  · exact ht

theorem keeps_complete {post : Unit → Handle → Prop} (hl : c.Lenient a) (hr : c.ready h)
    (hp : post () .closed) (ht : h = .closed → fail .thrown .closed) :
    Keeps (c.session a) post fail h complete := by
  refine keeps_isOpen hl ?_
  have now : Keeps (c.session a) post fail h (perform .complete) := by
    refine ⟨⟨hl.plain _ trivial, fun _ => hr⟩, fun _ h' hc => ?_⟩
    obtain rfl : h' = .closed := hc
    exact hp
  cases h with
  | closed => exact ht rfl
  | creating | altering | dropping => exact now

theorem keeps_destroy {post : Unit → Handle → Prop} (hl : c.Lenient a) (hr : c.ready h)
    (hp : post () .closed) : Keeps (c.session a) post fail h destroy := by
  refine keeps_isOpen hl ?_
  cases h with
  | closed => exact hp
  | creating | altering | dropping => exact keeps_complete hl hr hp fun hc => by cases hc

variable (c a) in
/-- A callback leaves its reservation completed or such that it may be, however it ends. -/
def Callback (h : Handle) (func : Execution Unit) : Prop :=
  Keeps (c.session a) (fun _ h => c.ready h) (fun e h => e = .thrown → c.ready h) h func

/-- The destructor that follows a callback leaves no reservation open. -/
theorem kept_callback {func : Execution Unit} (hl : c.Lenient a) (hf : c.Callback a h func) :
    c.Kept a h (ensuring Halt.unwinds destroy (func >>= fun _ => perform .index)) := by
  refine keeps_ensuring.mpr (keeps_bind.mpr (hf.mono (fun _ h' hr => ?_) fun e h' he => ?_))
  · refine ⟨⟨hl.plain _ trivial, fun hc => by cases hc⟩, fun n e hn => ?_⟩
    obtain rfl : e = h' := hn
    exact keeps_destroy hl hr rfl
  · cases e with
    | thrown => exact keeps_destroy hl (he rfl) fun _ => rfl
    | undefined | unfinished =>
      intro ht
      cases ht

theorem kept_createTable {func : Execution Unit} (hl : c.Lenient a)
    (hf : ∀ h, h = .closed ∨ h = .creating default → c.Callback a h func) :
    c.Kept a .closed (createTable func) :=
  ⟨⟨hl.plain _ trivial, fun hc => by cases hc⟩, fun _ h' hr => kept_callback hl (hf h' hr)⟩

theorem kept_alterTable {idx : Nat} {func : Execution Unit} (hl : c.Lenient a)
    (ha : c.asks a (.alterTable idx))
    (hf : ∀ h, (h = .closed ∨ ∃ t, c.stored t ∧ h = .altering t) →
      c.Callback a h func) : c.Kept a .closed (alterTable idx func) := by
  refine keeps_bind.mpr ⟨⟨ha, fun hc => by cases hc⟩, fun _ h' hr => ?_⟩
  exact (kept_callback hl (hf h' hr)).mono (fun _ _ => id) fun _ _ => id

private theorem kept_dropTable {idx : Nat} {func : Execution Unit} (hl : c.Lenient a)
    (ha : c.asks a (.dropTable idx))
    (hf : ∀ h, (h = .closed ∨ ∃ t, c.stored t ∧ h = .dropping t) → c.Callback a h func) :
    c.Kept a .closed (dropTable idx func) := by
  refine keeps_bind.mpr ⟨⟨ha, fun hc => by cases hc⟩, fun _ h' hr => ?_⟩
  exact (kept_callback hl (hf h' hr)).mono (fun _ _ => id) fun _ _ => id

/-- A result nobody looks at. -/
theorem Kept.ignore {p : Execution α} (hp : c.Kept a h p) : c.Kept a h (p >>= fun _ => .done ()) :=
  keeps_bind.mpr (hp.mono (fun _ _ => id) fun _ _ => id)

end Rules

section Actions
variable {config : DdlConfig}

theorem callback_create (hl : c.Lenient a)
    (ha : c.asks a (.random .size 2 config.max_column_count))
    (hs : ∀ name new v, Drawn 2 config.max_column_count v → c.draws 2 config.max_column_count →
      new.length = toSize v → Shaped new → c.stored ⟨name, new⟩) (h : Handle)
    (hh : h = .closed ∨ h = .creating default) : c.Callback a h (CreateTable.body config) := by
  refine keeps_table hl (fun ht => by cases ht) fun t hpoints => ?_
  refine keeps_draw hl (draws_randomInt (by decide)) (fun ht => by cases ht) fun number _ => ?_
  refine keeps_random ha fun v hv hd => ?_
  refine keeps_draw hl (draws_randomColumns (toSize v) t.columns) (fun ht => by cases ht)
    fun columns hcols => ?_
  refine keeps_write hl ?_
  have hready : c.ready (h.write ⟨s!"foo{number}", columns⟩) := by
    obtain rfl | rfl := hh
    · trivial
    · obtain ⟨new, rfl, hlen, hnew⟩ := hcols
      cases hpoints
      exact hs _ new v hv hd hlen hnew
  refine keeps_executeQuery hl (fun _ => hready) ?_
  exact keeps_complete hl hready trivial fun _ _ => trivial

theorem kept_create (hl : c.Lenient (some (.createTable config)))
    (ha : c.asks (some (.createTable config)) (.random .size 2 config.max_column_count))
    (hs : ∀ name new v, Drawn 2 config.max_column_count v → c.draws 2 config.max_column_count →
      new.length = toSize v → Shaped new → c.stored ⟨name, new⟩) (n : Nat) :
    c.Kept (some (.createTable config)) .closed (Action.execute n (.createTable config)) := by
  refine keeps_size hl fun size _ => ?_
  split
  · rfl
  · exact (kept_createTable hl (callback_create hl ha hs)).ignore

theorem callback_drop (hl : c.Lenient a) (h : Handle)
    (hh : h = .closed ∨ ∃ t, c.stored t ∧ h = .dropping t) : c.Callback a h DropTable.body := by
  have hready : c.ready h := by
    obtain rfl | ⟨t, _, rfl⟩ := hh <;> trivial
  refine keeps_isOpen hl ?_
  split
  · refine keeps_table hl (fun ht => by cases ht) fun t _ => ?_
    refine keeps_executeQuery hl (fun _ => hready) ?_
    exact keeps_complete hl hready trivial fun _ _ => trivial
  · exact hready

theorem kept_drop (hl : c.Lenient (some (.dropTable config))) (n : Nat) :
    c.Kept (some (.dropTable config)) .closed (Action.execute n (.dropTable config)) := by
  refine keeps_size hl fun size _ => ?_
  split
  · rfl
  · refine keeps_size hl fun size hsize => ?_
    refine keeps_random (hl.ordered (Int.natCast_nonneg _)) fun v hv _ => ?_
    exact (kept_dropTable hl (hl.index hsize hv).2.1 (callback_drop hl)).ignore

theorem callback_alter {commands : BitFlags} (hl : c.Lenient a)
    (ha : c.asks a (.random .size 1 config.max_alter_clauses))
    (hs : ∀ t st, c.stored t → AlterTable.Altered c.draws t.columns st →
      c.stored { t with columns := st.columns ++ st.newColumns }) (h : Handle)
    (hh : h = .closed ∨ ∃ t, c.stored t ∧ h = .altering t) :
    c.Callback a h (AlterTable.body config commands) := by
  refine keeps_isOpen hl ?_
  obtain rfl | ⟨t, hst, rfl⟩ := hh
  · trivial
  · refine keeps_table hl (fun ht => by cases ht) fun t' hpoints => ?_
    cases hpoints
    refine keeps_random ha fun v _ _ => ?_
    refine keeps_draw hl (draws_subcommands config commands.all t.columns (toSize v))
      (fun ht => by cases ht) fun st halt => ?_
    refine keeps_write hl (keeps_table hl (fun ht => by cases ht) fun t' _ => ?_)
    have hready : c.ready (.altering { t with columns := st.columns ++ st.newColumns }) :=
      hs t st hst halt
    refine keeps_executeQuery hl (fun _ => hready) ?_
    exact keeps_complete hl hready trivial fun _ _ => trivial

theorem kept_alter {commands : BitFlags} (hl : c.Lenient (some (.alterTable config commands)))
    (ha : c.asks (some (.alterTable config commands))
      (.random .size 1 config.max_alter_clauses))
    (hs : ∀ t st, c.stored t → AlterTable.Altered c.draws t.columns st →
      c.stored { t with columns := st.columns ++ st.newColumns }) (n : Nat) :
    c.Kept (some (.alterTable config commands)) .closed
      (Action.execute n (.alterTable config commands)) := by
  refine keeps_size hl fun size hsize => ?_
  refine keeps_random (hl.ordered (Int.natCast_nonneg _)) fun v hv _ => ?_
  exact (kept_alterTable hl (hl.index hsize hv).1 (callback_alter hl ha hs)).ignore

/-- Looking for a table leaves reservations alone. -/
theorem kept_selectTable {f : Table → Execution α} (hl : c.Lenient a)
    (hf : ∀ t, c.Kept a .closed (f t)) (attempts : Nat) :
    c.Kept a .closed (selectTable attempts >>= f) := by
  induction attempts with
  | zero =>
    intro ht
    cases ht
  | succ attempts ih =>
    simp only [selectTable, bind_assoc]
    refine keeps_size hl fun size hsize => ?_
    refine keeps_random (hl.ordered (Int.natCast_nonneg _)) fun v hv _ => ?_
    refine keeps_lookup (hl.index hsize hv).2.2 fun p => ?_
    cases p with
    | none => exact ih
    | some t => exact hf t

theorem kept_executeQuery (hl : c.Lenient a) (sql : String) :
    c.Kept a .closed (executeQuery sql) := by
  have hk : c.Kept a .closed (executeQuery sql >>= Program.done) :=
    keeps_executeQuery hl (fun _ => rfl) rfl
  rwa [bind_done] at hk

theorem kept_insert {table : Option Table} {rows : Nat}
    (hl : c.Lenient (some (.insertData table rows))) (n : Nat) :
    c.Kept (some (.insertData table rows)) .closed
      (Action.execute n (.insertData table rows)) := by
  have send (t : Table) : c.Kept (some (.insertData table rows)) .closed
      (InsertData.statement t rows >>= executeQuery) :=
    keeps_draw hl (draws_insert t rows) (fun ht => by cases ht) fun sql _ =>
      kept_executeQuery hl sql
  refine keeps_size hl fun size _ => ?_
  split
  · rfl
  · cases table with
    | some t => exact send t
    | none => exact kept_selectTable hl send n

theorem kept_delete {config : DmlConfig} (hl : c.Lenient (some (.deleteData config)))
    (ha : c.asks (some (.deleteData config)) (.random .size config.deleteMin config.deleteMax))
    (n : Nat) : c.Kept (some (.deleteData config)) .closed
      (Action.execute n (.deleteData config)) := by
  refine keeps_size hl fun size _ => ?_
  split
  · rfl
  · refine kept_selectTable hl (fun t => ?_) n
    refine keeps_draw hl (draws_deref _) (fun ht => by cases ht) fun col _ => ?_
    exact keeps_random ha fun v _ _ => kept_executeQuery hl _

theorem kept_update (hl : c.Lenient (some .updateOneRow)) (n : Nat) :
    c.Kept (some .updateOneRow) .closed (Action.execute n .updateOneRow) := by
  refine keeps_size hl fun size _ => ?_
  split
  · rfl
  · refine kept_selectTable hl (fun t => ?_) n
    refine keeps_draw hl (draws_deref _) (fun ht => by cases ht) fun col _ => ?_
    exact keeps_draw hl (draws_assignments _ _) (fun ht => by cases ht) fun sql _ =>
      kept_executeQuery hl _

theorem kept_custom {s : CustomSql} (hl : c.Lenient (some (.customSql s))) (n : Nat) :
    c.Kept (some (.customSql s)) .closed (Action.execute n (.customSql s)) := by
  have inject (text : String) (p : String) (h : Handle) (hh : h = .closed) :
      Keeps (c.session (some (.customSql s))) (fun _ h => h = .closed)
        (fun e h => e = .thrown → h = .closed) h (do
          let replacement ← CustomSql.doInject p n
          return text.replace ("\x7b" ++ p ++ "\x7d") replacement) := by
    subst hh
    unfold CustomSql.doInject
    split
    · rw [bind_bind]
      refine kept_selectTable hl (fun t => ?_) n
      exact (rfl : Handle.closed = .closed)
    · exact fun _ => rfl
  refine keeps_bind.mpr ?_
  refine (keeps_foldlM (I := fun _ h => h = .closed) inject s.injectParameters rfl).mono ?_ ?_
  · rintro sql _ rfl
    exact kept_executeQuery hl sql
  · exact fun _ _ => id

end Actions
end Contract
end PStress.Actions
