import PStress.Actions.Workers

/-! The order of the requests of a CREATE and of a DROP: the test of the size comes first, then
the reservation, and neither is made again. -/
namespace PStress.Actions
open Interaction Metadata Program
variable {α β : Type}

/-- What a CREATE or a DROP is about to do, up to its reservation. -/
inductive Stage where
  | testing | picking | drawing | calling | past
  deriving DecidableEq, Repr

/-- Requests that come after the reservation; a DROP draws nothing then. -/
def Request.After (drops : Bool) : Request → Prop
  | .isOpen | .table | .index | .write _ | .complete | .executeQuery _ => True
  | .random .. | .real => drops = false
  | .size _ | .createTable | .alterTable _ | .dropTable _ | .lookup _ => False

def Stage.may (drops : Bool) : Stage → Request → Prop
  | testing, q => q = .size .guard
  | picking, q => drops = true ∧ q = .size .bound
  | drawing, q => drops = true ∧ ∃ type min max, q = .random type min max
  | calling, q => if drops then ∃ idx, q = .dropTable idx else q = .createTable
  | past, q => q.After drops

def Stage.next (config : DdlConfig) (drops : Bool) : Stage → (q : Request) → q.Answer → Stage
  | testing, .size _, n =>
    if drops then if n ≤ config.min_table_count then past else picking
    else if config.max_table_count ≤ n then past else calling
  | picking, _, _ => drawing
  | drawing, _, _ => calling
  | _, _, _ => past

@[simp] private theorem Stage.next_past {config : DdlConfig} {drops : Bool} {q : Request}
    {r : q.Answer} :
    past.next config drops q r = past := rfl

@[simp] private theorem Stage.next_calling {config : DdlConfig} {drops : Bool} {q : Request}
    {r : q.Answer} : calling.next config drops q r = past := rfl

/-- The session of a CREATE or of a DROP. -/
def admission (config : DdlConfig) (drops : Bool) : Session Request Request.Answer Stage where
  may := Stage.may drops
  next st q r st' := q.Given (fun _ _ => True) r ∧ st' = st.next config drops q r

def Ordered (config : DdlConfig) (drops : Bool) (st : Stage) (p : Execution α) : Prop :=
  Keeps (admission config drops) (fun _ st => st = .past) (fun _ st => st = .past) st p

section Ordered
variable {config : DdlConfig} {drops : Bool}

theorem Ordered.done (a : α) : Ordered config drops .past (.done a) := rfl

theorem Ordered.stop (e : Halt) : Ordered config drops .past (.stop e : Execution α) := rfl

theorem Ordered.bind {st : Stage} {p : Execution α} {f : α → Execution β}
    (hp : Ordered config drops st p) (hf : ∀ a, Ordered config drops .past (f a)) :
    Ordered config drops st (p >>= f) := by
  refine keeps_bind.mpr (hp.mono ?_ fun _ _ => id)
  rintro a _ rfl
  exact hf a

private theorem ordered_perform {q : Request} (hq : q.After drops) :
    Ordered config drops .past (perform q) :=
  ⟨hq, fun _ _ h => h.2⟩

private theorem ordered_deref (o : Option α) : Ordered config drops .past (deref o) := by
  cases o with
  | none => exact .stop _
  | some a => exact .done a

theorem Draws.ordered {P : α → Prop} {p : Execution α} (hp : Draws (fun _ _ => True) P p) :
    Ordered config false .past p := by
  have tolerates : Tolerates (fun _ _ => True) (admission config false) .past := by
    refine ⟨fun q hq => ?_, fun q r st hq hn => ⟨hn.2, hn.1⟩⟩
    cases q with
    | random | real => exact rfl
    | _ => cases hq
  exact (hp.keeps tolerates).mono (fun _ _ => And.right) fun _ _ => And.right

private theorem ordered_executeQuery (sql : String) :
    Ordered config drops .past (executeQuery sql) := by
  refine (ordered_perform (q := .executeQuery sql) trivial).bind fun r => ?_
  rcases r with (_ | _ | _) | _
  · exact .done ()
  · exact .stop _
  · exact .stop _
  · exact .stop _

private theorem ordered_complete : Ordered config drops .past complete := by
  refine (ordered_perform (q := .isOpen) trivial).bind fun b => ?_
  split
  · exact ordered_perform trivial
  · exact .stop _

private theorem ordered_destroy : Ordered config drops .past destroy := by
  refine (ordered_perform (q := .isOpen) trivial).bind fun b => ?_
  split
  · exact ordered_complete
  · exact .done ()

private theorem ordered_reserving {func reserve : Execution Unit}
    (hr : Ordered config drops .calling reserve) (hf : Ordered config drops .past func) :
    Ordered config drops .calling (reserving reserve func) := by
  refine hr.bind fun _ => keeps_ensuring.mpr ?_
  have hfunc : Ordered config drops .past (func >>= fun _ => perform .index) :=
    hf.bind fun _ => ordered_perform trivial
  refine hfunc.mono ?_ ?_
  · rintro n _ rfl
    exact ordered_destroy
  · rintro e _ rfl
    split
    · exact ordered_destroy
    · rfl

end Ordered

variable {config : DdlConfig}

private theorem ordered_create_body : Ordered config false .past (CreateTable.body config) := by
  have count : Ordered config false .past (randomSize 2 config.max_column_count) :=
    ⟨rfl, fun _ _ h => h.2⟩
  refine (ordered_perform (q := .table) trivial).bind fun p => (ordered_deref p).bind fun t => ?_
  refine (draws_randomInt (by decide)).ordered.bind fun number => count.bind fun n => ?_
  refine (draws_randomColumns n t.columns).ordered.bind fun columns => ?_
  refine (ordered_perform (q := .write _) trivial).bind fun _ => ?_
  exact (ordered_executeQuery _).bind fun _ => ordered_complete

theorem ordered_create : Ordered config false .testing (CreateTable.execute config) := by
  refine ⟨rfl, fun n st h => ?_⟩
  obtain rfl : st = if config.max_table_count ≤ n then .past else .calling := h.2
  change Ordered config false _ (if config.max_table_count ≤ n then _ else _)
  split
  · exact .done ()
  · have reserve : Ordered config false .calling (perform .createTable) :=
      ⟨rfl, fun _ _ h => h.2⟩
    exact (ordered_reserving reserve ordered_create_body).bind fun _ => .done ()

private theorem ordered_drop_body : Ordered config true .past DropTable.body := by
  refine (ordered_perform (q := .isOpen) trivial).bind fun b => ?_
  split
  · refine (ordered_perform (q := .table) trivial).bind fun p => (ordered_deref p).bind fun t => ?_
    exact (ordered_executeQuery _).bind fun _ => ordered_complete
  · exact .done ()

theorem ordered_drop : Ordered config true .testing (DropTable.execute config) := by
  refine ⟨rfl, fun n st h => ?_⟩
  obtain rfl : st = if n ≤ config.min_table_count then .past else .picking := h.2
  change Ordered config true _ (if n ≤ config.min_table_count then _ else _)
  split
  · exact .done ()
  · refine ⟨⟨rfl, rfl⟩, fun n st h => ?_⟩
    obtain rfl : st = .drawing := h.2
    refine ⟨⟨rfl, _, _, _, rfl⟩, fun v st h => ?_⟩
    obtain rfl : st = .calling := h.2
    have reserve : Ordered config true .calling (perform (.dropTable (toSize v))) :=
      ⟨⟨_, rfl⟩, fun _ _ h => h.2⟩
    exact ((ordered_reserving reserve ordered_drop_body).bind fun _ => .done _).bind
      fun _ => .done ()

end PStress.Actions
