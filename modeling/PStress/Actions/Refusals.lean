import PStress.Actions.Workers

/-! A DDL action whose reservation is refused: the callback is called all the same. `AlterTable` and
`DropTable` ask whether the reservation is open, `CreateTable` takes its table at once. -/
namespace PStress.Actions
open Interaction Interleaving Metadata Program
variable {α β : Type}

def Request.reserves : Request → Bool
  | .createTable | .alterTable _ | .dropTable _ => true
  | _ => false

/-- Before its reservation, while it has one, and when it was refused. -/
inductive Phase where
  | before | granted | refused

/-- What an action may ask: a reservation, of one kind, comes first, and a refused one is only
looked at. -/
def Phase.may (creates : Bool) : Phase → Request → Prop
  | before, .size _ | before, .random .. | before, .real => True
  | before, .createTable => creates = true
  | before, .alterTable _ | before, .dropTable _ => creates = false
  | before, _ => False
  | granted, q => q.reserves = false
  | refused, .isOpen | refused, .table | refused, .index => True
  | refused, _ => False

def Request.Closed : (q : Request) → q.Answer → Prop
  | .isOpen, b => b = false
  | .table, p => p = none
  | .index, n => n = npos
  | _, _ => True

def refusal (creates : Bool) : Session Request Request.Answer Phase where
  may := Phase.may creates
  next ph q r ph' :=
    match ph with
    | .before => if q.reserves then ph' ≠ .before else ph' = .before
    | .granted => ph' = .granted ∧ q.Given (fun _ _ => True) r
    | .refused => ph' = .refused ∧ q.Closed r

/-- After a refusal a CREATE does what is undefined, and the others return. -/
def Follows (creates : Bool) (ph : Phase) (p : Execution α) : Prop :=
  Keeps (refusal creates) (fun _ ph => ph = .refused → creates = false)
    (fun e ph => ph = .refused → e = .undefined ∧ creates = true) ph p

section Programs
variable {creates : Bool} {post : α → Phase → Prop} {fail : Halt → Phase → Prop}

def Unreserving (creates : Bool) (p : Execution α) : Prop :=
  Keeps (refusal creates) (fun _ ph => ph = .granted) (fun _ ph => ph = .granted) .granted p

theorem Unreserving.bind {p : Execution α} {f : α → Execution β} (h : Unreserving creates p)
    (hf : ∀ a, Unreserving creates (f a)) : Unreserving creates (p >>= f) := by
  refine keeps_bind.mpr (h.mono ?_ fun _ _ => id)
  rintro a ph rfl
  exact hf a

theorem Unreserving.perform {q : Request} (hq : q.reserves = false) :
    Unreserving creates (perform q) :=
  keeps_request.mpr ⟨hq, fun _ _ hn => hn.1⟩

theorem Unreserving.done (a : α) : Unreserving creates (.done a) := rfl

theorem Unreserving.stop (e : Halt) : Unreserving creates (.stop e : Execution α) := rfl

private theorem unreserving_deref (o : Option α) : Unreserving creates (deref o) := by
  cases o <;> rfl

private theorem unreserving_complete : Unreserving creates complete :=
  (Unreserving.perform rfl).bind fun b => by
    cases b
    · exact .stop _
    · exact .perform rfl

theorem unreserving_executeQuery (sql : String) : Unreserving creates (executeQuery sql) :=
  (Unreserving.perform rfl).bind fun r => by
    rcases r with (_ | _ | _) | _
    · exact .done ()
    · exact .stop _
    · exact .stop _
    · exact .stop _

private theorem unreserving_random (min max : Int) :
    Unreserving creates (randomInt min max) := .perform rfl

theorem unreserving_randomSize (min max : Nat) : Unreserving creates (randomSize min max) :=
  (Unreserving.perform rfl).bind fun v => .done (toSize v)

/-- Draws are no reservations. -/
theorem Draws.unreserving {P : α → Prop} {p : Execution α} (h : Draws (fun _ _ => True) P p) :
    Unreserving creates p := by
  have htolerates : Tolerates (fun _ _ => True) (refusal creates) .granted := by
    refine ⟨fun q hq => ?_, fun q r ph _ hn => hn⟩
    cases q with
    | random | real => rfl
    | _ => cases hq
  exact (h.keeps htolerates).mono (fun _ _ hp => hp.2) fun _ _ he => he.2

private theorem unreserving_destroy : Unreserving creates destroy :=
  (Unreserving.perform rfl).bind fun b => by
    cases b
    · exact .done ()
    · exact unreserving_complete

theorem Unreserving.ensuring {p : Execution α} (h : Unreserving creates p) :
    Unreserving creates (ensuring Halt.unwinds destroy p) := by
  refine keeps_ensuring.mpr (Keeps.mono h ?_ ?_)
  · rintro a ph rfl
    exact unreserving_destroy
  · rintro e ph rfl
    split
    · exact unreserving_destroy
    · rfl

/-- What a callback does with a reservation, and what follows it. -/
theorem Unreserving.callback {func : Execution Unit} (h : Unreserving creates func) :
    Unreserving creates (Program.ensuring Halt.unwinds destroy (do
      func
      Actions.perform .index)) :=
  Unreserving.ensuring (h.bind fun _ => .perform (q := .index) rfl)

theorem unreserving_create (config : DdlConfig) :
    Unreserving creates (CreateTable.body config) := by
  refine (Unreserving.perform rfl).bind fun p => (unreserving_deref p).bind fun table => ?_
  refine (unreserving_random _ _).bind fun number => (unreserving_randomSize _ _).bind fun n => ?_
  refine (draws_randomColumns n table.columns).unreserving.bind fun columns => ?_
  exact (Unreserving.perform rfl).bind fun _ => (unreserving_executeQuery _).bind fun _ =>
    unreserving_complete

private theorem unreserving_drop : Unreserving creates DropTable.body := by
  refine (Unreserving.perform rfl).bind fun b => ?_
  cases b with
  | false => exact .done ()
  | true =>
    exact (Unreserving.perform rfl).bind fun p => (unreserving_deref p).bind fun table =>
      (unreserving_executeQuery _).bind fun _ => unreserving_complete

theorem unreserving_alter (config : DdlConfig) (possibleCommands : BitFlags) :
    Unreserving creates (AlterTable.body config possibleCommands) := by
  refine (Unreserving.perform rfl).bind fun b => ?_
  cases b with
  | false => exact .done ()
  | true =>
    refine (Unreserving.perform rfl).bind fun p => (unreserving_deref p).bind fun table => ?_
    refine (unreserving_randomSize _ _).bind fun n => ?_
    refine (draws_subcommands config _ table.columns n).unreserving.bind fun st => ?_
    refine (Unreserving.perform rfl).bind fun _ => (Unreserving.perform rfl).bind fun p => ?_
    exact (unreserving_deref p).bind fun table => (unreserving_executeQuery _).bind fun _ =>
      unreserving_complete

private theorem Unreserving.follows {p : Execution α} (h : Unreserving creates p) :
    Follows creates .granted p := by
  refine Keeps.mono h ?_ ?_
  · rintro a ph rfl
    exact nofun
  · rintro e ph rfl
    exact nofun

private theorem follows_checked {func : Execution Unit} :
    Follows false .refused (Program.ensuring Halt.unwinds destroy (do
      perform .isOpen >>= fun b => if b then func else .done ()
      perform .index)) := by
  refine ⟨trivial, fun b ph hb => ?_⟩
  obtain ⟨rfl, rfl⟩ := hb
  refine ⟨trivial, fun n ph hn => ?_⟩
  obtain ⟨rfl, rfl⟩ := hn
  refine ⟨trivial, fun b ph hb => ?_⟩
  obtain ⟨rfl, rfl⟩ := hb
  exact fun _ => rfl

private theorem follows_create (config : DdlConfig) :
    Follows true .refused (Program.ensuring Halt.unwinds destroy (do
      CreateTable.body config
      perform .index)) := by
  refine ⟨trivial, fun p ph hp => ?_⟩
  obtain ⟨rfl, rfl⟩ := hp
  exact fun _ => ⟨rfl, rfl⟩

private theorem follows_reserving {q : Request} {p : Execution α} (hq : q.reserves = true)
    (hmay : Phase.may creates .before q) (hgranted : Follows creates .granted p)
    (hrefused : Follows creates .refused p) :
    Follows creates .before (perform q >>= fun _ => p) := by
  refine ⟨hmay, fun r ph hn => ?_⟩
  simp only [refusal, hq, if_true] at hn
  cases ph with
  | before => exact absurd rfl hn
  | granted => exact hgranted
  | refused => exact hrefused

private theorem Follows.discard {ph : Phase} {p : Execution α} (h : Follows creates ph p)
    {f : α → β} :
    Follows creates ph (p >>= fun a => .done (f a)) :=
  keeps_bind.mpr h

private theorem follows_size {use : SizeUse} {f : Nat → Execution α}
    (hf : ∀ n, Follows creates .before (f n)) : Follows creates .before (size use >>= f) := by
  refine ⟨trivial, fun n ph hn => ?_⟩
  obtain rfl : ph = .before := hn
  exact hf n

private theorem follows_randomSize {min max : Nat} {f : Nat → Execution α}
    (hf : ∀ n, Follows creates .before (f n)) :
    Follows creates .before (randomSize min max >>= f) := by
  refine ⟨trivial, fun v ph hv => ?_⟩
  obtain rfl : ph = .before := hv
  exact hf (toSize v)

theorem follows_execute {a : Action} {config : DdlConfig} (h : a.ddl = some config) (n : Nat) :
    Follows a.creates .before (a.execute n) := by
  cases a with
  | createTable config =>
    refine follows_size fun m => ?_
    split
    · exact nofun
    · exact (follows_reserving (q := .createTable) rfl rfl
        (unreserving_create config).callback.follows (follows_create config)).discard
  | dropTable config =>
    refine follows_size fun m => ?_
    split
    · exact nofun
    · refine follows_size fun m => follows_randomSize fun idx => ?_
      have hreserving := (follows_reserving (q := .dropTable idx) rfl rfl
        unreserving_drop.callback.follows follows_checked)
      exact hreserving.discard.discard
  | alterTable config possibleCommands =>
    refine follows_size fun m => follows_randomSize fun idx => ?_
    have hreserving := (follows_reserving (q := .alterTable idx) rfl rfl
      (unreserving_alter config possibleCommands).callback.follows follows_checked)
    exact hreserving.discard.discard
  | insertData | deleteData | updateOneRow | customSql => cases h

end Programs

end PStress.Actions
