import PStress.Actions.Filling
import PStress.Actions.Refusals

/-! What an action knows of its reservation. It reserves and looks tables up only while it has
nothing reserved, and edits or completes only what is open. -/
namespace PStress.Actions
open Interaction Metadata Program
variable {α β : Type}

/-- A reservation that is not open, one that was refused and points to no table, and an open one,
of a table to drop or not. -/
inductive Grip where
  | spent | refused
  | held (drop : Bool)
  deriving DecidableEq, Repr

namespace Grip

def isOpen : Grip → Bool
  | held _ => true
  | spent | refused => false

def of (r : Reservation Table) : Grip :=
  if r.isOpen then held r.drop else if r.table.isNone then refused else spent

theorem of_isOpen (r : Reservation Table) : (of r).isOpen = r.isOpen := by
  unfold of
  cases r.isOpen with
  | true => rfl
  | false => cases r.table.isNone <;> rfl

def answered (g : Grip) : (q : Request) → q.Answer → Grip → Prop
  | .createTable, _, g' | .alterTable _, _, g' => g' = refused ∨ g' = held false
  | .dropTable _, _, g' => g' = refused ∨ g' = held true
  | .isOpen, b, g' => b = g.isOpen ∧ g' = g
  | .table, p, g' => (g = refused → p = none) ∧ g' = g
  | .complete, _, g' => g'.isOpen = false
  | .random _ min max, v, g' => Drawn min max v ∧ g' = g
  | .size _, _, g' | .lookup _, _, g' | .index, _, g' | .write _, _, g' | .real, _, g'
  | .executeQuery _, _, g' => g' = g

def session : Session Request Request.Answer Grip where
  may
    | g, .createTable | g, .alterTable _ | g, .dropTable _ | g, .lookup _ => g.isOpen = false
    | g, .write _ => g = held false
    | g, .complete => g.isOpen = true
    | _, _ => True
  next g q r g' := g.answered q r g'

def Kept (g : Grip) (p : Execution α) : Prop :=
  Keeps session (fun _ g => g.isOpen = false) (fun e g => e = .thrown → g.isOpen = false) g p

theorem tolerates (g : Grip) : Tolerates (fun _ _ => True) session g where
  may q hq := by
    cases q with
    | random | real => trivial
    | _ => cases hq
  next q r g' hq hn := by
    cases q with
    | random => exact ⟨hn.2, hn.1, trivial⟩
    | real => exact ⟨hn, trivial⟩
    | _ => cases hq

section Rules
variable {g : Grip} {post : α → Grip → Prop} {fail : Halt → Grip → Prop}

theorem keeps_draw {P : α → Prop} {p : Execution α} {f : α → Execution β}
    {post : β → Grip → Prop} (hp : Draws (fun _ _ => True) P p) (hu : fail .undefined g)
    (hf : ∀ x, P x → Keeps session post fail g (f x)) : Keeps session post fail g (p >>= f) := by
  refine keeps_bind.mpr ((hp.keeps (tolerates g)).mono ?_ ?_)
  · rintro x _ ⟨hx, rfl⟩
    exact hf x hx
  · rintro e _ ⟨rfl, rfl⟩
    exact hu

theorem keeps_size {use : SizeUse} {f : Nat → Execution α}
    (hf : ∀ n, Keeps session post fail g (f n)) :
    Keeps session post fail g (size use >>= f) := by
  refine ⟨trivial, fun n g' hn => ?_⟩
  obtain rfl : g' = g := hn
  exact hf n

theorem keeps_random {min max : Nat} {f : Nat → Execution α}
    (hf : ∀ v, Keeps session post fail g (f v)) :
    Keeps session post fail g (randomSize min max >>= f) := by
  refine ⟨trivial, fun v g' hv => ?_⟩
  obtain ⟨_, rfl⟩ := hv
  exact hf (toSize v)

theorem keeps_isOpen {f : Bool → Execution α} (hf : Keeps session post fail g (f g.isOpen)) :
    Keeps session post fail g (perform .isOpen >>= f) := by
  refine ⟨trivial, fun b g' hb => ?_⟩
  obtain ⟨rfl, rfl⟩ := hb
  exact hf

theorem keeps_table {f : Table → Execution α} (hu : fail .undefined g)
    (hf : ∀ t, g ≠ .refused → Keeps session post fail g (f t)) :
    Keeps session post fail g (perform .table >>= fun p => deref p >>= f) := by
  refine ⟨trivial, fun p g' hp => ?_⟩
  obtain ⟨hnone, rfl⟩ := hp
  cases p with
  | none => exact hu
  | some t => exact hf t fun hr => Option.some_ne_none t (hnone hr)

theorem keeps_write {t : Table} {f : Unit → Execution α}
    (hf : Keeps session post fail (.held false) (f ())) :
    Keeps session post fail (.held false) (perform (.write t) >>= f) := by
  refine ⟨rfl, fun _ g' hw => ?_⟩
  obtain rfl : g' = .held false := hw
  exact hf

theorem keeps_executeQuery {sql : String} {f : Unit → Execution α} (ht : fail .thrown g)
    (hf : Keeps session post fail g (f ())) :
    Keeps session post fail g (executeQuery sql >>= f) := by
  refine ⟨trivial, fun r g' hr => ?_⟩
  obtain rfl : g' = g := hr
  rcases r with (_ | _ | _) | _
  · exact hf
  · exact ht
  · exact ht
  · exact ht

theorem kept_executeQuery {sql : String} (hg : g.isOpen = false) : Kept g (executeQuery sql) := by
  have hk : Kept g (executeQuery sql >>= Program.done) := keeps_executeQuery (fun _ => hg) hg
  rwa [bind_done] at hk

theorem keeps_complete {post : Unit → Grip → Prop} (ho : g.isOpen = true)
    (hp : ∀ g' : Grip, g'.isOpen = false → post () g') : Keeps session post fail g complete := by
  refine keeps_isOpen ?_
  rw [ho]
  exact ⟨ho, fun _ g' hg => hp g' hg⟩

/-- The destructor leaves nothing open. -/
theorem keeps_destroy {post : Unit → Grip → Prop}
    (hp : ∀ g' : Grip, g'.isOpen = false → post () g') : Keeps session post fail g destroy := by
  refine keeps_isOpen ?_
  cases ho : g.isOpen with
  | false => exact hp g ho
  | true => exact keeps_complete ho hp

def Callback (g : Grip) (func : Execution Unit) : Prop :=
  Keeps session (fun _ _ => True) (fun _ _ => True) g func

theorem kept_callback {func : Execution Unit} (hf : Callback g func) :
    Kept g (ensuring Halt.unwinds destroy (func >>= fun _ => perform .index)) := by
  refine keeps_ensuring.mpr (keeps_bind.mpr (hf.mono (fun _ g' _ => ?_) fun e g' _ => ?_))
  · refine ⟨trivial, fun n e hn => ?_⟩
    obtain rfl : e = g' := hn
    exact keeps_destroy fun _ => id
  · cases e with
    | thrown => exact keeps_destroy fun _ hg _ => hg
    | undefined | unfinished =>
      intro ht
      cases ht

private theorem kept_reserving {q : Request} {p : Execution Unit} {func : Execution Unit}
    {drop : Bool} (hm : session.may g q) (hp : p = Program.ask q fun _ => .done ())
    (hq : ∀ r g', g.answered q r g' → g' = refused ∨ g' = held drop)
    (hf : ∀ g', g' = refused ∨ g' = held drop → Callback g' func) :
    Kept g (reserving p func) := by
  subst hp
  exact ⟨hm, fun r g' hr => kept_callback (hf g' (hq r g' hr))⟩

theorem Kept.ignore {p : Execution α} {f : α → β} (hp : Kept g p) :
    Kept g (p >>= fun a => .done (f a)) :=
  keeps_bind.mpr (hp.mono (fun _ _ => id) fun _ _ => id)

theorem kept_selectTable {f : Table → Execution α} (hg : g.isOpen = false)
    (hf : ∀ t, Kept g (f t)) (attempts : Nat) : Kept g (selectTable attempts >>= f) := by
  induction attempts with
  | zero => exact fun _ => hg
  | succ attempts ih =>
    simp only [selectTable, bind_assoc]
    refine keeps_size fun n => keeps_random fun idx => ⟨hg, fun p g' hp => ?_⟩
    obtain rfl : g' = g := hp
    cases p with
    | none => exact ih
    | some t => exact hf t

end Rules

section Actions
variable {config : DdlConfig} {g : Grip}

theorem callback_create (hg : g = refused ∨ g = held false) :
    Callback g (CreateTable.body config) := by
  refine keeps_table trivial fun t hne => ?_
  obtain rfl : g = held false := hg.resolve_left hne
  refine ⟨trivial, fun number g' hn => ?_⟩
  obtain ⟨_, rfl⟩ := hn
  refine keeps_random fun count => keeps_draw (draws_randomColumns _ _) trivial fun columns _ => ?_
  exact keeps_write (keeps_executeQuery trivial (keeps_complete rfl fun _ _ => trivial))

theorem callback_drop (hg : g = refused ∨ g = held true) : Callback g DropTable.body := by
  refine keeps_isOpen ?_
  obtain rfl | rfl := hg
  · trivial
  · refine keeps_table trivial fun t _ => ?_
    exact keeps_executeQuery trivial (keeps_complete rfl fun _ _ => trivial)

theorem callback_alter {commands : BitFlags} (hg : g = refused ∨ g = held false) :
    Callback g (AlterTable.body config commands) := by
  refine keeps_isOpen ?_
  obtain rfl | rfl := hg
  · trivial
  · refine keeps_table trivial fun t _ => keeps_random fun n => ?_
    refine keeps_draw (draws_subcommands config _ t.columns n) trivial fun st _ => ?_
    refine keeps_write (keeps_table trivial fun t _ => ?_)
    exact keeps_executeQuery trivial (keeps_complete rfl fun _ _ => trivial)

/-- Every action keeps to the session. -/
theorem kept_execute (a : Action) (hg : g.isOpen = false) (attempts : Nat) :
    Kept g (a.execute attempts) := by
  cases a with
  | createTable config =>
    refine keeps_size fun n => ?_
    split
    · exact hg
    · exact (kept_reserving (q := .createTable) hg rfl (fun _ _ => id)
        fun g' => callback_create).ignore
  | dropTable config =>
    refine keeps_size fun n => ?_
    split
    · exact hg
    · refine keeps_size fun n => keeps_random fun idx => ?_
      exact (kept_reserving (q := .dropTable idx) hg rfl (fun _ _ => id)
        fun g' => callback_drop).ignore.ignore
  | alterTable config commands =>
    refine keeps_size fun n => keeps_random fun idx => ?_
    exact (kept_reserving (q := .alterTable idx) hg rfl (fun _ _ => id)
      fun g' => callback_alter).ignore.ignore
  | insertData table rows =>
    have send (t : Table) : Kept g (InsertData.statement t rows >>= executeQuery) :=
      keeps_draw (draws_insert t rows) (fun ht => by cases ht) fun _ _ => kept_executeQuery hg
    refine keeps_size fun n => ?_
    split
    · exact hg
    · cases table with
      | some t => exact send t
      | none => exact kept_selectTable hg send attempts
  | deleteData config =>
    refine keeps_size fun n => ?_
    split
    · exact hg
    · refine kept_selectTable hg (fun t => ?_) attempts
      refine keeps_draw (draws_deref _) (fun ht => by cases ht) fun col _ => ?_
      exact keeps_random fun rows => kept_executeQuery hg
  | updateOneRow =>
    refine keeps_size fun n => ?_
    split
    · exact hg
    · refine kept_selectTable hg (fun t => ?_) attempts
      refine keeps_draw (draws_deref _) (fun ht => by cases ht) fun col _ => ?_
      refine keeps_draw (draws_assignments _ _) (fun ht => by cases ht) fun sql _ => ?_
      exact kept_executeQuery hg
  | customSql c =>
    have inject (text : String) (p : String) (g : Grip) (hg : g.isOpen = false) :
        Kept g (do
          let replacement ← CustomSql.doInject p attempts
          return text.replace ("\x7b" ++ p ++ "\x7d") replacement) := by
      unfold CustomSql.doInject
      split
      · rw [bind_bind]
        refine kept_selectTable hg (fun t => ?_) attempts
        exact hg
      · exact fun _ => hg
    refine keeps_bind.mpr ((keeps_foldlM (I := fun _ g => g.isOpen = false) inject
      c.injectParameters hg).mono ?_ fun _ _ => id)
    exact fun sql g' hg' => kept_executeQuery hg'

end Actions
end Grip
end PStress.Actions
