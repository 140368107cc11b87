import PStress.Actions.Ddl

/-! The parts of actions that only draw random numbers, and what they draw. -/
namespace PStress.Actions
open Interaction Metadata Program
variable {α β : Type}

/-- What is known of a random number, and of the bounds `D` it was drawn between. -/
def Request.Given (D : Int → Int → Prop) : (q : Request) → q.Answer → Prop
  | .random _ min max, v => Drawn min max v ∧ D min max
  | _, _ => True

def Request.Draw : Request → Prop
  | .random _ min max => min ≤ max
  | .real => True
  | _ => False

def drawing (D : Int → Int → Prop) : Session Request Request.Answer Unit where
  may _ q := q.Draw
  next _ q r _ := q.Given D r

/-- The program only draws random numbers, and its result satisfies `P`. -/
def Draws (D : Int → Int → Prop) (P : α → Prop) (p : Execution α) : Prop :=
  Keeps (drawing D) (fun a _ => P a) (fun e _ => e = .undefined) () p

/-- A session in which draws are allowed in state `s` and do not change it. -/
structure Tolerates {S : Type*} (D : Int → Int → Prop) (A : Session Request Request.Answer S)
    (s : S) : Prop where
  may : ∀ q : Request, q.Draw → A.may s q
  next : ∀ (q : Request) (r : q.Answer) s', q.Draw → A.next s q r s' → s' = s ∧ q.Given D r

/-- Draws are the same in every session that tolerates them. -/
theorem Tolerates.keeps {S : Type*} {D : Int → Int → Prop} {A : Session Request Request.Answer S}
    {s : S} {post : α → Prop} {fail : Halt → Prop} {p : Execution α} (hA : Tolerates D A s)
    (h : Keeps (drawing D) (fun a _ => post a) (fun e _ => fail e) () p) :
    Keeps A (fun a s' => post a ∧ s' = s) (fun e s' => fail e ∧ s' = s) s p := by
  induction p with
  | done a => exact ⟨h, rfl⟩
  | stop e => exact ⟨h, rfl⟩
  | ask q k ih =>
    refine ⟨hA.may q h.1, fun r s' hn => ?_⟩
    obtain ⟨rfl, hg⟩ := hA.next q r s' h.1 hn
    exact ih r (h.2 r () hg)

theorem Draws.keeps {S : Type*} {D : Int → Int → Prop} {A : Session Request Request.Answer S}
    {s : S} {P : α → Prop} {p : Execution α} (h : Draws D P p) (hA : Tolerates D A s) :
    Keeps A (fun a s' => P a ∧ s' = s) (fun e s' => e = .undefined ∧ s' = s) s p :=
  hA.keeps h

/-- The program only draws random numbers, and it returns. -/
def Yields (D : Int → Int → Prop) (P : α → Prop) (p : Execution α) : Prop :=
  Keeps (drawing D) (fun a _ => P a) (fun _ _ => False) () p

namespace Yields
variable {D : Int → Int → Prop} {P : α → Prop} {R : β → Prop}

theorem done {a : α} (h : P a) : Yields D P (.done a) := h

theorem bind {p : Execution α} {f : α → Execution β} (h : Yields D P p)
    (hf : ∀ a, P a → Yields D R (f a)) : Yields D R (p >>= f) :=
  keeps_bind.mpr (h.mono (fun a _ => hf a) fun _ _ => id)

/-- What is known of the draws is known of the result. -/
theorem draws {P' : α → Prop} {p : Execution α} (h : Yields D P p) (h' : Draws D P' p) :
    Yields D P' p :=
  (Keeps.both h h').mono (fun _ _ hp => hp.2) fun _ _ he => he.1

theorem randomInt {min max : Int} (h : min ≤ max) : Yields D (Drawn min max) (randomInt min max) :=
  ⟨h, fun _ _ hv => hv.1⟩

theorem randomSize {min max : Nat} (h : min ≤ max) :
    Yields D (fun _ => True) (randomSize min max) :=
  ⟨Int.ofNat_le.mpr h, fun _ _ _ => trivial⟩

end Yields

namespace Draws
variable {D : Int → Int → Prop} {P : α → Prop} {R : β → Prop}

theorem done {a : α} (h : P a) : Draws D P (.done a) := h

theorem undefined : Draws D P (.stop .undefined) := rfl

theorem bind {p : Execution α} {f : α → Execution β} (h : Draws D P p)
    (hf : ∀ a, P a → Draws D R (f a)) : Draws D R (p >>= f) :=
  keeps_bind.mpr (h.mono (fun a _ => hf a) fun _ _ => id)

theorem weaken {P' : α → Prop} {p : Execution α} (h : Draws D P p) (hP : ∀ a, P a → P' a) :
    Draws D P' p :=
  h.mono (fun a _ => hP a) fun _ _ => id

theorem and {P' : α → Prop} {p : Execution α} (h : Draws D P p) (h' : Draws D P' p) :
    Draws D (fun a => P a ∧ P' a) p :=
  Keeps.and h h'

theorem times {I : Nat → α → Prop} {body : α → Execution α}
    (hbody : ∀ m x, I m x → Draws D (I (m + 1)) (body x)) (n : Nat) {x : α} (h : I 0 x) :
    Draws D (I n) (times body n x) := by
  have hk := keeps_times (s := ()) (fun m x _ => hbody m x) n 0 h
  rwa [Nat.zero_add] at hk

end Draws

variable {D : Int → Int → Prop}

theorem draws_deref (o : Option α) : Draws D (fun a => o = some a) (deref o) := by
  cases o with
  | none => exact .undefined
  | some a => exact .done rfl

theorem draws_randomInt {min max : Int} (h : min ≤ max) :
    Draws D (Drawn min max) (randomInt min max) := ⟨h, fun _ _ hv => hv.1⟩

theorem draws_randomSize {min max : Nat} (h : min ≤ max) :
    Draws D (fun n => ∃ v, (Drawn min max v ∧ D min max) ∧ n = toSize v) (randomSize min max) :=
  ⟨Int.ofNat_le.mpr h, fun v _ hv => ⟨v, hv, rfl⟩⟩

/-- A column as an ALTER adds one: neither a key nor filled by the server. -/
def Column.Ordinary (col : Column) : Prop :=
  col.primary_key = false ∧ col.auto_increment = false

def Column.Serial (col : Column) : Prop :=
  col.type = .INT ∧ col.primary_key = true ∧ col.auto_increment = true

private theorem draws_columnType : Draws D (fun _ => True) randomColumnType :=
  (draws_randomSize (by decide)).bind fun _ _ => (draws_deref _).weaken fun _ _ => trivial

private theorem draws_columnLength (type : ColumnType) :
    Draws D (fun n => n ≤ 100) (randomColumnLength type) := by
  cases type with
  | CHAR | VARCHAR =>
    refine (draws_randomInt (by decide)).bind fun v hv => .done ?_
    obtain ⟨hl, hu⟩ := hv.between (by decide) (by decide) (by decide)
    have hsize := toSize_of_isInt hv.1 (by omega)
    omega
  | _ => exact .done (Nat.zero_le _)

/-- What holds of any name with a number, any type and any short length holds of a drawn column. -/
theorem draws_column {P : Column → Prop} (hP : ∀ (number : Nat) (type : ColumnType) (length : Nat),
    length ≤ 100 → P { name := s!"col{number}", type, length }) :
    Draws D P (randomColumn false) := by
  refine (draws_randomSize (Nat.zero_le _)).bind fun number _ => ?_
  exact draws_columnType.bind fun type _ => (draws_columnLength type).bind fun length hl =>
    .done (hP number type length hl)

/-- So for a column that the server fills. -/
theorem draws_serial {P : Column → Prop} (hP : ∀ number : Nat,
    P { name := s!"col{number}", type := .INT, primary_key := true, auto_increment := true }) :
    Draws D P (randomColumn true) :=
  (draws_randomSize (Nat.zero_le _)).bind fun number _ => .done (hP number)

private theorem draws_randomColumn : Draws D Column.Ordinary (randomColumn false) :=
  draws_column fun _ _ _ _ => ⟨rfl, rfl⟩

/-- What holds of each column drawn, by its place, holds of the columns of a new table. -/
theorem draws_columns {P : Nat → Column → Prop} (hP : ∀ k, Draws D (P k) (randomColumn (k == 0)))
    (n : Nat) (columns : List Column) :
    Draws D (fun all => ∃ new, all = columns ++ new ∧ new.length = n ∧
      ∀ k col, new[k]? = some col → P k col) (CreateTable.randomColumns n columns) := by
  have body (m : Nat) (x : Nat × List Column) (hx : x.1 = m ∧ ∃ new, x.2 = columns ++ new ∧
      new.length = m ∧ ∀ k col, new[k]? = some col → P k col) :
      Draws D (fun y => y.1 = m + 1 ∧ ∃ new, y.2 = columns ++ new ∧ new.length = m + 1 ∧
        ∀ k col, new[k]? = some col → P k col)
        (do
          let column ← randomColumn (x.1 == 0)
          return (x.1 + 1, x.2 ++ [column])) := by
    obtain ⟨idx, all⟩ := x
    obtain ⟨rfl, new, rfl, hlen, hnew⟩ := hx
    refine (hP idx).bind fun c hc => .done ⟨rfl, new ++ [c], List.append_assoc .., by simp [hlen],
      fun k col hk => ?_⟩
    rw [List.getElem?_append] at hk
    split at hk
    · exact hnew k col hk
    · obtain ⟨hlt, rfl⟩ := List.getElem?_eq_some_iff.mp hk
      obtain rfl : k = idx := by simp at hlt; omega
      simpa using hc
  exact (Draws.times body n ⟨rfl, [], by simp, rfl, by simp⟩).bind fun x hx => .done hx.2

def Shaped (columns : List Column) : Prop :=
  ∀ k col, columns[k]? = some col → if k = 0 then col.Serial else col.Ordinary

theorem draws_randomColumns (n : Nat) (columns : List Column) :
    Draws D (fun all => ∃ new, all = columns ++ new ∧ new.length = n ∧ Shaped new)
      (CreateTable.randomColumns n columns) := by
  refine draws_columns (fun k => ?_) n columns
  cases k with
  | zero => exact draws_serial fun _ => ⟨rfl, rfl, rfl⟩
  | succ k => exact draws_randomColumn

/-- What a clause may do to a table with that many columns. -/
def AlterTable.Clause.Fits (D : Int → Int → Prop) (columns : Nat) : AlterTable.Clause → Prop
  | .addColumn column => column.Ordinary
  | .dropColumn k => 3 ≤ columns ∧ k < columns ∧
    ∃ v, Drawn 1 (decrement columns) v ∧ D 1 (decrement columns) ∧ k = toSize v
  | .changeColumn | .setAccessMethod _ | .nothing => True

theorem draws_drawClause (config : DdlConfig) (commands : List AlterSubcommand) (columns : Nat)
    (changingAm : Bool) : Draws D (AlterTable.Clause.Fits D columns)
      (AlterTable.drawClause config commands columns changingAm) := by
  unfold AlterTable.drawClause
  refine (draws_randomSize (Nat.zero_le _)).bind fun _ _ => (draws_deref _).bind fun command _ => ?_
  cases command with
  | addColumn => exact draws_randomColumn.bind fun c hc => .done hc
  | changeColumn => exact .done trivial
  | changeAccessMethod =>
    dsimp only
    split
    · exact .done trivial
    · exact (draws_randomSize (Nat.zero_le _)).bind fun _ _ =>
        (draws_deref _).bind fun _ _ => .done trivial
  | dropColumn =>
    dsimp only
    split
    · exact .done trivial
    · rename_i h3
      have hdec : decrement columns = columns - 1 := decrement_of_pos (by omega)
      refine (draws_randomSize (by omega)).bind fun k hk => ?_
      obtain ⟨v, ⟨hv, hd⟩, rfl⟩ := hk
      split
      · rename_i hlt
        exact .done ⟨by omega, hlt, v, hv, hd, rfl⟩
      · exact .undefined

/-- What the loop over the subcommands makes of a table's columns. -/
inductive AlterTable.Altered (D : Int → Int → Prop) (columns : List Column) :
    AlterTable.Progress → Prop where
  | start : Altered D columns ⟨columns, [], [], false⟩
  | apply {st : AlterTable.Progress} {clause : AlterTable.Clause} : Altered D columns st →
    clause.Fits D st.columns.length → Altered D columns (st.apply clause)

theorem draws_subcommands (config : DdlConfig) (commands : List AlterSubcommand)
    (columns : List Column) (n : Nat) : Draws D (AlterTable.Altered D columns)
      (times (AlterTable.subcommand config commands) n ⟨columns, [], [], false⟩) :=
  .times (I := fun _ => AlterTable.Altered D columns)
    (fun _ st hst => (draws_drawClause config commands st.columns.length st.changingAm).bind
      fun _ hfit => .done (hst.apply hfit)) n .start

end PStress.Actions
