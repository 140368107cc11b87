import PStress.Actions.Workers
import PStress.Metadata.Alone

/-! An action that runs without interference. Each operation of its handle is carried through
before the next request, and what comes from outside is read from a list. -/
namespace PStress.Actions
open Interaction Interleaving Metadata Program
variable {ι : Type}

/-- The data, the handle of the action, and the inputs that are left. -/
structure World (ι : Type) where
  data : InternalData ι Table
  res : Reservation Table
  inputs : List Input

def takes : Request → List Input → Input × List Input
  | .random .., x :: rest | .real, x :: rest | .executeQuery _, x :: rest => (x, rest)
  | _, inputs => (.none, inputs)

variable [DecidableEq ι]

def alone (i : ι) (steps : Nat) (q : Request) (w : World ι) : Option (q.Answer × World ι) :=
  (serve (takes q w.inputs).1 w.data w.res q).bind fun y =>
    (settle i steps y.1 y.2.1).bind fun z =>
      (y.2.2.or (late w.data q)).map fun a => (a, ⟨z.1, z.2, (takes q w.inputs).2⟩)

section Answers
variable {i : ι} {steps : Nat} {w w' : World ι}

/-- A request that leaves the handle alone. -/
theorem alone_eq_some {q : Request} {a : q.Answer} (h : alone i steps q w = some (a, w')) :
    ∃ d t ans d' r, serve (takes q w.inputs).1 w.data w.res q = some (d, t, ans) ∧
      settle i steps d t = some (d', r) ∧ ans.or (late w.data q) = some a ∧
      w' = ⟨d', r, (takes q w.inputs).2⟩ := by
  obtain ⟨⟨d, t, ans⟩, hs, h⟩ := Option.bind_eq_some_iff.mp h
  obtain ⟨⟨d', r⟩, hset, h⟩ := Option.bind_eq_some_iff.mp h
  obtain ⟨b, hb, he⟩ := Option.map_eq_some_iff.mp h
  cases he
  exact ⟨d, t, ans, d', r, hs, hset, hb, rfl⟩

private theorem alone_call {q : Request} {a : q.Answer} {o : Act Table} {ans : Option q.Answer}
    (h : alone i steps q w = some (a, w'))
    (hq : ∀ x, serve x w.data w.res q = (call w.data w.res o).map fun y => (y.1, y.2, ans)) :
    ∃ d t d' r, call w.data w.res o = some (d, t) ∧ settle i steps d t = some (d', r) ∧
      ans.or (late w.data q) = some a ∧ w' = ⟨d', r, (takes q w.inputs).2⟩ := by
  obtain ⟨d, t, ans', d', r, hs, hset, ha, rfl⟩ := alone_eq_some h
  rw [hq] at hs
  obtain ⟨y, hy, he⟩ := Option.map_eq_some_iff.mp hs
  cases he
  exact ⟨y.1, y.2, d', r, hy, hset, ha, rfl⟩

theorem alone_size {use : SizeUse} {n : Nat} (h : alone i steps (.size use) w = some (n, w')) :
    n = w.data.tableCount ∧ w' = w := by
  simp [alone, serve, takes] at h
  exact ⟨h.1.symm, h.2.symm⟩

theorem alone_isOpen {b : Bool} (h : alone i steps .isOpen w = some (b, w')) :
    b = w.res.isOpen ∧ w' = w := by
  simp [alone, serve, takes] at h
  exact ⟨h.1.symm, h.2.symm⟩

theorem alone_table {p : Option Table} (h : alone i steps .table w = some (p, w')) :
    p = w.res.table.map TablePtr.value ∧ w' = w := by
  simp [alone, serve, takes] at h
  exact ⟨h.1.symm, h.2.symm⟩

theorem alone_index {n : Nat} (h : alone i steps .index w = some (n, w')) :
    n = w.res.index ∧ w' = w := by
  simp [alone, serve, takes] at h
  exact ⟨h.1.symm, h.2.symm⟩

theorem alone_executeQuery {sql : String} {r : SqlResult}
    (h : alone i steps (.executeQuery sql) w = some (r, w')) :
    ∃ rest, w' = { w with inputs := rest } := by
  obtain ⟨d, t, ans, d', res, hs, hset, _, rfl⟩ := alone_eq_some h
  simp only [serve] at hs
  split at hs <;> cases hs
  rw [settle_idle] at hset
  cases hset
  exact ⟨_, rfl⟩

theorem alone_write {t : Table} {u : Unit} (h : alone i steps (.write t) w = some (u, w')) :
    w' = { w with res := w.res.edit fun _ => t } ∧ w.res.isOpen = true := by
  obtain ⟨d, t, d', res, hy, hset, _, rfl⟩ := alone_call h fun _ => rfl
  simp only [call] at hy
  split at hy <;> cases hy
  rename_i hopen
  rw [settle_idle] at hset
  cases hset
  exact ⟨rfl, ((Bool.and_eq_true _ _).mp hopen).1⟩

def drawFrom : (q : Request) → List Input → Option (q.Answer × List Input)
  | .random _ min max, .drawn v :: rest => if Drawn min max v then some (v, rest) else none
  | .real, .real n :: rest =>
    if 1000000 ≤ n ∧ n ≤ 1000000000000 then some (n, rest) else none
  | _, _ => none

def Request.Random : Request → Prop
  | .random .. | .real => True
  | _ => False

theorem Request.Draw.random {q : Request} (h : q.Draw) : q.Random := by
  cases q with
  | random | real => trivial
  | _ => cases h

theorem alone_draw {q : Request} {a : q.Answer} (hq : q.Random)
    (h : alone i steps q w = some (a, w')) :
    w' = { w with inputs := w'.inputs } ∧ drawFrom q w.inputs = some (a, w'.inputs) := by
  obtain ⟨d, t, ans, d', res, hs, hset, ha, rfl⟩ := alone_eq_some h
  obtain ⟨data, r, inputs⟩ := w
  cases q with
  | random type min max =>
    cases inputs with
    | nil => cases hs
    | cons x rest =>
      cases x with
      | drawn v =>
        simp only [takes, serve] at hs
        split at hs <;> cases hs
        rename_i hv
        rw [settle_idle] at hset
        cases hset
        cases ha
        exact ⟨rfl, if_pos hv⟩
      | none | real | sql => cases hs
  | real =>
    cases inputs with
    | nil => cases hs
    | cons x rest =>
      cases x with
      | real n =>
        simp only [takes, serve] at hs
        split at hs <;> cases hs
        rename_i hn
        rw [settle_idle] at hset
        cases hset
        cases ha
        exact ⟨rfl, if_pos hn⟩
      | none | drawn | sql => cases hs
  | _ => cases hq

theorem drawFrom_given {q : Request} {a : q.Answer} {inputs rest : List Input}
    (h : drawFrom q inputs = some (a, rest)) : q.Given (fun _ _ => True) a := by
  cases q with
  | random type min max =>
    rcases inputs with _ | ⟨_ | v | _ | _, rest⟩ <;> simp only [drawFrom] at h <;>
      (try split at h) <;> cases h
    exact ⟨by assumption, trivial⟩
  | _ => trivial

theorem alone_given {q : Request} {a : q.Answer} (h : alone i steps q w = some (a, w')) :
    q.Given (fun _ _ => True) a := by
  cases q with
  | random type min max =>
    exact drawFrom_given (q := .random type min max) (alone_draw (q := .random type min max)
      trivial h).2
  | _ => trivial

theorem drawFrom_random {type : NumType} {min max v : Int} {inputs rest : List Input}
    (h : drawFrom (.random type min max) inputs = some (v, rest)) :
    inputs = .drawn v :: rest ∧ Drawn min max v := by
  rcases inputs with _ | ⟨_ | v' | _ | _, inputs⟩ <;> simp only [drawFrom] at h <;>
    (try split at h) <;> cases h
  exact ⟨rfl, by assumption⟩

/-- What a program that only draws returns. -/
theorem Draws.of_run {α : Type} {P : α → Prop} {p : Execution α} {inputs rest : List Input} {a : α}
    (h : Draws (fun _ _ => True) P p) (hr : p.run drawFrom inputs = some (.ok a, rest)) : P a := by
  induction p generalizing inputs with
  | done b =>
    cases hr
    exact h
  | stop e => cases hr
  | ask q k ih =>
    obtain ⟨⟨r, inputs'⟩, hd, hk⟩ := Option.bind_eq_some_iff.mp hr
    exact ih r (h.2 r () (drawFrom_given hd)) hk

end Answers
section Operations
variable {i : ι} {n steps : Nat} {d d' : InternalData ι Table} {r r' : Reservation Table}

def Same (d d' : InternalData ι Table) : Prop :=
  d'.tables = d.tables ∧ d'.tableCount = d.tableCount ∧ d'.reservedSize = d.reservedSize

private theorem settle_acquire {b : Bool} {k : Nat}
    (h : settle i n d ⟨r, .acquire b k⟩ = some (d', r')) :
    Same d d' ∧ (r' = .closed ∨ ∃ p, d.tables k = some p ∧ r' = ⟨true, some p, b, k, some k⟩) := by
  cases hp : d.tables k with
  | none =>
    obtain ⟨_, he⟩ := (acquire_settles_empty hp).mp ⟨n, h⟩
    cases he
    exact ⟨⟨rfl, rfl, rfl⟩, .inl rfl⟩
  | some p =>
    obtain ⟨_, he⟩ := (acquire_settles hp).mp ⟨n, h⟩
    cases he
    exact ⟨⟨rfl, rfl, rfl⟩, .inr ⟨p, rfl, rfl⟩⟩

private theorem settle_reserve (h : settle i n d ⟨r, .reserve⟩ = some (d', r')) :
    d'.tables = d.tables ∧ d'.tableCount = d.tableCount ∧
      (r' = .closed ∨ r' = ⟨true, some ⟨d.nextTable, default⟩, false, npos, none⟩) := by
  refine settle_invariant (P := fun e t => e.tables = d.tables ∧ e.tableCount = d.tableCount ∧
    match t.pc with
    | .reserve => e = d
    | .unreserve => True
    | .idle => t.res = .closed ∨ t.res = ⟨true, some ⟨d.nextTable, default⟩, false, npos, none⟩
    | _ => False) ?_ ⟨rfl, rfl, rfl⟩ h
  rintro e r pc e' t' ⟨htables, hcount, hpc⟩ ht
  cases pc with
  | reserve =>
    obtain rfl : e = d := hpc
    simp only [tick] at ht
    split at ht <;> cases ht
    · exact ⟨rfl, rfl, trivial⟩
    · exact ⟨rfl, rfl, .inr rfl⟩
  | unreserve =>
    cases ht
    exact ⟨htables, hcount, .inl rfl⟩
  | idle => cases ht
  | _ => cases hpc

private theorem settle_create (h : settle i n d ⟨r, .createRead⟩ = some (d', r')) :
    d.tableCount < maximumTableCount ∧
      d'.tables = Function.update d.tables d.tableCount r.table ∧
      d'.tableCount = d.tableCount + 1 ∧ r' = { r with index := d.tableCount } := by
  refine settle_invariant (P := fun e t => match t.pc with
    | .createRead => e.tables = d.tables ∧ e.tableCount = d.tableCount ∧ t.res = r
    | .createTest k | .outerLock k | .outerLoad k | .outerTest k | .outerRetry k
    | .innerLock k _ =>
      k = d.tableCount ∧ e.tables = d.tables ∧ e.tableCount = d.tableCount ∧ t.res = r
    | .innerStore k _ => k = d.tableCount ∧ d.tableCount < maximumTableCount ∧
      e.tables = d.tables ∧ e.tableCount = d.tableCount ∧ t.res = r
    | .innerCount k _ => k = d.tableCount ∧ d.tableCount < maximumTableCount ∧
      e.tables = Function.update d.tables d.tableCount r.table ∧ e.tableCount = d.tableCount ∧
        t.res = r
    | .innerUnlock .. | .outerUnlock _ | .idle => d.tableCount < maximumTableCount ∧
      e.tables = Function.update d.tables d.tableCount r.table ∧
        e.tableCount = d.tableCount + 1 ∧ t.res = { r with index := d.tableCount }
    | .undefined _ => True
    | _ => False) ?step ?start h
  case start => exact ⟨rfl, rfl, rfl⟩
  intro e r₁ pc e' t' hpc ht
  cases pc with
  | createRead =>
    cases ht
    exact ⟨hpc.2.1, hpc⟩
  | innerLock k o =>
    obtain ⟨rfl, hrest⟩ := hpc
    simp only [tick] at ht
    split at ht
    · rename_i hk
      split at ht <;> cases ht
      exact ⟨rfl, hk, hrest⟩
    · cases ht
      trivial
  | innerStore k o =>
    obtain ⟨rfl, hk, htables, hcount, rfl⟩ := hpc
    cases ht
    exact ⟨rfl, hk, by rw [InternalData.store, htables], hcount, rfl⟩
  | innerCount k o =>
    obtain ⟨rfl, hk, htables, hcount, rfl⟩ := hpc
    cases ht
    exact ⟨hk, htables, congrArg (· + 1) hcount, rfl⟩
  | innerUnlock k o =>
    cases ht
    cases o <;> exact hpc
  | idle | undefined => cases ht
  | createTest | outerLock | outerLoad | outerTest =>
    simp only [tick] at ht
    (repeat' split at ht) <;> cases ht <;> first | exact hpc | trivial
  | outerRetry =>
    cases ht
    exact hpc.2
  | outerUnlock =>
    cases ht
    exact hpc
  | _ => cases hpc

private theorem settle_drop (h : settle i n d ⟨r, .dropTest⟩ = some (d', r')) :
    d'.tableCount = decrement d.tableCount := by
  refine settle_invariant (P := fun e t => match t.pc with
    | .dropTest | .dropClear | .dropCount | .lastRead | .lastLock _ | .lastLoad _ | .lastTest _
    | .lastRetry _ | .moveLoad _ | .moveStore .. | .moveUnlock _ | .moveCount _ =>
      e.tableCount = d.tableCount
    | .dropReserved | .dropMoved | .dropUnlock | .moveReserved _ | .moveClear _ | .moveMoved _
    | .moveRelease _ | .idle => e.tableCount = decrement d.tableCount
    | .undefined _ => True
    | _ => False) ?_ rfl h
  intro e r pc e' t' hpc ht
  cases pc with
  | dropCount | moveCount =>
    cases ht
    exact congrArg decrement hpc
  | idle | undefined => cases ht
  | dropTest | dropClear | lastRead | lastLock | lastLoad | lastTest | lastRetry | moveLoad
  | moveStore | moveUnlock | dropReserved | dropMoved | dropUnlock | moveReserved | moveClear
  | moveMoved | moveRelease =>
    simp only [tick] at ht
    (repeat' split at ht) <;> cases ht <;> first | exact hpc | trivial
  | _ => cases hpc

private theorem settle_alter (h : settle i n d ⟨r, .alterStore⟩ = some (d', r')) :
    Same (d.store r.index r.table) d' ∧ r' = { r with lock := none } := by
  cases alter_settles.mp ⟨n, h⟩
  exact ⟨⟨rfl, rfl, rfl⟩, rfl⟩

variable {w w' : World ι} {u : Unit}

theorem alone_createTable (h : alone i steps .createTable w = some (u, w')) :
    w'.data.tables = w.data.tables ∧ w'.data.tableCount = w.data.tableCount ∧
      w'.inputs = w.inputs ∧ (w'.res = .closed ∨
        w'.res = ⟨true, some ⟨w.data.nextTable, default⟩, false, npos, none⟩) := by
  obtain ⟨d, t, d', res, hy, hset, _, rfl⟩ := alone_call h fun _ => rfl
  simp only [call] at hy
  (repeat' split at hy) <;> cases hy
  · obtain ⟨htables, hcount, hres⟩ := settle_reserve hset
    exact ⟨htables, hcount, rfl, hres⟩
  · rw [settle_idle] at hset
    cases hset
    exact ⟨rfl, rfl, rfl, .inl rfl⟩

theorem alone_alterTable {k : Nat} (h : alone i steps (.alterTable k) w = some (u, w')) :
    Same w.data w'.data ∧ w'.inputs = w.inputs ∧ k < maximumTableCount ∧ (w'.res = .closed ∨
      ∃ p, w.data.tables k = some p ∧ w'.res = ⟨true, some p, false, k, some k⟩) := by
  obtain ⟨d, t, d', res, hy, hset, _, rfl⟩ := alone_call h fun _ => rfl
  simp only [call] at hy
  split at hy <;> cases hy
  rename_i hk
  obtain ⟨hsame, hres⟩ := settle_acquire hset
  exact ⟨hsame, rfl, by simp at hk; exact hk.2, hres⟩

theorem alone_dropTable {k : Nat} (h : alone i steps (.dropTable k) w = some (u, w')) :
    w'.data.tableCount = w.data.tableCount ∧ (w'.res = .closed ∨ w'.res.Holding true) := by
  obtain ⟨d, t, d', res, hy, hset, _, rfl⟩ := alone_call h fun _ => rfl
  simp only [call] at hy
  split at hy <;> cases hy
  rename_i hk
  obtain ⟨hsame, hres⟩ := settle_acquire hset
  refine ⟨hsame.2.1, hres.imp_right ?_⟩
  rintro ⟨p, _, rfl⟩
  exact ⟨rfl, rfl, rfl, by simp at hk; exact hk.2, rfl⟩

private theorem alone_complete (h : alone i steps .complete w = some (u, w')) :
    settle i steps w.data ⟨w.res, w.res.branch⟩ = some (w'.data, w'.res) := by
  obtain ⟨d, t, d', res, hy, hset, _, rfl⟩ := alone_call h fun _ => rfl
  simp only [call] at hy
  split at hy <;> cases hy
  exact hset

theorem alone_complete_create (h : alone i steps .complete w = some (u, w'))
    (hc : w.res.Creating) : w.data.tableCount < maximumTableCount ∧
    w'.data.tables = Function.update w.data.tables w.data.tableCount w.res.table ∧
      w'.data.tableCount = w.data.tableCount + 1 ∧
      w'.res = { w.res with index := w.data.tableCount } := by
  have hset := alone_complete h
  rw [hc.branch] at hset
  exact settle_create hset

theorem alone_complete_drop (h : alone i steps .complete w = some (u, w'))
    (hb : w.res.Holding true) : w'.data.tableCount = decrement w.data.tableCount := by
  have hset := alone_complete h
  rw [hb.branch] at hset
  exact settle_drop hset

theorem alone_complete_alter (h : alone i steps .complete w = some (u, w'))
    (hk : w.res.index ≠ npos) (hd : w.res.drop = false) :
    Same (w.data.store w.res.index w.res.table) w'.data ∧
      w'.res = { w.res with lock := none } := by
  have hset := alone_complete h
  rw [show w.res.branch = .alterStore by simp [Reservation.branch, hk, hd]] at hset
  exact settle_alter hset

end Operations
end PStress.Actions
