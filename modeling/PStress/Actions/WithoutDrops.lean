import PStress.Actions.AtRest
import PStress.Actions.Refusals
import PStress.Metadata.WithoutDrops

/-! Actions other than `DropTable` never reserve a table to drop it. While only such actions are
begun every table stays at its slot. -/
namespace PStress.Actions
open Interaction Interleaving Metadata Program
variable {α β : Type}

def Request.drops : Request → Bool
  | .dropTable _ => true
  | _ => false

def sparing : Session Request Request.Answer Unit where
  may _ q := q.drops = false
  next _ q r _ := q.Given (fun _ _ => True) r

def Sparing (p : Execution α) : Prop := Keeps sparing (fun _ _ => True) (fun _ _ => True) () p

namespace Sparing

theorem bind {p : Execution α} {f : α → Execution β} (h : Sparing p) (hf : ∀ a, Sparing (f a)) :
    Sparing (p >>= f) :=
  keeps_bind.mpr (h.mono (fun a _ _ => hf a) fun _ _ => id)

theorem perform {q : Request} (hq : q.drops = false) : Sparing (perform q) :=
  keeps_request.mpr ⟨hq, fun _ _ _ => trivial⟩

private theorem of_unreserving {p : Execution α} (h : Unreserving false p) : Sparing p := by
  unfold Unreserving at h
  induction p with
  | done | stop => trivial
  | ask q k ih =>
    obtain ⟨hmay, hnext⟩ := h
    refine ⟨?_, fun r _ hr => ih r (hnext r .granted ⟨rfl, hr⟩)⟩
    cases q with
    | dropTable => cases hmay
    | _ => rfl

theorem size (use : SizeUse) : Sparing (size use) := perform rfl

theorem executeQuery (sql : String) : Sparing (executeQuery sql) :=
  of_unreserving (unreserving_executeQuery sql)

theorem draws {P : α → Prop} {p : Execution α} (h : Draws (fun _ _ => True) P p) : Sparing p :=
  of_unreserving h.unreserving

theorem randomSize (min max : Nat) : Sparing (randomSize min max) :=
  of_unreserving (unreserving_randomSize min max)

theorem selectTable (attempts : Nat) : Sparing (selectTable attempts) := by
  induction attempts with
  | zero => trivial
  | succ attempts ih =>
    refine (size .bound).bind fun n => (randomSize _ _).bind fun idx => ?_
    refine (perform (q := .lookup idx) rfl).bind fun p => ?_
    cases p with
    | none => exact ih
    | some table => trivial

end Sparing

private theorem sparing_execute {a : Action} (ha : a.drops = false) (attempts : Nat) :
    Sparing (a.execute attempts) := by
  cases a with
  | dropTable => cases ha
  | createTable config =>
    refine (Sparing.size _).bind fun n => ?_
    split
    · trivial
    · refine Sparing.bind (Sparing.bind (.perform rfl) fun _ => ?_) fun _ => trivial
      exact .of_unreserving (unreserving_create config).callback
  | alterTable config commands =>
    refine (Sparing.size _).bind fun n => (Sparing.randomSize _ _).bind fun idx => ?_
    refine Sparing.bind (Sparing.bind (Sparing.bind (.perform rfl) fun _ => ?_) fun _ => trivial)
      fun _ => trivial
    exact .of_unreserving (unreserving_alter config commands).callback
  | insertData table rows =>
    have send (t : Table) : Sparing (InsertData.statement t rows >>= executeQuery) :=
      (Sparing.draws (draws_insert t rows)).bind fun sql => .executeQuery sql
    refine (Sparing.size _).bind fun n => ?_
    split
    · trivial
    · cases table with
      | some t => exact send t
      | none => exact (Sparing.selectTable attempts).bind send
  | deleteData config =>
    refine (Sparing.size _).bind fun n => ?_
    split
    · trivial
    · refine (Sparing.selectTable attempts).bind fun t => ?_
      refine (Sparing.draws (draws_deref _)).bind fun col => ?_
      exact (Sparing.randomSize _ _).bind fun rows => .executeQuery _
  | updateOneRow =>
    refine (Sparing.size _).bind fun n => ?_
    split
    · trivial
    · refine (Sparing.selectTable attempts).bind fun t => ?_
      refine (Sparing.draws (draws_deref _)).bind fun col => ?_
      exact (Sparing.draws (draws_assignments _ _)).bind fun sql => .executeQuery _
  | customSql c =>
    refine Sparing.bind ?_ fun sql => .executeQuery sql
    refine keeps_foldlM (fun text p _ _ => ?_) c.injectParameters trivial
    refine Sparing.bind ?_ fun replacement => trivial
    unfold CustomSql.doInject
    split
    · exact (Sparing.selectTable attempts).bind fun t => trivial
    · trivial

/-- A worker that drops no table in what it is doing. -/
structure DropsNothing {ι : Type} (s : State ι) (i : ι) : Prop where
  handle : NeverDrops (s.metadata.threads i)
  program : Sparing (s.workers i).program

def NoDrop {ι : Type} (_ : State ι) : Label ι → Prop
  | .begin _ a _ => a.drops = false
  | .go .. | .tick _ => True

section Runs
variable {ι : Type} [DecidableEq ι] {s s' : State ι} {l : Label ι} {i : ι}

omit [DecidableEq ι] in
private theorem run_of_operation {o : Metadata.Label ι Table} (ho : s.operation l = some o) :
    ∃ a, o = .run l.worker a := by
  cases l with
  | begin => cases ho
  | tick => exact ⟨_, (Option.some.inj ho).symm⟩
  | go j x =>
    obtain ⟨q, _, hact⟩ := Option.bind_eq_some_iff.mp ho
    obtain ⟨a, _, he⟩ := Option.map_eq_some_iff.mp hact
    exact ⟨a, he.symm⟩

omit [DecidableEq ι] in
/-- The next request is no DROP. -/
theorem DropsNothing.operation (h : DropsNothing s l.worker) {o : Metadata.Label ι Table}
    (ho : s.operation l = some o) (k : Nat) : o ≠ .run i (.dropTable k) := by
  rintro rfl
  cases l with
  | begin => cases ho
  | tick => cases ho
  | go j x =>
    obtain ⟨q, hq, hact⟩ := Option.bind_eq_some_iff.mp ho
    obtain ⟨a, ha, he⟩ := Option.map_eq_some_iff.mp hact
    cases he
    obtain ⟨f, hf⟩ := head_eq_some hq
    have hs := h.program
    simp only [Label.worker, hf] at hs
    cases q with
    | dropTable => cases hs.1
    | _ => cases ha

omit [DecidableEq ι] in
private theorem sparing_resume {q : Request} {f : q.Answer → Execution Unit} {ans : Option q.Answer}
    (h : Sparing (.ask q f)) (ha : ∀ a, ans = some a → q.Given (fun _ _ => True) a) :
    Sparing (resume q f ans) := by
  cases ans with
  | none => exact h
  | some a => exact h.2 a () (ha a rfl)

omit [DecidableEq ι] in
private theorem sparing_deliver {d : InternalData ι Table} {pc : Pc Table} {p : Execution Unit}
    (h : Sparing p) : Sparing (deliver d pc p) := by
  unfold deliver
  split
  · rename_i q f
    refine sparing_resume h fun a ha => ?_
    cases q with
    | lookup => trivial
    | _ => cases ha
  · exact h

/-- What a worker does keeps it from dropping tables, unless it begins to. -/
theorem dropsNothing_step (hs : step s l = some s') (ho : AllOwned s.metadata)
    (hg : i = l.worker → NoDrop s l) (h : DropsNothing s i) : DropsNothing s' i := by
  by_cases hi : i = l.worker
  · subst hi
    have hthread : NeverDrops (s'.metadata.threads l.worker) := by
      obtain ⟨_, hsame⟩ | ⟨o, hop, hstep⟩ := step_operation hs
      · rw [hsame]
        exact h.handle
      · obtain ⟨a, rfl⟩ := run_of_operation hop
        obtain ⟨d', t', ha, hnext⟩ := step_run.mp hstep
        simpa [hnext] using act_neverDrops ha
          (fun k hk => h.operation (i := l.worker) hop k (hk ▸ rfl)) (ho _).ok h.handle
    refine ⟨hthread, ?_⟩
    have hprogram := h.program
    cases l with
    | begin i a n =>
      obtain ⟨_, _, rfl⟩ := step_begin hs
      simpa [State.set, Label.worker] using sparing_execute (hg rfl) n
    | go i x =>
      obtain ⟨r, q, f, d', t', ans, _, hp, hserve, rfl⟩ := step_go hs
      simp only [Label.worker, hp] at hprogram
      have hgiven (a) (ha : ans = some a) : q.Given (fun _ _ => True) a := by
        subst ha
        exact serve_given hserve
      simpa [State.set, Label.worker] using sparing_resume hprogram hgiven
    | tick i =>
      obtain ⟨d', t', _, rfl⟩ := step_tick hs
      simpa [State.set, Label.worker] using sparing_deliver hprogram
  · obtain ⟨hthread, hworker⟩ := step_frame hs hi
    exact ⟨by rw [hthread]; exact h.handle, by rw [hworker]; exact h.program⟩

/-- Between two actions there is no DROP. -/
theorem AtRest.dropsNothing {guard : State ι → Label ι → Prop} {g : GapFree Table}
    (h : AtRest s i) (hr : Reach step guard (.at g.data) s) : DropsNothing s i := by
  refine ⟨.of_settled (h.settled hr) h.idle, ?_⟩
  have hfinished := h.finished
  cases hp : (s.workers i).program with
  | ask =>
    rw [hp] at hfinished
    cases hfinished
  | done | stop => trivial

/-- From a state in which no worker is dropping a table. -/
theorem keeping_of_noDrop [Fintype ι] {g : GapFree Table} {s₁ : State ι}
    {guard : State ι → Label ι → Prop}
    (hstable : ∀ s l, guard s l → ∀ o ∈ s.operation l, EmptyStable s.metadata o)
    (h₁ : Reach step guard (.at g.data) s₁) (hn : ∀ i, DropsNothing s₁ i)
    (h : Reach step (fun s l => guard s l ∧ NoDrop s l) s₁ s) :
    Keeping s₁.metadata.data s.metadata.data := by
  have h₁' : Reach Metadata.step EmptyStable g.start s₁.metadata := reach_operations hstable h₁
  have howned {s : State ι}
      (hs : Reach step (fun s l => guard s l ∧ NoDrop s l) s₁ s) : AllOwned s.metadata :=
    allOwned_of_reach (h₁.trans (hs.weaken fun _ _ _ hg => hg.1))
  have hall {s : State ι}
      (hs : Reach step (fun s l => guard s l ∧ NoDrop s l) s₁ s) : ∀ i, DropsNothing s i :=
    hs.invariant_with (I := fun s => ∀ i, DropsNothing s i) (fun _ hx => howned hx) hn
      fun _ _ _ ho _ hx hg he i => dropsNothing_step he ho (fun _ => hg.2) (hx i)
  have hr : Reach step (fun s l => ∀ o ∈ s.operation l, DropFree s.metadata o) s₁ s :=
    h.weaken fun s l hs hg o ho =>
      ⟨hstable s l hg.1 o ho, fun i k => (hall hs _).operation ho k⟩
  have hmetadata : Reach Metadata.step DropFree s₁.metadata s.metadata :=
    reach_operations (fun _ _ hx => hx) hr
  exact (keeping_of_reach h₁' (fun i => (hn i).handle) hmetadata).2

end Runs
end PStress.Actions
