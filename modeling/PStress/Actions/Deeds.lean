import PStress.Actions.Recorded
import PStress.Actions.Refusals
import PStress.Actions.Solo
import PStress.Metadata.Deadlock

/-! What a worker does in one action while the others go on, and that a refused ALTER or DROP does
nothing and returns. -/
namespace PStress.Actions
open Interaction Interleaving Metadata Program
variable {ι : Type}

def acquires (creates : Bool) : Pc Table → Bool
  | .reserve | .unreserve => creates
  | .acquire .. | .load .. | .abandon _ => !creates
  | _ => false

def rests : Pc Table → Bool
  | .idle => true
  | _ => false

private theorem rests_of_acquires {creates : Bool} {pc : Pc Table}
    (h : acquires creates pc = true) :
    rests pc = false := by
  cases pc with
  | idle => cases h
  | _ => rfl

/-- The stored tables are the same, and where they are. -/
def Spared (d d' : InternalData ι Table) : Prop :=
  d'.tables = d.tables ∧ d'.tableCount = d.tableCount ∧ d'.movedToMap = d.movedToMap

theorem Spared.refl (d : InternalData ι Table) : Spared d d := ⟨rfl, rfl, rfl⟩

def Request.sent : Request → List String → List String
  | .executeQuery sql, log => log ++ [sql]
  | _, log => log

/-- What a worker has done in its action: whether a reservation was refused, the statements sent,
by how much it has changed `reservedSize`, and whether it has spared the tables. -/
structure Deeds where
  refused : Bool
  sent : List String
  reserved : Int
  spared : Prop

namespace Deeds

def none : Deeds := ⟨false, [], 0, True⟩

/-- After a step in which a reservation was being made, or not. It is refused when it comes back
closed. -/
def after (b : Deeds) (making : Bool) (sql : List String) (d d' : InternalData ι Table)
    (t' : Thread Table) : Deeds where
  refused := b.refused || (making && rests t'.pc && !t'.res.isOpen)
  sent := b.sent ++ sql
  reserved := b.reserved + (d'.reservedSize - d.reservedSize)
  spared := b.spared ∧ Spared d d'

def record [DecidableEq ι] (i : ι) (s : State ι) (l : Label ι) (b : Deeds) : Deeds :=
  match l with
  | .begin j _ _ => if j = i then none else b
  | .go j _ => if j = i then (step s l).elim b fun s' => b.after
      ((s.workers i).program.head.any Request.reserves)
      ((s.workers i).program.head.elim [] (Request.sent · []))
      s.metadata.data s'.metadata.data (s'.metadata.threads i) else b
  | .tick j => if j = i then (step s l).elim b fun s' => b.after
      (acquires true (s.metadata.threads i).pc || acquires false (s.metadata.threads i).pc) []
      s.metadata.data s'.metadata.data (s'.metadata.threads i) else b

def Clean (creates : Bool) (b : Deeds) : Prop :=
  b.sent = [] ∧ b.spared ∧ (creates = false → b.reserved = 0)

end Deeds

/-- How far an action has come with its reservation. -/
inductive Attempt (creates : Bool) (t : Thread Table) (p : Execution Unit) (b : Deeds) : Prop where
  | before : t.pc = .idle → Follows creates .before p → b.refused = false → b.Clean creates →
    Attempt creates t p b
  | making : acquires creates t.pc = true → Follows creates .granted p →
    Follows creates .refused p → b.refused = false → b.Clean creates → Attempt creates t p b
  | granted : (∀ c, acquires c t.pc = false) → Follows creates .granted p → b.refused = false →
    Attempt creates t p b
  | refused : t = ⟨.closed, .idle⟩ → Follows creates .refused p → b.refused = true →
    b.Clean creates → Attempt creates t p b

section Steps
variable {creates : Bool} {i : ι} {b : Deeds} {d d' : InternalData ι Table} {t t' : Thread Table}
  {r : Reservation Table} {pc : Pc Table} {p : Execution Unit}

theorem Deeds.Clean.after (h : b.Clean creates) {making : Bool} (hs : Spared d d')
    (hr : creates = false → d'.reservedSize = d.reservedSize) :
    (b.after making [] d d' t').Clean creates := by
  refine ⟨by simpa [Deeds.after] using h.1, ⟨h.2.1, hs⟩, fun hc => ?_⟩
  simp [Deeds.after, h.2.2 hc, hr hc]

variable [DecidableEq ι]

private theorem tick_making (h : tick i d r pc = some (d', t')) (hpc : acquires creates pc = true) :
    Spared d d' ∧ (creates = false → d'.reservedSize = d.reservedSize) ∧
      (acquires creates t'.pc = true ∨ (t'.pc = .idle ∧ t'.res.isOpen = true) ∨
        t' = ⟨.closed, .idle⟩) := by
  cases pc with
  | reserve =>
    obtain rfl : creates = true := hpc
    simp only [tick] at h
    split at h <;> cases h
    · exact ⟨⟨rfl, rfl, rfl⟩, fun hc => absurd hc (by decide), .inl rfl⟩
    · exact ⟨⟨rfl, rfl, rfl⟩, fun hc => absurd hc (by decide),
        .inr (.inl ⟨rfl, by simp [Reservation.isOpen]⟩)⟩
  | unreserve =>
    obtain rfl : creates = true := hpc
    cases h
    exact ⟨⟨rfl, rfl, rfl⟩, fun hc => absurd hc (by decide), .inr (.inr rfl)⟩
  | acquire drop idx =>
    simp only [tick] at h
    split at h <;> cases h
    exact ⟨⟨rfl, rfl, rfl⟩, fun _ => rfl, .inl hpc⟩
  | load drop idx =>
    simp only [tick] at h
    split at h <;> cases h
    · exact ⟨⟨rfl, rfl, rfl⟩, fun _ => rfl, .inl hpc⟩
    · exact ⟨⟨rfl, rfl, rfl⟩, fun _ => rfl, .inr (.inl ⟨rfl, by simp [Reservation.isOpen]⟩)⟩
  | abandon idx =>
    cases h
    exact ⟨⟨rfl, rfl, rfl⟩, fun _ => rfl, .inr (.inr rfl)⟩
  | _ => cases hpc

private theorem tick_acquires (h : tick i d r pc = some (d', t')) (hpc : ∀ c, acquires c pc = false)
    (c : Bool) : acquires c t'.pc = false := by
  cases pc with
  | idle | undefined => cases h
  | reserve | unreserve => cases hpc true
  | acquire | load | abandon => cases hpc false
  | _ =>
    simp only [tick] at h
    (repeat' split at h) <;> cases h <;> rfl

omit [DecidableEq ι] in
private theorem deliver_making (hpc : acquires creates pc = true) : deliver d pc p = p := by
  cases pc with
  | lookupLoad => cases hpc
  | _ => rfl

omit [DecidableEq ι] in
private theorem follows_deliver (h : Follows creates .granted p) :
    Follows creates .granted (deliver d pc p) := by
  cases pc with
  | lookupLoad =>
    cases p with
    | done | stop => exact h
    | ask q k =>
      cases q with
      | lookup idx => exact h.2 _ _ ⟨rfl, trivial⟩
      | _ => exact h
  | _ => exact h

private theorem attempt_tick (h : Attempt creates ⟨r, pc⟩ p b)
    (ht : tick i d r pc = some (d', t')) :
    Attempt creates t' (deliver d pc p)
      (b.after (acquires true pc || acquires false pc) [] d d' t') := by
  cases h with
  | before hpc =>
    cases hpc
    cases ht
  | refused hpc =>
    cases hpc
    cases ht
  | making hpc hgranted hrefused hb hclean =>
    have hmaking : (acquires true pc || acquires false pc) = true := by
      cases creates <;> simp [hpc]
    obtain ⟨hspared, hreserved, hnext⟩ := tick_making ht hpc
    rw [deliver_making hpc, hmaking]
    have hclean' := (hclean.after hspared hreserved : (b.after true [] d d' t').Clean creates)
    obtain hpc' | ⟨hidle, hopen⟩ | rfl := hnext
    · exact .making hpc' hgranted hrefused (by simp [Deeds.after, hb, rests_of_acquires hpc'])
        hclean'
    · refine .granted (fun c => by rw [hidle]; rfl) hgranted ?_
      simp [Deeds.after, hb, hopen]
    · exact .refused rfl hrefused
        (by simp [Deeds.after, rests, Reservation.settled_closed.not_open]) hclean'
  | granted hpc hgranted hb =>
    exact .granted (tick_acquires ht hpc) (follows_deliver hgranted)
      (by simp [Deeds.after, hb, hpc])

omit [DecidableEq ι] in
private theorem serve_acquires {x : Input} {q : Request} {ans : Option q.Answer}
    (h : serve x d r q = some (d', t', ans)) (hq : q.reserves = false) (c : Bool) :
    acquires c t'.pc = false := by
  cases q with
  | createTable | alterTable | dropTable => cases hq
  | lookup | write =>
    obtain ⟨y, hy, he⟩ := Option.map_eq_some_iff.mp h
    cases he
    simp only [call] at hy
    split at hy <;> cases hy
    all_goals rfl
  | complete =>
    obtain ⟨y, hy, he⟩ := Option.map_eq_some_iff.mp h
    cases he
    simp only [call] at hy
    split at hy <;> cases hy
    obtain hb | hb | hb := r.branch_cases <;> rw [hb] <;> rfl
  | size | isOpen | table | index =>
    cases h
    rfl
  | random | real | executeQuery =>
    simp only [serve] at h
    (repeat' split at h) <;> cases h
    rfl

omit [DecidableEq ι] in
private theorem attempt_before {x : Input} {q : Request} {k : q.Answer → Execution Unit}
    {ans : Option q.Answer} (h : Follows creates .before (.ask q k)) (hb : b.refused = false)
    (hclean : b.Clean creates) (hs : serve x d r q = some (d', t', ans)) :
    Attempt creates t' (resume q k ans) (b.after q.reserves (q.sent []) d d' t') := by
  obtain ⟨hmay, hk⟩ := h
  have hrest (a : q.Answer) (hq : q.reserves = false) (hsent : q.sent [] = []) :
      Attempt creates ⟨r, .idle⟩ (k a) (b.after q.reserves (q.sent []) d d ⟨r, .idle⟩) := by
    have hnext : (refusal creates).next .before q a .before := by simp [refusal, hq]
    rw [hsent]
    exact .before rfl (hk a _ hnext) (by simp [Deeds.after, hb, hq])
      (hclean.after (.refl d) fun _ => rfl)
  have hreserve (a : q.Answer) (hq : q.reserves = true) :
      Follows creates .granted (k a) ∧ Follows creates .refused (k a) := by
    constructor
    · exact hk a _ (by simp [refusal, hq])
    · exact hk a _ (by simp [refusal, hq])
  cases q with
  | size use =>
    cases hs
    exact hrest _ rfl rfl
  | random | real =>
    simp only [serve] at hs
    (repeat' split at hs) <;> cases hs
    exact hrest _ rfl rfl
  | createTable =>
    obtain rfl : creates = true := hmay
    obtain ⟨hgranted, hrefused⟩ := hreserve () rfl
    obtain ⟨y, hy, he⟩ := Option.map_eq_some_iff.mp hs
    cases he
    simp only [call] at hy
    (repeat' split at hy) <;> cases hy
    · exact .making rfl hgranted hrefused (by simp [Deeds.after, hb, rests])
        (hclean.after (.refl d) fun _ => rfl)
    · exact .refused rfl hrefused
        (by simp [Deeds.after, rests, Request.reserves, Reservation.settled_closed.not_open])
        (hclean.after (.refl d) fun _ => rfl)
  | alterTable idx | dropTable idx =>
    obtain rfl : creates = false := hmay
    obtain ⟨hgranted, hrefused⟩ := hreserve () rfl
    obtain ⟨y, hy, he⟩ := Option.map_eq_some_iff.mp hs
    cases he
    simp only [call] at hy
    split at hy <;> cases hy
    exact .making rfl hgranted hrefused (by simp [Deeds.after, hb, rests])
      (hclean.after (.refl d) fun _ => rfl)
  | _ => cases hmay

omit [DecidableEq ι] in
private theorem serve_refused {x : Input} {q : Request} {k : q.Answer → Execution Unit}
    {ans : Option q.Answer} (h : Follows creates .refused (.ask q k))
    (hs : serve x d .closed q = some (d', t', ans)) :
    d' = d ∧ t' = ⟨.closed, .idle⟩ ∧ q.sent [] = [] ∧
      Follows creates .refused (resume q k ans) := by
  obtain ⟨hmay, hk⟩ := h
  cases q with
  | isOpen | table | index =>
    cases hs
    exact ⟨rfl, rfl, rfl, hk _ .refused ⟨rfl, rfl⟩⟩
  | _ => cases hmay

omit [DecidableEq ι] in
private theorem attempt_go {x : Input} {q : Request} {k : q.Answer → Execution Unit}
    {ans : Option q.Answer} (h : Attempt creates ⟨r, .idle⟩ (.ask q k) b)
    (hs : serve x d r q = some (d', t', ans)) :
    Attempt creates t' (resume q k ans) (b.after q.reserves (q.sent []) d d' t') := by
  cases h with
  | before _ hbefore hb hclean => exact attempt_before hbefore hb hclean hs
  | making hpc => cases hpc
  | refused hr hrefused hb hclean =>
    cases hr
    obtain ⟨rfl, rfl, hsent, hnext⟩ := serve_refused hrefused hs
    rw [hsent]
    exact .refused rfl hnext (by simp [Deeds.after, hb]) (hclean.after (.refl _) fun _ => rfl)
  | granted _ hgranted hb =>
    have hq : q.reserves = false := hgranted.1
    refine .granted (serve_acquires hs hq) ?_ (by simp [Deeds.after, hb, hq])
    cases ans with
    | none => exact hgranted
    | some a => exact hgranted.2 a .granted ⟨rfl, serve_given hs⟩

end Steps

section Runs
variable [DecidableEq ι] {i : ι} {s s' : State ι} {b : Deeds} {a : Action} {config : DdlConfig}

/-- The attempt at a reservation of the action worker `i` is in, if it is a DDL action. -/
def Attempting (i : ι) (x : State ι × Deeds) : Prop :=
  ∀ a config, (x.1.workers i).action = some a → a.ddl = some config →
    Attempt a.creates (x.1.metadata.threads i) (x.1.workers i).program x.2

private theorem attempting_step {l : Label ι} (h : Attempting i (s, b)) (hs : step s l = some s') :
    Attempting i (s', Deeds.record i s l b) := by
  intro a config ha hd
  cases l with
  | begin j a' n =>
    obtain ⟨hidle, _, rfl⟩ := step_begin hs
    by_cases hj : j = i
    · subst hj
      obtain rfl : a' = a := by simpa [State.set] using ha
      simp only [State.set, Function.update_self, Deeds.record, if_true]
      exact .before hidle (follows_execute hd n) rfl ⟨rfl, trivial, fun _ => rfl⟩
    · simp only [State.set, Function.update_of_ne (Ne.symm hj), Deeds.record, if_neg hj] at ha ⊢
      exact h a config ha hd
  | go j x =>
    obtain ⟨r, q, k, d', t', ans, hr, hp, hserve, he⟩ := step_go hs
    by_cases hj : j = i
    · subst hj
      have hattempt := h a config (by simpa [he, State.set] using ha) hd
      rw [hr, hp] at hattempt
      have hnext := attempt_go hattempt hserve
      have hrecord : Deeds.record j s (.go j x) b = b.after q.reserves (q.sent [])
          s.metadata.data d' t' := by
        simp [Deeds.record, hs, hp, head, he, State.set]
      rw [hrecord, he]
      simpa [State.set] using hnext
    · subst he
      simp only [State.set, Function.update_of_ne (Ne.symm hj), Deeds.record, if_neg hj] at ha ⊢
      exact h a config ha hd
  | tick j =>
    obtain ⟨d', t', htick, he⟩ := step_tick hs
    by_cases hj : j = i
    · subst hj
      have hattempt := h a config (by simpa [he, State.set] using ha) hd
      have hnext := attempt_tick hattempt htick
      have hrecord : Deeds.record j s (.tick j) b = b.after (acquires true
          (s.metadata.threads j).pc || acquires false (s.metadata.threads j).pc) []
            s.metadata.data d' t' := by
        simp [Deeds.record, hs, he, State.set]
      rw [hrecord, he]
      simpa [State.set] using hnext
    · subst he
      simp only [State.set, Function.update_of_ne (Ne.symm hj), Deeds.record, if_neg hj] at ha ⊢
      exact h a config ha hd

private theorem attempting_of_reach {guard : State ι × Deeds → Label ι → Prop}
    {d : InternalData ι Table}
    (h : Reach (Interleaving.recorded step (Deeds.record i)) guard (.at d, .none) (s, b)) :
    Attempting i (s, b) := by
  refine h.invariant (I := Attempting i) (fun a config ha => by cases ha) ?_
  rintro ⟨s, b⟩ l ⟨s', b'⟩ hattempting _ he
  obtain ⟨hs, rfl⟩ := recorded_eq_some.mp he
  exact attempting_step hattempting hs

/-- Worker `i` has done nothing, owns no mutex, and returns if it is let. -/
def Harmless (i : ι) (s : State ι) (b : Deeds) : Prop :=
  b.sent = [] ∧ b.reserved = 0 ∧ b.spared ∧ (∀ k, ¬ s.metadata.Owns i k) ∧
    ∃ s', Reach step (OnlyBy i) s s' ∧ s'.Has i s.metadata.data ⟨.closed, .idle⟩ (.done ())

/-- After a refusal an ALTER or a DROP returns. -/
private theorem returns_refused {d : InternalData ι Table} {p : Execution Unit}
    (hs : s.Has i d ⟨.closed, .idle⟩ p) (h : Follows false .refused p) :
    ∃ s', Reach step (OnlyBy i) s s' ∧ s'.Has i d ⟨.closed, .idle⟩ (.done ()) := by
  induction p generalizing s with
  | done u => exact ⟨s, .start, hs⟩
  | stop e => cases (h rfl).2
  | ask q k ih =>
    obtain ⟨hmay, hk⟩ := h
    obtain ⟨a, hserve, hclosed⟩ : ∃ a,
        serve .none d .closed q = some (d, ⟨.closed, .idle⟩, some a) ∧ q.Closed a := by
      cases q with
      | isOpen | table | index => exact ⟨_, rfl, rfl⟩
      | _ => cases hmay
    obtain ⟨s₁, hreach₁, hs₁⟩ := reach_go hs hserve
    obtain ⟨s', hreach, hs'⟩ := ih a hs₁ (hk a .refused ⟨rfl, hclosed⟩)
    exact ⟨s', hreach₁.trans hreach, hs'⟩

/-- After a refusal a CREATE does not return. -/
private theorem never_returns (h : Reach step (OnlyBy i) s s')
    (hs : s.metadata.threads i = ⟨.closed, .idle⟩ ∧ Follows true .refused (s.workers i).program) :
    (s'.workers i).program ≠ .done () := by
  have hkept : s'.metadata.threads i = ⟨.closed, .idle⟩ ∧
      Follows true .refused (s'.workers i).program := by
    refine h.invariant (I := fun s => s.metadata.threads i = ⟨.closed, .idle⟩ ∧
      Follows true .refused (s.workers i).program) hs ?_
    rintro s l s' ⟨ht, hf⟩ hby he
    cases l with
    | begin j a n =>
      obtain rfl : j = i := hby
      obtain ⟨_, hfinished, _⟩ := step_begin he
      cases hp : (s.workers j).program with
      | done u =>
        rw [hp] at hf
        cases hf rfl
      | stop e =>
        rw [hp] at hf hfinished
        obtain ⟨rfl, _⟩ := hf rfl
        cases hfinished
      | ask q k =>
        rw [hp] at hfinished
        cases hfinished
    | go j x =>
      obtain rfl : j = i := hby
      obtain ⟨r, q, k, d', t', ans, hr, hp, hserve, rfl⟩ := step_go he
      cases ht.symm.trans hr
      rw [hp] at hf
      obtain ⟨_, rfl, _, hnext⟩ := serve_refused hf hserve
      exact ⟨by simp [State.set], by simpa [State.set] using hnext⟩
    | tick j =>
      obtain rfl : j = i := hby
      obtain ⟨d', t', htick, _⟩ := step_tick he
      rw [ht] at htick
      cases htick
  intro hdone
  rw [hdone] at hkept
  cases hkept.2 rfl

/-- A refused reservation is harmless in `AlterTable` and `DropTable`, never in `CreateTable`. -/
theorem refusal_harmless_iff {g : GapFree Table}
    (h : Reach (Interleaving.recorded step (Deeds.record i)) always (.at g.data, .none) (s, b))
    (ha : (s.workers i).action = some a) (hd : a.ddl = some config) (hr : b.refused = true) :
    Harmless i s b ↔ a.creates = false := by
  cases attempting_of_reach h a config ha hd with
  | before _ _ hb => cases hr.symm.trans hb
  | making _ _ _ hb => cases hr.symm.trans hb
  | granted _ _ hb => cases hr.symm.trans hb
  | refused ht hf _ hclean =>
    constructor
    · rintro ⟨_, _, _, _, s', hreach, _, _, hdone⟩
      refine Bool.eq_false_iff.mpr fun hc => ?_
      rw [hc] at hf
      exact never_returns hreach ⟨ht, hf⟩ hdone
    · intro hc
      rw [hc] at hf hclean
      have hown := allOwned_of_reach h.unrecorded i
      rw [ht] at hown
      refine ⟨hclean.1, hclean.2.2 rfl, hclean.2.1, fun k hk => ?_,
        returns_refused ⟨rfl, ht, rfl⟩ hf⟩
      obtain hk | hk := hk
      · simpa [Thread.held, Pc.held, Reservation.closed] using (hown.writer k).mp hk
      · simpa [Pc.shared] using (hown.reader k).mp hk

/-- An ALTER of an empty container, whose draw is not bounded by the size. -/
def alterNothing : List (Label (Fin 1)) :=
  [.begin 0 (.alterTable {} .allSet) 0, .go 0 .none, .go 0 (.drawn 0), .go 0 .none, .tick 0,
    .tick 0, .tick 0]

theorem refusal_harmless_alter : ∃ (s : State (Fin 1)) (b : Deeds),
    execute (Interleaving.recorded step (Deeds.record 0)) always alterNothing
      (.at GapFree.empty.data, .none) = some (s, b) ∧ b.refused = true ∧ Harmless 0 s b := by
  obtain ⟨⟨s, b⟩, he, hs⟩ := Option.map_eq_some_iff.mp
    (show (execute (Interleaving.recorded step (Deeds.record 0)) always alterNothing
      (.at GapFree.empty.data, .none)).map (fun x => ((x.1.workers 0).action, x.2.refused)) =
        some (some (.alterTable {} .allSet), true) from rfl)
  obtain ⟨ha, hr⟩ := Prod.mk.inj hs
  exact ⟨s, b, he, hr, (refusal_harmless_iff (reach_of_execute _ he) ha rfl hr).mpr rfl⟩

/-- A container with no room left. -/
def full : GapFree Table where
  tables := (List.range maximumTableCount).map fun k => ⟨k, default⟩
  movedToMap _ := npos
  nextTable := maximumTableCount
  fits := by simp
  distinct := by simp [Function.comp_def, List.nodup_range]
  older := by simp

/-- A CREATE that may still create tables, as far as its configuration goes. -/
def createRefused : List (Label (Fin 1)) :=
  [.begin 0 (.createTable { max_table_count := 201 }) 0, .go 0 .none, .go 0 .none, .go 0 .none]

/-- It takes the table of the refused reservation. -/
theorem refusal_undefined : ¬ ∀ (s : State (Fin 1)) (b : Deeds),
    Reach (Interleaving.recorded step (Deeds.record 0)) always (.at full.data, .none) (s, b) →
      b.refused = true → (s.workers 0).program ≠ .stop .undefined := by
  intro h
  obtain ⟨⟨s, b⟩, he, hs⟩ := Option.map_eq_some_iff.mp
    (show (execute (Interleaving.recorded step (Deeds.record 0)) always createRefused
      (.at full.data, .none)).map
        (fun x => ((x.1.workers 0).program matches .stop .undefined, x.2.refused)) =
          some (true, true) by decide +kernel)
  obtain ⟨hp, hr⟩ := Prod.mk.inj hs
  refine h s b (reach_of_execute _ he) hr ?_
  revert hp
  cases (s.workers 0).program with
  | stop e => cases e <;> simp
  | done | ask => simp

end Runs
end PStress.Actions
