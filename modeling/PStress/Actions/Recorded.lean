import PStress.Actions.Alone

/-! An action that runs alone, with the statements it sends: what it may rely on at each request. -/
namespace PStress.Actions
open Interaction Metadata Program
variable {ι : Type} [DecidableEq ι] {i : ι} {steps : Nat} {α β N : Type}
  {entry : String → SqlResult → N}

def Request.reported (entry : String → SqlResult → N) :
    (q : Request) → q.Answer → List N → List N
  | .executeQuery sql, r, log => log ++ [entry sql r]
  | _, _, log => log

/-- How an action that runs alone is answered, with an entry for each statement it sends. -/
def reported (entry : String → SqlResult → N) (i : ι) (steps : Nat) (q : Request) :
    World ι × List N → Option (q.Answer × World ι × List N) :=
  noting (Request.reported entry) (alone i steps) q

abbrev recorded (i : ι) (steps : Nat) (q : Request) :
    World ι × List String → Option (q.Answer × World ι × List String) :=
  reported (fun sql _ => sql) i steps q

/-- What holds with the statements holds without them. -/
theorem keeps_of_recorded {post : α → World ι → Prop} {fail : Halt → World ι → Prop}
    {p : Execution α} {w : World ι}
    (h : Keeps (handled (recorded i steps)) (fun a x => post a x.1) (fun e x => fail e x.1) (w, [])
      p) : Keeps (handled (alone i steps)) post fail w p := keeps_of_noting h

def Request.isStatement : Request → Bool
  | .executeQuery _ => true
  | _ => false

private theorem Request.reported_eq {q : Request} (hq : q.isStatement = false) (r : q.Answer)
    (log : List N) : q.reported entry r log = log := by
  cases q with
  | executeQuery sql => cases hq
  | _ => rfl

section Rules
variable {post : α → World ι × List N → Prop} {fail : Halt → World ι × List N → Prop}
  {w : World ι} {log : List N}

theorem reported_perform {q : Request} {f : q.Answer → Execution α} (hq : q.isStatement = false)
    (hf : ∀ r w', alone i steps q w = some (r, w') →
      Keeps (handled (reported entry i steps)) post fail (w', log) (f r)) :
    Keeps (handled (reported entry i steps)) post fail (w, log) (perform q >>= f) := by
  refine ⟨trivial, fun r x h => ?_⟩
  obtain ⟨w', log'⟩ := x
  obtain ⟨ha, hlog⟩ := noting_eq_some.mp h
  obtain rfl : log' = log := hlog.trans (q.reported_eq hq r log)
  exact hf r w' ha

theorem reported_deref {o : Option α} {f : α → Execution β}
    {post : β → World ι × List N → Prop} (hu : fail .undefined (w, log))
    (hf : ∀ a, o = some a → Keeps (handled (reported entry i steps)) post fail (w, log) (f a)) :
    Keeps (handled (reported entry i steps)) post fail (w, log) (deref o >>= f) := by
  cases o with
  | none => exact hu
  | some a => exact hf a rfl

/-- Draws send nothing. -/
theorem Draws.reported {P : α → Prop} {p : Execution α} (h : Draws (fun _ _ => True) P p) :
    Keeps (handled (reported entry i steps))
      (fun a x => x = ({ w with inputs := x.1.inputs }, log) ∧
        p.run drawFrom w.inputs = some (.ok a, x.1.inputs))
      (fun e x => e = .undefined ∧ x.2 = log) (w, log) p := by
  induction p generalizing w with
  | done a => exact ⟨rfl, rfl⟩
  | stop e => exact ⟨h, rfl⟩
  | ask q k ih =>
    have hr := h.1.random
    have hq : q.isStatement = false := by
      cases q with
      | random | real => rfl
      | _ => cases hr
    refine ⟨trivial, fun r x hn => ?_⟩
    obtain ⟨w₁, log₁⟩ := x
    obtain ⟨ha, hlog⟩ := noting_eq_some.mp hn
    obtain rfl : log₁ = log := hlog.trans (q.reported_eq hq r log)
    obtain ⟨hw, hd⟩ := alone_draw hr ha
    refine (ih r (h.2 r () (drawFrom_given hd))).mono (fun a y hy => ⟨?_, ?_⟩) fun _ _ => id
    · rw [hy.1, hw]
    · rw [run, hd]
      exact hy.2

theorem reported_draws {P : α → Prop} {p : Execution α} {f : α → Execution β}
    {post : β → World ι × List N → Prop} (hp : Draws (fun _ _ => True) P p)
    (hu : ∀ w', fail .undefined (w', log))
    (hf : ∀ a rest, p.run drawFrom w.inputs = some (.ok a, rest) →
      Keeps (handled (reported entry i steps)) post fail ({ w with inputs := rest }, log) (f a)) :
    Keeps (handled (reported entry i steps)) post fail (w, log) (p >>= f) := by
  refine keeps_bind.mpr (hp.reported.mono ?_ ?_)
  · rintro a x ⟨hx, hrun⟩
    rw [hx]
    exact hf a _ hrun
  · rintro e ⟨w', log'⟩ ⟨rfl, rfl⟩
    exact hu w'

theorem reported_random {type : NumType} {min max : Int} {f : Int → Execution α}
    (hf : ∀ v rest, drawFrom (.random type min max) w.inputs = some (v, rest) →
      Keeps (handled (reported entry i steps)) post fail ({ w with inputs := rest }, log) (f v)) :
    Keeps (handled (reported entry i steps)) post fail (w, log)
      (perform (.random type min max) >>= f) := by
  refine reported_perform (q := .random type min max) rfl fun v w' h => ?_
  obtain ⟨hw, hd⟩ := alone_draw (q := .random type min max) trivial h
  have hk := hf v w'.inputs hd
  rw [← hw] at hk
  exact hk

theorem reported_randomSize {min max : Nat} {f : Nat → Execution α}
    (hf : ∀ v rest, drawFrom (.random .size min max) w.inputs = some (v, rest) →
      Keeps (handled (reported entry i steps)) post fail ({ w with inputs := rest }, log)
        (f (toSize v))) :
    Keeps (handled (reported entry i steps)) post fail (w, log) (randomSize min max >>= f) :=
  reported_random (f := fun v => f (toSize v)) hf

theorem reported_completes {post : Unit → World ι × List N → Prop}
    (ho : w.res.isOpen = true)
    (hf : ∀ w', alone i steps .complete w = some ((), w') → post () (w', log)) :
    Keeps (handled (reported entry i steps)) post fail (w, log) complete := by
  refine reported_perform rfl fun b w₁ h => ?_
  obtain ⟨rfl, hw⟩ := alone_isOpen h
  rw [hw, ho]
  exact reported_perform (q := .complete) (f := fun _ => .done ()) rfl fun u w' h => hf w' h

/-- What holds once the destructor of the handle has run. -/
def Destroyed (i : ι) (steps : Nat) (P : World ι × List N → Prop)
    (x : World ι × List N) : Prop :=
  (x.1.res.isOpen = false → P x) ∧ (x.1.res.isOpen = true →
    ∀ w', alone i steps .complete x.1 = some ((), w') → P (w', x.2))

private theorem destroyed_of_open {P : World ι × List N → Prop} {x : World ι × List N}
    (ho : x.1.res.isOpen = true)
    (h : ∀ w', alone i steps .complete x.1 = some ((), w') → P (w', x.2)) :
    Destroyed i steps P x := by
  refine ⟨fun hc => ?_, fun _ => h⟩
  rw [ho] at hc
  cases hc

theorem destroyed_of_closed {P : World ι × List N → Prop} {x : World ι × List N}
    (hc : x.1.res.isOpen = false) (h : P x) : Destroyed i steps P x := by
  refine ⟨fun _ => h, fun ho => ?_⟩
  rw [hc] at ho
  cases ho

private theorem reported_destroy {P : World ι × List N → Prop} (h : Destroyed i steps P (w, log)) :
    Keeps (handled (reported entry i steps)) (fun _ => P) fail (w, log) destroy := by
  refine reported_perform rfl fun b w₁ hb => ?_
  obtain ⟨rfl, hw⟩ := alone_isOpen hb
  rw [hw]
  cases ho : w.res.isOpen
  · exact h.1 ho
  · exact reported_completes ho (h.2 ho)

/-- An exception runs the destructor of the handle it leaves. -/
def Unwound (i : ι) (steps : Nat) (fail : Halt → World ι × List N → Prop) :
    Halt → World ι × List N → Prop
  | .thrown => Destroyed i steps (fail .thrown)
  | .undefined => fail .undefined
  | .unfinished => fail .unfinished

theorem unwound_of_open {x : World ι × List N} (ho : x.1.res.isOpen = true)
    (h : ∀ w', alone i steps .complete x.1 = some ((), w') → fail .thrown (w', x.2)) :
    Unwound i steps fail .thrown x := destroyed_of_open ho h

/-- The callback of a reservation is followed by the destructor, however it ends. -/
theorem reported_callback {func : Execution Unit} {P : World ι × List N → Prop}
    (hf : Keeps (handled (reported entry i steps)) (fun _ => Destroyed i steps P)
      (Unwound i steps fail) (w, log) func) :
    Keeps (handled (reported entry i steps)) (fun _ => P) fail (w, log)
      (ensuring Halt.unwinds destroy (func >>= fun _ => perform .index)) := by
  refine keeps_ensuring.mpr (keeps_bind.mpr (hf.mono (fun _ x hx => ?_) fun e x hx => ?_))
  · refine reported_perform (f := Program.done) rfl fun n w' h => ?_
    obtain ⟨rfl, rfl⟩ := alone_index h
    exact reported_destroy hx
  · cases e with
    | thrown => exact reported_destroy hx
    | undefined | unfinished => exact hx

/-- A statement that fails throws. -/
theorem reported_executeQuery {sql : String} {f : Unit → Execution α}
    (hf : ∀ r rest, r ≠ .returned .success →
      fail .thrown ({ w with inputs := rest }, log ++ [entry sql r]))
    (hs : ∀ rest, Keeps (handled (reported entry i steps)) post fail
      ({ w with inputs := rest }, log ++ [entry sql (.returned .success)]) (f ())) :
    Keeps (handled (reported entry i steps)) post fail (w, log) (executeQuery sql >>= f) := by
  refine ⟨trivial, fun r x h => ?_⟩
  obtain ⟨w', log'⟩ := x
  obtain ⟨ha, rfl⟩ := noting_eq_some.mp h
  obtain ⟨rest, rfl⟩ := alone_executeQuery ha
  rcases r with (_ | _ | _) | _
  · exact hs rest
  · exact hf _ rest (by decide)
  · exact hf _ rest (by decide)
  · exact hf _ rest (by decide)

theorem recorded_statement {post : α → World ι × List String → Prop}
    {fail : Halt → World ι × List String → Prop} {log : List String} {sql : String}
    {f : Unit → Execution α}
    (hf : ∀ rest, fail .thrown ({ w with inputs := rest }, log ++ [sql]) ∧
      Keeps (handled (recorded i steps)) post fail ({ w with inputs := rest }, log ++ [sql])
        (f ())) :
    Keeps (handled (recorded i steps)) post fail (w, log) (executeQuery sql >>= f) :=
  reported_executeQuery (fun _ rest _ => (hf rest).1) fun rest => (hf rest).2

/-- An action that sends nothing or does what `P` says, and has sent something. -/
theorem sent_of_run {P : World ι × List String → Prop} {p : Execution Unit} {w w' : World ι}
    {o : Except Halt Unit} {sql : String}
    (h : Keeps (handled (recorded i steps)) (fun _ x => x.2 = [] ∨ P x)
      (fun e x => e ≠ .thrown ∧ x.2 = [] ∨ P x) (w, []) p)
    (hrun : p.run (recorded i steps) (w, []) = some (o, w', [sql])) : P (w', [sql]) := by
  have hended := keeps_run h hrun
  cases o with
  | ok => exact hended.resolve_left (List.cons_ne_nil sql [])
  | error e => exact hended.resolve_left fun hnone => List.cons_ne_nil sql [] hnone.2

end Rules
end PStress.Actions
