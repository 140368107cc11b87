import PStress.Process.Postgres

/-! The server wrapper never has two servers, and none once it was stopped. The process that is
alive, if any, is the one the wrapper refers to, whenever no call is in progress. -/
namespace PStress.Process
open Interaction Interleaving Program

def World.Fewer (w v : World) : Prop :=
  v.postmaster = w.postmaster ∧ v.launched = w.launched ∧
    ∀ p, v.alive p = none ∨ v.alive p = w.alive p

/-- The field has a given value, and no processes are alive but a given server and a given
helper. -/
structure World.At (ptr server helper : Option Nat) (w : World) : Prop where
  pointer : w.postmaster = ptr
  server : ∀ p, w.alive p = some .postmaster → server = some p
  helper : ∀ p, w.alive p = some .helper → helper = some p
  numbered : ∀ p, (w.alive p).isSome → p < w.launched

/-- Between two calls the object refers to the server, if there is one. -/
def World.Rest (w : World) : Prop := w.At w.postmaster w.postmaster none

def session : Session Request Request.Answer World where
  may w _ := ∃ ptr server helper, w.At ptr server helper
  next w q r w' := ∃ x v, w.Fewer v ∧ serve x v q = some (w', r)

section Worlds
variable {w v : World} {ptr server helper : Option Nat} {p : Nat}

private theorem World.At.fewer (h : w.At ptr server helper) (hv : w.Fewer v) :
    v.At ptr server helper where
  pointer := hv.1.trans h.pointer
  server q hq := by
    obtain hn | hs := hv.2.2 q
    · cases hn.symm.trans hq
    · exact h.server q (hs.symm.trans hq)
  helper q hq := by
    obtain hn | hs := hv.2.2 q
    · cases hn.symm.trans hq
    · exact h.helper q (hs.symm.trans hq)
  numbered q hq := by
    obtain hn | hs := hv.2.2 q
    · simp [hn] at hq
    · exact hv.2.1 ▸ h.numbered q (hs ▸ hq)

private theorem World.Fewer.alive_none (hv : w.Fewer v) (hp : w.alive p = none) :
    v.alive p = none := by
  obtain hn | hs := hv.2.2 p
  · exact hn
  · exact hs.trans hp

theorem World.Fewer.refl (w : World) : w.Fewer w := ⟨rfl, rfl, fun _ => .inr rfl⟩

theorem World.Fewer.trans {u : World} (h : w.Fewer v) (h' : v.Fewer u) : w.Fewer u := by
  refine ⟨h'.1.trans h.1, h'.2.1.trans h.2.1, fun p => ?_⟩
  obtain hn | hs := h'.2.2 p
  · exact .inl hn
  · exact hs ▸ h.2.2 p

private theorem World.fewer_exit (w : World) (p : Nat) : w.Fewer (w.exit p) := by
  refine ⟨rfl, rfl, fun q => ?_⟩
  by_cases hq : q = p
  · exact .inl (by simp [exit, hq])
  · exact .inr (by simp [exit, hq])

theorem World.At.serverGone (h : w.At ptr (some p) helper) (hp : w.alive p = none) :
    w.At ptr none helper where
  pointer := h.pointer
  server q hq := by
    cases h.server q hq
    cases hp.symm.trans hq
  helper := h.helper
  numbered := h.numbered

private theorem World.At.helperGone (h : w.At ptr server (some p)) (hp : w.alive p = none) :
    w.At ptr server none where
  pointer := h.pointer
  server := h.server
  helper q hq := by
    cases h.helper q hq
    cases hp.symm.trans hq
  numbered := h.numbered

/-- A process that is launched is a new one. -/
theorem World.At.launch (h : w.At ptr server helper) (role : Role)
    (hrole : (if role = .postmaster then server else helper) = none) :
    (w.launch role).At ptr (if role = .postmaster then some w.launched else server)
      (if role = .helper then some w.launched else helper) where
  pointer := h.pointer
  server q hq := by
    by_cases hl : q = w.launched
    · cases role <;> simp [World.launch, hl] at hq ⊢
    · have hq : w.alive q = some .postmaster := by simpa [World.launch, hl] using hq
      have hs := h.server q hq
      cases role with
      | postmaster => cases hrole.symm.trans hs
      | helper => exact hs
  helper q hq := by
    by_cases hl : q = w.launched
    · cases role <;> simp [World.launch, hl] at hq ⊢
    · have hq : w.alive q = some .helper := by simpa [World.launch, hl] using hq
      have hs := h.helper q hq
      cases role with
      | postmaster => exact hs
      | helper => cases hrole.symm.trans hs
  numbered q hq := by
    by_cases hl : q = w.launched
    · simp [World.launch, hl]
    · have hlt := h.numbered q (by simpa [World.launch, hl] using hq)
      exact Nat.lt_succ_of_lt hlt

private theorem World.At.none_alive (h : w.At ptr none none) (p : Nat) : w.alive p = none := by
  cases hp : w.alive p with
  | none => rfl
  | some role =>
    cases role with
    | postmaster => cases h.server p hp
    | helper => cases h.helper p hp

end Worlds

section Requests
variable {α : Type} {w : World} {ptr server helper : Option Nat} {p : Nat}
  {fail : Failure → World → Prop}

theorem World.At.may (h : w.At ptr server helper) (q : Request) : session.may w q :=
  ⟨ptr, server, helper, h⟩

/-- A request that changes nothing but what the answer tells. -/
theorem World.At.request (h : w.At ptr server helper) {q : Request}
    {post : q.Answer → World → Prop}
    (hpost : ∀ x v w' r, v.At ptr server helper → serve x v q = some (w', r) → post r w') :
    Keeps session post fail w (perform q) := by
  refine keeps_request.mpr ⟨h.may q, ?_⟩
  rintro r w' ⟨x, v, hv, hs⟩
  exact hpost x v w' r (h.fewer hv) hs

theorem World.At.running (h : w.At ptr server helper) : Keeps session
    (fun r w' => w'.At ptr server helper ∧ (r = false → w'.alive p = none)) fail w
      (perform (.running p)) := by
  refine h.request fun x v w' r hv hs => ?_
  cases hs
  exact ⟨hv, by simp⟩

theorem World.At.kill (h : w.At ptr server helper) (signal : Signal) : Keeps session
    (fun _ w' => w'.At ptr server helper) fail w (perform (.kill p signal)) := by
  refine h.request fun x v w' r hv hs => ?_
  cases hs
  exact hv

theorem World.At.sleep (h : w.At ptr server helper) : Keeps session
    (fun _ w' => w'.At ptr server helper) fail w (perform .sleep) := by
  refine h.request fun x v w' r hv hs => ?_
  cases hs
  exact hv

theorem World.At.assign (h : w.At ptr server helper) (p : Option Nat) : Keeps session
    (fun _ w' => w'.At p server helper) fail w (perform (.assign p)) := by
  refine h.request fun x v w' r hv hs => ?_
  cases hs
  exact ⟨rfl, hv.server, hv.helper, hv.numbered⟩

theorem World.At.postmaster (h : w.At ptr server helper) : Keeps session
    (fun r w' => r = ptr ∧ w'.At ptr server helper) fail w (perform .postmaster) := by
  refine h.request fun x v w' r hv hs => ?_
  cases hs
  exact ⟨hv.pointer, hv⟩

theorem World.At.deref (h : w.At (some p) server helper) : Keeps session
    (fun r w' => r = p ∧ w'.At (some p) server helper) fail w deref := by
  refine keeps_bind.mpr (h.postmaster.mono (fun r v hv => ?_) fun _ _ => id)
  obtain ⟨rfl, hv⟩ := hv
  exact ⟨rfl, hv⟩

/-- A launch ends with the new process, or throws. -/
theorem World.At.run (h : w.At ptr server helper) (role : Role)
    (hrole : (if role = .postmaster then server else helper) = none) {cmd : String}
    {args : List String} (hfail : ∀ w', w'.At ptr server helper → fail .thrown w') :
    Keeps session (fun p w' => w'.At ptr (if role = .postmaster then some p else server)
      (if role = .helper then some p else helper)) fail w
        (BackgroundProcess.run role cmd args) := by
  refine keeps_bind.mpr (h.request fun x v w' r hv hs => ?_)
  simp only [serve] at hs
  split at hs <;> cases hs
  · exact hfail _ hv
  · exact hv.launch role hrole

/-- A process that was waited for is gone. -/
theorem World.At.waitUntilExits (h : w.At ptr server helper) : Keeps session
    (fun _ w' => w'.At ptr server helper ∧ w'.alive p = none) fail w
      (BackgroundProcess.waitUntilExits p) := by
  have hcode {v : World} (hv : v.At ptr server helper) (hp : v.alive p = none) :
      Keeps session (fun _ w' => w'.At ptr server helper ∧ w'.alive p = none) fail v
        (perform (.exitCode p)) := by
    refine keeps_request.mpr ⟨hv.may _, ?_⟩
    rintro r w' ⟨x, u, hu, hs⟩
    cases x <;> cases hs
    exact ⟨hv.fewer hu, hu.alive_none hp⟩
  refine keeps_bind.mpr (h.running.mono (fun r v hv => ?_) fun _ _ => id)
  obtain ⟨hv, hgone⟩ := hv
  cases r with
  | false => exact hcode hv (hgone rfl)
  | true =>
    refine keeps_bind.mpr (hv.request fun x u w' r hu hs => ?_)
    simp only [serve] at hs
    split at hs <;> cases hs
    rename_i hp
    exact hcode hu (Option.isNone_iff_eq_none.mp hp)

end Requests

section Calls
variable {α : Type} {w : World} {ptr server : Option Nat} {p : Nat} {fail : Failure → World → Prop}
  {pg : Postgres}

/-- `pg_isready` is gone when `is_ready` returns. -/
theorem World.At.is_ready (h : w.At ptr server none)
    (hfail : ∀ w', w'.At ptr server none → fail .thrown w') :
    Keeps session (fun _ w' => w'.At ptr server none) fail w pg.is_ready := by
  refine keeps_bind.mpr (keeps_bind.mpr ((h.run .helper rfl hfail).mono (fun q v hv => ?_)
    fun _ _ => id))
  refine hv.waitUntilExits.mono (fun _ u hu => ?_) fun _ _ => id
  exact hu.1.helperGone hu.2

theorem World.At.wait_ready (h : w.At ptr server none)
    (hfail : ∀ w', w'.At ptr server none → fail .thrown w') (n : Nat) :
    Keeps session (fun _ w' => w'.At ptr server none) fail w (pg.wait_ready n) := by
  induction n generalizing w with
  | zero => exact h
  | succ n ih =>
    refine keeps_bind.mpr ((h.is_ready hfail).mono (fun r v hv => ?_) fun _ _ => id)
    cases r with
    | true => exact hv
    | false => exact keeps_bind.mpr (hv.sleep.mono (fun _ u hu => ih hu) fun _ _ => id)

theorem World.At.is_running (h : w.At ptr ptr none) : Keeps session
    (fun r w' => if r then ptr.isSome ∧ w'.At ptr ptr none else w'.At ptr none none) fail w
      Postgres.is_running := by
  refine keeps_bind.mpr (h.postmaster.mono (fun r v hv => ?_) fun _ _ => id)
  obtain ⟨rfl, hv⟩ := hv
  cases r with
  | none => exact hv
  | some p =>
    refine keeps_bind.mpr (hv.deref.mono (fun q u hu => ?_) fun _ _ => id)
    obtain ⟨rfl, hu⟩ := hu
    refine hu.running.mono (fun r u hu => ?_) fun _ _ => id
    cases r with
    | true => exact ⟨rfl, hu.1⟩
    | false => exact hu.1.serverGone (hu.2 rfl)

theorem World.At.rest (h : w.At ptr ptr none) : w.Rest := by
  simpa [World.Rest, h.pointer] using h

theorem World.At.idle (h : w.At ptr none none) : w.Rest :=
  ⟨rfl, fun p hp => (nomatch h.server p hp), h.helper, h.numbered⟩

private theorem World.At.launch_server (h : w.At none none none)
    (hfail : ∀ w', w'.Rest → fail .thrown w') {wrapper : String} {wrapperArgs : List String} :
    Keeps session (fun _ => World.Rest) fail w (pg.launch wrapper wrapperArgs) := by
  have hrun {cmd : String} {args : List String} : Keeps session
      (fun p w' => w'.At none (some p) none) fail w
        (BackgroundProcess.run .postmaster cmd args) :=
    h.run .postmaster rfl fun w' hw => hfail w' hw.rest
  have hlaunched : Keeps session (fun p w' => w'.At none (some p) none) fail w
      (if wrapper = "" then BackgroundProcess.run .postmaster (pg.installDir ++ "/bin/postgres")
          ["-D", pg.dataDir]
        else BackgroundProcess.run .postmaster wrapper
          (wrapperArgs ++ [pg.installDir ++ "/bin/postgres", "-D", pg.dataDir])) := by
    split <;> exact hrun
  refine keeps_bind.mpr (hlaunched.mono (fun p v hv => ?_) fun _ _ => id)
  refine keeps_bind.mpr ((hv.assign (some p)).mono (fun _ v hv => ?_) fun _ _ => id)
  refine keeps_bind.mpr ((hv.wait_ready (fun w' hw => hfail w' hw.rest) 5).mono
    (fun _ v hv => ?_) fun _ _ => id)
  refine keeps_bind.mpr (hv.deref.mono (fun q v hv => ?_) fun _ _ => id)
  exact hv.2.running.mono (fun _ v hv => hv.1.rest) fun _ _ => id

theorem World.Rest.start (h : w.Rest) (hfail : ∀ w', w'.Rest → fail .thrown w')
    {wrapper : String} {wrapperArgs : List String} :
    Keeps session (fun _ => World.Rest) fail w (pg.start wrapper wrapperArgs) := by
  refine keeps_bind.mpr ((World.At.postmaster h).mono (fun r v hv => ?_) fun _ _ => id)
  obtain ⟨rfl, hv⟩ := hv
  cases hp : w.postmaster with
  | none =>
    rw [hp] at hv
    exact hv.launch_server hfail
  | some p =>
    rw [hp] at hv
    refine keeps_bind.mpr (hv.deref.mono (fun q v hv => ?_) fun _ _ => id)
    obtain ⟨rfl, hv⟩ := hv
    refine keeps_bind.mpr (hv.running.mono (fun r v hv => ?_) fun _ _ => id)
    cases r with
    | true => exact hv.1.rest
    | false =>
      have hgone := hv.1.serverGone (hv.2 rfl)
      exact keeps_bind.mpr ((hgone.assign none).mono (fun _ v hv => hv.launch_server hfail)
        fun _ _ => id)

theorem World.At.waitGracefully (h : w.At (some p) server none) (n : Nat) :
    Keeps session (fun _ w' => w'.At (some p) server none) fail w (Postgres.waitGracefully n) := by
  induction n generalizing w with
  | zero => exact h
  | succ n ih =>
    refine keeps_bind.mpr (h.deref.mono (fun q v hv => ?_) fun _ _ => id)
    refine keeps_bind.mpr (hv.2.running.mono (fun r v hv => ?_) fun _ _ => id)
    cases r with
    | true => exact keeps_bind.mpr (hv.1.sleep.mono (fun _ v hv => ih hv) fun _ _ => id)
    | false => exact hv.1

/-- The server is waited for, and the object forgets it. -/
theorem World.At.forget (h : w.At (some p) (some p) none) :
    Keeps session (fun _ w' => w'.At none none none) fail w (do
      let _ ← BackgroundProcess.waitUntilExits (← Process.deref)
      perform (.assign none)) := by
  refine keeps_bind.mpr (h.deref.mono (fun q v hv => ?_) fun _ _ => id)
  obtain ⟨rfl, hv⟩ := hv
  refine keeps_bind.mpr (hv.waitUntilExits.mono (fun _ v hv => ?_) fun _ _ => id)
  exact (hv.1.serverGone hv.2).assign none

theorem World.Rest.stop (h : w.Rest) (n : Nat) :
    Keeps session (fun _ w' => w'.At none none none) fail w (Postgres.stop n) := by
  refine keeps_bind.mpr ((World.At.is_running h).mono (fun r v hv => ?_) fun _ _ => id)
  cases r with
  | false => exact World.At.assign hv none
  | true =>
    obtain ⟨hsome, hv⟩ := hv
    obtain ⟨p, hp⟩ := Option.isSome_iff_exists.mp hsome
    rw [hp] at hv
    refine keeps_bind.mpr (hv.deref.mono (fun q v hv => ?_) fun _ _ => id)
    refine keeps_bind.mpr ((hv.2.kill .SIGINT).mono (fun _ v hv => ?_) fun _ _ => id)
    refine keeps_bind.mpr ((hv.waitGracefully n).mono (fun _ v hv => ?_) fun _ _ => id)
    refine keeps_bind.mpr (hv.deref.mono (fun q v hv => ?_) fun _ _ => id)
    refine keeps_bind.mpr (hv.2.running.mono (fun r v hv => ?_) fun _ _ => id)
    cases r with
    | false => exact hv.1.forget
    | true =>
      refine keeps_bind.mpr (hv.1.deref.mono (fun q v hv => ?_) fun _ _ => id)
      exact keeps_bind.mpr ((hv.2.kill .SIGKILL).mono (fun _ v hv => hv.forget) fun _ _ => id)

theorem World.Rest.restart (h : w.Rest) (hfail : ∀ w', w'.Rest → fail .thrown w') {n : Nat}
    {wrapper : String} {wrapperArgs : List String} :
    Keeps session (fun _ => World.Rest) fail w (pg.restart n wrapper wrapperArgs) :=
  keeps_bind.mpr ((h.stop n).mono (fun _ _ hv => hv.rest.start hfail) fun _ _ => id)

/-- `kill9` follows the pointer without asking whether there is one. -/
theorem World.Rest.kill9 (h : w.Rest)
    (hfail : ∀ w', w'.postmaster = none → w.postmaster = none → w'.Rest → fail .undefined w') :
    Keeps session (fun _ w' => w'.At none none none) fail w Postgres.kill9 := by
  cases hp : w.postmaster with
  | none =>
    refine keeps_bind.mpr (keeps_bind.mpr ((World.At.postmaster h).mono (fun r v hv => ?_)
      fun _ _ => id))
    obtain ⟨rfl, hv⟩ := hv
    rw [hp]
    exact hfail v (hv.pointer.trans hp) hp hv.rest
  | some p =>
    have hat : w.At (some p) (some p) none := hp ▸ h
    refine keeps_bind.mpr (hat.deref.mono (fun q v hv => ?_) fun _ _ => id)
    exact keeps_bind.mpr ((hv.2.kill .SIGKILL).mono (fun _ v hv => hv.forget) fun _ _ => id)

end Calls

section Runs
variable {pg : Postgres} {s : State} {ok : Prop}

private theorem keeps_fewer {α : Type} {post : α → World → Prop} {fail : Failure → World → Prop}
    {p : Execution α} {w v : World} (h : Keeps session post fail w p) (hv : w.Fewer v)
    (hpost : ∀ a w v, post a w → w.Fewer v → post a v)
    (hfail : ∀ e w v, fail e w → w.Fewer v → fail e v) : Keeps session post fail v p := by
  cases p with
  | done a => exact hpost a w v h hv
  | stop e => exact hfail e w v h hv
  | ask q k =>
    obtain ⟨⟨ptr, server, helper, hat⟩, hk⟩ := h
    refine ⟨(hat.fewer hv).may q, ?_⟩
    rintro r w' ⟨x, u, hu, hs⟩
    exact hk r w' ⟨x, u, hv.trans hu, hs⟩

def Returned (op : Option Op) (w : World) : Prop :=
  w.Rest ∧ (op.any Op.ends = true → w.At none none none)

/-- What a call ends in that stops: only a `kill9` that finds no postmaster is undefined. -/
def Stopped (ok : Prop) (e : Failure) (w : World) : Prop :=
  w.Rest ∧ (e = .undefined → ¬ ok)

/-- The rest of the call keeps to the session. -/
def State.Safe (ok : Prop) (s : State) : Prop :=
  Keeps session (fun _ => Returned s.op) (Stopped ok) s.world s.program

/-- `kill9` is only called while the object has a postmaster. -/
def HasPostmaster (s : State) : Label → Prop
  | .call .kill9 => s.world.postmaster.isSome
  | _ => True

instance (s : State) : (l : Label) → Decidable (HasPostmaster s l)
  | .call .kill9 => inferInstanceAs (Decidable (s.world.postmaster.isSome = true))
  | .call (.start ..) | .call (.stop _) | .call (.restart ..) | .call .is_running
  | .call .destroy | .go _ | .exit _ => inferInstanceAs (Decidable True)

private theorem World.Rest.fewer {w v : World} (h : w.Rest) (hv : w.Fewer v) : v.Rest :=
  (World.At.fewer h hv).rest

/-- A call may be made only between two calls. -/
theorem State.Safe.rest (h : s.Safe ok) (hready : s.ready = true) : s.world.Rest := by
  obtain ⟨w, op, program⟩ := s
  cases program with
  | done a => exact h.1
  | stop e => exact h.1
  | ask q k => simp [ready] at hready

theorem State.Safe.at (h : s.Safe ok) : ∃ ptr server helper, s.world.At ptr server helper := by
  obtain ⟨w, op, program⟩ := s
  cases program with
  | done a => exact ⟨_, _, _, h.1⟩
  | stop e => exact ⟨_, _, _, h.1⟩
  | ask q k => exact h.1

/-- Every call keeps to the session. -/
theorem World.Rest.execute {w : World} (h : w.Rest) (op : Op)
    (hpostmaster : ok → op = .kill9 → w.postmaster.isSome = true) :
    Keeps session (fun _ => Returned (some op)) (Stopped ok) w (op.execute pg) := by
  have hthrown (w' : World) (hw : w'.Rest) : Stopped ok .thrown w' := ⟨hw, nofun⟩
  have hended {op : Op} {w' : World} (hw : w'.At none none none) : Returned (some op) w' :=
    ⟨hw.rest, fun _ => hw⟩
  cases op with
  | start => exact keeps_bind.mpr ((h.start hthrown).mono (fun _ _ hw => ⟨hw, nofun⟩) fun _ _ => id)
  | restart =>
    exact keeps_bind.mpr ((h.restart hthrown).mono (fun _ _ hw => ⟨hw, nofun⟩) fun _ _ => id)
  | stop n => exact (h.stop n).mono (fun _ _ => hended) fun _ _ => id
  | destroy => exact (h.stop 10).mono (fun _ _ => hended) fun _ _ => id
  | kill9 =>
    refine (h.kill9 fun w' _ hnone hw => ⟨hw, fun _ hok => ?_⟩).mono (fun _ _ => hended)
      fun _ _ => id
    simpa [hnone] using hpostmaster hok rfl
  | is_running =>
    refine keeps_bind.mpr ((World.At.is_running h).mono (fun r v hv => ⟨?_, nofun⟩) fun _ _ => id)
    cases r with
    | true => exact hv.2.rest
    | false => exact World.At.idle hv

private theorem step_safe {s' : State} {l : Label} (h : s.Safe ok) (hg : ok → HasPostmaster s l)
    (hs : step pg s l = some s') : s'.Safe ok := by
  cases l with
  | call op =>
    simp only [step] at hs
    split at hs <;> cases hs
    refine (h.rest (by assumption)).execute op fun hok hop => ?_
    subst hop
    exact hg hok
  | go x =>
    obtain ⟨w, op, program⟩ := s
    cases program with
    | done a | stop e => cases hs
    | ask q k =>
      obtain ⟨y, hy, rfl⟩ := Option.map_eq_some_iff.mp hs
      exact h.2 y.2 y.1 ⟨x, w, .refl w, hy⟩
  | exit p =>
    cases hs
    refine keeps_fewer h (s.world.fewer_exit p) (fun _ w v hw hv => ?_) fun _ w v hw hv => ?_
    · exact ⟨hw.1.fewer hv, fun he => (hw.2 he).fewer hv⟩
    · exact ⟨hw.1.fewer hv, hw.2⟩

private theorem safe_of_reach (h : Reach (step pg) (fun s l => ok → HasPostmaster s l) .initial s) :
    s.Safe ok := by
  have hinitial : World.initial.At none none none := ⟨rfl, nofun, nofun, nofun⟩
  have hstart : State.initial.Safe ok := ⟨hinitial.rest, nofun⟩
  exact h.invariant hstart fun s l s' hsafe hg => step_safe hsafe hg

/-- Whatever calls are made, there is never more than one server, nor more than one `pg_isready`;
between two calls there is no `pg_isready`, and after the calls that end the server there is no
process at all. -/
private theorem single_server (h : Reach (step pg) always .initial s) :
    (∀ role p q, s.world.alive p = some role → s.world.alive q = some role → p = q) ∧
      (s.ready = true → ∀ p, s.world.alive p ≠ some .helper) ∧
      ∀ op, s.op = some op → op.ends = true → s.program = .done () →
        ∀ p, s.world.alive p = none := by
  have hsafe : s.Safe False := safe_of_reach (h.weaken fun _ _ _ _ => nofun)
  obtain ⟨ptr, server, helper, hat⟩ := hsafe.at
  refine ⟨fun role p q hp hq => ?_, fun hready p hp => ?_, fun op hop hends hdone => ?_⟩
  · cases role with
    | postmaster => exact Option.some.inj ((hat.server p hp).symm.trans (hat.server q hq))
    | helper => exact Option.some.inj ((hat.helper p hp).symm.trans (hat.helper q hq))
  · cases (hsafe.rest hready).helper p hp
  · rw [State.Safe, hdone, hop] at hsafe
    exact (hsafe.2 hends).none_alive

/-- If `kill9` is only called while the object has a postmaster, then moreover no call follows a
null pointer. -/
theorem postgres_safe (h : Reach (step pg) HasPostmaster .initial s) :
    s.program ≠ .stop .undefined ∧
      (∀ role p q, s.world.alive p = some role → s.world.alive q = some role → p = q) ∧
      (s.ready = true → ∀ p, s.world.alive p ≠ some .helper) ∧
      ∀ op, s.op = some op → op.ends = true → s.program = .done () →
        ∀ p, s.world.alive p = none := by
  refine ⟨fun hstop => ?_, single_server (h.weaken fun _ _ _ _ => trivial)⟩
  have hsafe : s.Safe True := safe_of_reach (h.weaken fun _ _ _ hg _ => hg)
  rw [State.Safe, hstop] at hsafe
  exact hsafe.2 rfl trivial

def startAndKill : List Label :=
  [.call (.start "" []), .go .none, .go .none, .go .none, .go .none, .go .none, .exit 1, .go .none,
    .go (.code 0), .go .none, .go .none, .call .kill9, .go .none, .go .none, .go .none, .go .none,
    .exit 0, .go .none, .go (.code 9), .go .none]

theorem postgres_safe_killed : ∃ s, execute (step ⟨"pg", "data", "5432"⟩) HasPostmaster
    startAndKill .initial = some s ∧ s.world.launched = 2 ∧ ∀ p, s.world.alive p = none := by
  obtain ⟨s, he, hs⟩ := Option.map_eq_some_iff.mp
    (show (execute (step ⟨"pg", "data", "5432"⟩) HasPostmaster startAndKill .initial).map
      (fun s => (s.op, s.world.launched, s.program matches .done _)) =
        some (some .kill9, 2, true) by rfl)
  obtain ⟨hop, hlaunched, hdone⟩ : s.op = some .kill9 ∧ s.world.launched = 2 ∧
      (s.program matches .done _) = true := by
    simpa using hs
  refine ⟨s, he, hlaunched, (postgres_safe (reach_of_execute _ he)).2.2.2 _ hop rfl ?_⟩
  cases hp : s.program with
  | done => rfl
  | stop | ask => simp [hp] at hdone

/-- The object has no postmaster yet. -/
theorem kill9_undefined : ¬ ∀ pg s, Reach (step pg) always .initial s →
    s.program ≠ .stop .undefined := by
  intro h
  have hrun : execute (step ⟨"pg", "data", "5432"⟩) always [.call .kill9, .go .none] .initial =
      some ⟨.initial, some .kill9, .stop .undefined⟩ := rfl
  exact h _ _ (reach_of_execute _ hrun) rfl

end Runs
end PStress.Process
