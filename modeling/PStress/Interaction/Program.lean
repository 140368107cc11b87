import Mathlib.Tactic.Common

/-! Programs that ask their surroundings for one thing after another. A session says what may be
asked in each state and what the answers may do to the state; a program keeps to it whatever it
is answered. -/
namespace PStress.Interaction

/-- A program returns a result, stops without one, or makes a request and goes on with the
answer. -/
inductive Program (Q : Type) (R : Q → Type) (E α : Type) where
  | done (a : α)
  | stop (e : E)
  | ask (q : Q) (k : R q → Program Q R E α)

namespace Program
variable {Q : Type} {R : Q → Type} {E α β σ : Type}

def bind : Program Q R E α → (α → Program Q R E β) → Program Q R E β
  | done a, f => f a
  | stop e, _ => stop e
  | ask q k, f => ask q fun r => (k r).bind f

instance : Monad (Program Q R E) where
  pure := done
  bind := bind

@[simp] theorem pure_eq (a : α) : (pure a : Program Q R E α) = done a := rfl

@[simp] theorem done_bind (a : α) (f : α → Program Q R E β) : done a >>= f = f a := rfl

@[simp] private theorem stop_bind (e : E) (f : α → Program Q R E β) : stop e >>= f = stop e := rfl

@[simp] private theorem ask_bind (q : Q) (k : R q → Program Q R E α) (f : α → Program Q R E β) :
    ask q k >>= f = ask q fun r => k r >>= f := rfl

theorem bind_done (p : Program Q R E α) : p >>= done = p := by
  induction p with
  | done a | stop e => rfl
  | ask q k ih => exact congrArg (ask q) (funext ih)

theorem bind_bind {γ : Type} (p : Program Q R E α) (f : α → Program Q R E β)
    (g : β → Program Q R E γ) : p >>= f >>= g = p >>= fun a => f a >>= g := by
  induction p with
  | done a | stop e => rfl
  | ask q k ih => exact congrArg (ask q) (funext ih)

instance : LawfulMonad (Program Q R E) :=
  LawfulMonad.mk' _ bind_done (fun _ _ => rfl) bind_bind

def request (q : Q) : Program Q R E (R q) := ask q done

/-- The request a program makes first. -/
def head : Program Q R E α → Option Q
  | ask q _ => some q
  | done _ | stop _ => none

theorem head_eq_some {p : Program Q R E α} {q : Q} (h : p.head = some q) :
    ∃ k, p = ask q k := by
  cases p with
  | done | stop => cases h
  | ask q' k =>
    cases h
    exact ⟨k, rfl⟩

/-- What a program is left with once its first request is answered. -/
def Continues (p' p : Program Q R E α) : Prop := ∃ q k r, p = ask q k ∧ p' = k r

theorem continues_wf : WellFounded (Continues : Program Q R E α → Program Q R E α → Prop) := by
  refine ⟨fun p => ?_⟩
  induction p with
  | done | stop =>
    refine ⟨_, ?_⟩
    rintro _ ⟨_, _, _, h, _⟩
    cases h
  | ask q k ih =>
    refine ⟨_, ?_⟩
    rintro _ ⟨_, _, r, h, rfl⟩
    cases h
    exact ih r

/-- `cleanup` runs when `p` ends, also when it ends by a stop that unwinds. -/
def ensuring (unwinds : E → Bool) (cleanup : Program Q R E Unit) :
    Program Q R E α → Program Q R E α
  | done a => cleanup >>= fun _ => done a
  | stop e => if unwinds e then cleanup >>= fun _ => stop e else stop e
  | ask q k => ask q fun r => ensuring unwinds cleanup (k r)

def times (body : σ → Program Q R E σ) : Nat → σ → Program Q R E σ
  | 0, x => pure x
  | n + 1, x => body x >>= times body n

end Program

/-- What may be asked in each state, and the states an answer may lead to. -/
structure Session (Q : Type) (R : Q → Type) (S : Type*) where
  may : S → Q → Prop
  next : S → (q : Q) → R q → S → Prop

namespace Program
variable {Q : Type} {R : Q → Type} {E α β σ : Type} {S : Type*} {A : Session Q R S}
  {post : α → S → Prop} {fail : E → S → Prop} {s : S}

/-- From state `s` the program only makes requests it may make, and it ends in a state that
satisfies `post`, or `fail` if it stops. -/
def Keeps (A : Session Q R S) (post : α → S → Prop) (fail : E → S → Prop) :
    S → Program Q R E α → Prop
  | s, done a => post a s
  | s, stop e => fail e s
  | s, ask q k => A.may s q ∧ ∀ r s', A.next s q r s' → Keeps A post fail s' (k r)

@[simp] theorem keeps_done {a : α} : Keeps A post fail s (done a) ↔ post a s := Iff.rfl

@[simp] private theorem keeps_stop {e : E} : Keeps A post fail s (stop e) ↔ fail e s := Iff.rfl

@[simp] private theorem keeps_ask {q : Q} {k : R q → Program Q R E α} :
    Keeps A post fail s (ask q k) ↔
      A.may s q ∧ ∀ r s', A.next s q r s' → Keeps A post fail s' (k r) := Iff.rfl

@[simp] theorem keeps_request {q : Q} {post : R q → S → Prop} :
    Keeps A post fail s (request q) ↔
      A.may s q ∧ ∀ r s', A.next s q r s' → post r s' := Iff.rfl

theorem Keeps.mono {post' : α → S → Prop} {fail' : E → S → Prop} {p : Program Q R E α}
    (h : Keeps A post fail s p) (hp : ∀ a s, post a s → post' a s)
    (hf : ∀ e s, fail e s → fail' e s) : Keeps A post' fail' s p := by
  induction p generalizing s with
  | done a => exact hp a s h
  | stop e => exact hf e s h
  | ask q k ih => exact ⟨h.1, fun r s' hn => ih r (h.2 r s' hn)⟩

/-- What is shown of one program twice holds together. -/
theorem Keeps.and {post' : α → S → Prop} {p : Program Q R E α} (h : Keeps A post fail s p)
    (h' : Keeps A post' fail s p) : Keeps A (fun a s => post a s ∧ post' a s) fail s p := by
  induction p generalizing s with
  | done a => exact ⟨h, h'⟩
  | stop e => exact h
  | ask q k ih => exact ⟨h.1, fun r s' hn => ih r (h.2 r s' hn) (h'.2 r s' hn)⟩

theorem Keeps.both {post' : α → S → Prop} {fail' : E → S → Prop} {p : Program Q R E α}
    (h : Keeps A post fail s p) (h' : Keeps A post' fail' s p) :
    Keeps A (fun a s => post a s ∧ post' a s) (fun e s => fail e s ∧ fail' e s) s p := by
  induction p generalizing s with
  | done | stop => exact ⟨h, h'⟩
  | ask q k ih => exact ⟨h.1, fun r s' hn => ih r (h.2 r s' hn) (h'.2 r s' hn)⟩

@[simp] theorem keeps_bind {post : β → S → Prop} {p : Program Q R E α}
    {f : α → Program Q R E β} :
    Keeps A post fail s (p >>= f) ↔
      Keeps A (fun a s' => Keeps A post fail s' (f a)) fail s p := by
  induction p generalizing s with
  | done a | stop e => rfl
  | ask q k ih =>
    apply and_congr_right
    intro _
    exact forall_congr' fun r => forall_congr' fun s' => imp_congr_right fun _ => ih r

theorem keeps_ensuring {unwinds : E → Bool} {cleanup : Program Q R E Unit}
    {p : Program Q R E α} :
    Keeps A post fail s (ensuring unwinds cleanup p) ↔
      Keeps A (fun a s' => Keeps A (fun _ => post a) fail s' cleanup)
        (fun e s' => if unwinds e then Keeps A (fun _ => fail e) fail s' cleanup else fail e s')
        s p := by
  induction p generalizing s with
  | done a => simp [ensuring]
  | stop e =>
    simp only [ensuring, keeps_stop]
    split <;> simp
  | ask q k ih =>
    apply and_congr_right
    intro _
    exact forall_congr' fun r => forall_congr' fun s' => imp_congr_right fun _ => ih r

/-- A loop keeps to the session if its body leads from what holds after `m` rounds to what holds
after one more. -/
theorem keeps_times {I : Nat → σ → S → Prop} {body : σ → Program Q R E σ}
    (hbody : ∀ m x s, I m x s → Keeps A (I (m + 1)) fail s (body x)) (n m : Nat) {x : σ}
    (h : I m x s) : Keeps A (I (m + n)) fail s (times body n x) := by
  induction n generalizing m x s with
  | zero => exact h
  | succ n ih =>
    refine keeps_bind.mpr ((hbody m x s h).mono (fun y t hy => ?_) fun _ _ => id)
    rw [← Nat.add_assoc, Nat.add_right_comm]
    exact ih (m + 1) hy

theorem keeps_foldlM {κ : Type} {I : σ → S → Prop} {body : σ → κ → Program Q R E σ}
    (hbody : ∀ x c s, I x s → Keeps A I fail s (body x c)) (l : List κ) {x : σ} (h : I x s) :
    Keeps A I fail s (l.foldlM body x) := by
  induction l generalizing x s with
  | nil => exact h
  | cons c l ih =>
    rw [List.foldlM_cons]
    exact keeps_bind.mpr ((hbody x c s h).mono (fun y t => ih) fun _ _ => id)

end Program

section Handlers
open Program
variable {Q : Type} {R : Q → Type} {E α : Type} {W : Type*}

/-- A program run against a handler that answers from a state of its own; `none` when a request
is not answered. -/
def Program.run (handle : (q : Q) → W → Option (R q × W)) :
    Program Q R E α → W → Option (Except E α × W)
  | done a, w => some (.ok a, w)
  | stop e, w => some (.error e, w)
  | ask q k, w => (handle q w).bind fun x => (k x.1).run handle x.2

theorem run_bind_done {handle : (q : Q) → W → Option (R q × W)} {β : Type} (p : Program Q R E α)
    (f : α → β) (w : W) : (p >>= fun a => done (f a)).run handle w =
      (p.run handle w).map fun x => (x.1.map f, x.2) := by
  induction p generalizing w with
  | done a | stop e => rfl
  | ask q k ih =>
    rw [ask_bind, Program.run, Program.run, Option.map_bind]
    exact congrArg _ (funext fun x => ih x.1 x.2)

/-- The session a handler offers. -/
def handled (handle : (q : Q) → W → Option (R q × W)) : Session Q R W where
  may _ _ := True
  next w q r w' := handle q w = some (r, w')

def Ended (post : α → W → Prop) (fail : E → W → Prop) : Except E α → W → Prop
  | .ok a, w => post a w
  | .error e, w => fail e w

/-- What holds in the session a handler offers holds of the run against it. -/
theorem keeps_run {handle : (q : Q) → W → Option (R q × W)} {post : α → W → Prop}
    {fail : E → W → Prop} {p : Program Q R E α} {w w' : W} {o : Except E α}
    (h : Keeps (handled handle) post fail w p) (hr : p.run handle w = some (o, w')) :
    Ended post fail o w' := by
  induction p generalizing w with
  | done a | stop e =>
    cases hr
    exact h
  | ask q k ih =>
    obtain ⟨⟨r, w₁⟩, hq, hk⟩ := Option.bind_eq_some_iff.mp hr
    exact ih r (h.2 r w₁ hq) hk

/-- A handler that also keeps notes of what it is asked and what it answers. -/
def noting {H : Type*} (note : (q : Q) → R q → H → H) (handle : (q : Q) → W → Option (R q × W))
    (q : Q) (x : W × H) : Option (R q × W × H) :=
  (handle q x.1).map fun y => (y.1, y.2, note q y.1 x.2)

theorem noting_eq_some {H : Type*} {note : (q : Q) → R q → H → H}
    {handle : (q : Q) → W → Option (R q × W)} {q : Q} {w w' : W} {h h' : H} {r : R q} :
    noting note handle q (w, h) = some (r, w', h') ↔
      handle q w = some (r, w') ∧ h' = note q r h := by
  simp only [noting, Option.map_eq_some_iff]
  constructor
  · rintro ⟨y, hy, he⟩
    cases he
    exact ⟨hy, rfl⟩
  · rintro ⟨hy, rfl⟩
    exact ⟨(r, w'), hy, rfl⟩

/-- The notes make no difference to the rest. -/
theorem keeps_of_noting {H : Type*} {note : (q : Q) → R q → H → H}
    {handle : (q : Q) → W → Option (R q × W)} {post : α → W → Prop} {fail : E → W → Prop}
    {p : Program Q R E α} {w : W} {h : H}
    (hk : Keeps (handled (noting note handle)) (fun a x => post a x.1) (fun e x => fail e x.1)
      (w, h) p) : Keeps (handled handle) post fail w p := by
  induction p generalizing w h with
  | done a | stop e => exact hk
  | ask q k ih =>
    refine ⟨trivial, fun r w' hn => ?_⟩
    exact ih r (hk.2 r (w', note q r h) (noting_eq_some.mpr ⟨hn, rfl⟩))

/-- The session in which anything is answered as `given` allows, and notes are kept. -/
def answering {H : Type*} (given : (q : Q) → R q → Prop) (note : (q : Q) → R q → H → H) :
    Session Q R H where
  may _ _ := True
  next h q r h' := given q r ∧ h' = note q r h

/-- What holds whatever is answered holds of a handler that answers as it may. -/
theorem Program.Keeps.noted {H : Type*} {given : (q : Q) → R q → Prop}
    {note : (q : Q) → R q → H → H} {handle : (q : Q) → W → Option (R q × W)}
    (hg : ∀ q w r w', handle q w = some (r, w') → given q r) {post : α → H → Prop}
    {fail : E → H → Prop} {p : Program Q R E α} {w : W} {h : H}
    (hk : Keeps (answering given note) post fail h p) :
    Keeps (handled (noting note handle)) (fun a x => post a x.2) (fun e x => fail e x.2) (w, h)
      p := by
  induction p generalizing w h with
  | done a | stop e => exact hk
  | ask q k ih =>
    refine ⟨trivial, fun r x hn => ?_⟩
    obtain ⟨w', h'⟩ := x
    obtain ⟨hq, rfl⟩ := noting_eq_some.mp hn
    exact ih r (hk.2 r _ ⟨hg q w r w' hq, rfl⟩)

end Handlers
end PStress.Interaction
