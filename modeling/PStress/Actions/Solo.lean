import PStress.Actions.Alone

/-! An action that runs alone is a run of the workers in which only its own worker moves. -/
namespace PStress.Actions
open Interaction Interleaving Metadata Program
variable {ι : Type} [DecidableEq ι] {i : ι} {n steps : Nat}

def OnlyBy (i : ι) (_ : State ι) : Label ι → Prop
  | .begin j .. | .go j _ | .tick j => j = i

/-- What worker `i` sees: the data, its handle and the operation on it, and its program. -/
def State.Has (s : State ι) (i : ι) (d : InternalData ι Table) (t : Thread Table)
    (p : Execution Unit) : Prop :=
  s.metadata.data = d ∧ s.metadata.threads i = t ∧ (s.workers i).program = p

private theorem State.has_set {s : State ι} {d : InternalData ι Table} {t : Thread Table}
    {a : Option Action} {p : Execution Unit} : (s.set i d t ⟨a, p⟩).Has i d t p := by
  simp [State.set, State.Has]

def reads : Pc Table → Bool
  | .lookupLock _ | .lookupLoad _ => true
  | _ => false

omit [DecidableEq ι] in
private theorem deliver_of_not_reads {d : InternalData ι Table} {pc : Pc Table} {p : Execution Unit}
    (h : reads pc = false) : deliver d pc p = p := by
  cases pc with
  | lookupLoad => cases h
  | _ => rfl

private theorem reads_tick {d d' : InternalData ι Table} {r : Reservation Table} {pc : Pc Table}
    {t' : Thread Table} (ht : tick i d r pc = some (d', t')) (h : reads pc = false) :
    reads t'.pc = false := by
  cases pc with
  | idle | undefined => cases ht
  | lookupLock | lookupLoad => cases h
  | _ =>
    simp only [tick] at ht
    (repeat' split at ht) <;> cases ht <;> rfl

omit [DecidableEq ι] in
private theorem reads_call {d d' : InternalData ι Table} {r : Reservation Table} {a : Act Table}
    {t' : Thread Table} (hc : call d r a = some (d', t')) (h : ∀ k, a ≠ .lookup k) :
    reads t'.pc = false := by
  cases a with
  | lookup k => exact absurd rfl (h k)
  | tick => cases hc
  | complete =>
    simp only [call] at hc
    split at hc <;> cases hc
    simp only [Reservation.branch]
    (repeat' split) <;> rfl
  | _ =>
    simp only [call] at hc
    (repeat' split at hc) <;> cases hc <;> rfl

omit [DecidableEq ι] in
private theorem reads_serve {x : Input} {d d' : InternalData ι Table} {r : Reservation Table}
    {q : Request} {t' : Thread Table} {ans : Option q.Answer}
    (h : serve x d r q = some (d', t', ans)) (hq : ∀ k, q ≠ .lookup k) : reads t'.pc = false := by
  cases q with
  | lookup k => exact absurd rfl (hq k)
  | createTable | alterTable | dropTable | write | complete =>
    obtain ⟨⟨d₁, t₁⟩, hc, he⟩ := Option.map_eq_some_iff.mp h
    cases he
    exact reads_call hc fun k hk => by cases hk
  | size | isOpen | table | index =>
    cases h
    rfl
  | random | real | executeQuery =>
    simp only [serve] at h
    (repeat' split at h) <;> cases h
    rfl

omit [DecidableEq ι] in
private theorem late_eq_none_of_ne {d : InternalData ι Table} {q : Request}
    (hq : ∀ k, q ≠ .lookup k) :
    late d q = none := by
  cases q with
  | lookup k => exact absurd rfl (hq k)
  | _ => rfl

section Runs
variable {s : State ι} {d d' : InternalData ι Table} {r r' : Reservation Table} {pc : Pc Table}
  {t' : Thread Table} {p : Execution Unit}

theorem reach_go {q : Request} {f : q.Answer → Execution Unit} {x : Input} {ans : Option q.Answer}
    (hs : s.Has i d ⟨r, .idle⟩ (.ask q f)) (h : serve x d r q = some (d', t', ans)) :
    ∃ s', Reach step (OnlyBy i) s s' ∧ s'.Has i d' t' (resume q f ans) := by
  obtain ⟨rfl, ht, hp⟩ := hs
  have he : step s (.go i x) =
      some (s.set i d' t' ⟨(s.workers i).action, resume q f ans⟩) := by
    simp only [step, ht, hp, advance, h, Option.map_some]
  exact ⟨_, .next (.go i x) .start rfl he, State.has_set⟩

private theorem reach_tick (hs : s.Has i d ⟨r, pc⟩ p) (h : tick i d r pc = some (d', t')) :
    ∃ s', Reach step (OnlyBy i) s s' ∧ s'.Has i d' t' (deliver d pc p) := by
  obtain ⟨rfl, ht, rfl⟩ := hs
  have he : step s (.tick i) = some (s.set i d' t' ⟨(s.workers i).action,
      deliver s.metadata.data pc (s.workers i).program⟩) := by
    simp only [step, ht, h, Option.map_some]
  exact ⟨_, .next (.tick i) .start rfl he, State.has_set⟩

private theorem reach_settle (hs : s.Has i d ⟨r, pc⟩ p) (hr : reads pc = false)
    (h : settle i n d ⟨r, pc⟩ = some (d', r')) :
    ∃ s', Reach step (OnlyBy i) s s' ∧ s'.Has i d' ⟨r', .idle⟩ p := by
  induction n generalizing s d r pc with
  | zero =>
    cases pc <;> cases h
    exact ⟨s, .start, hs⟩
  | succ n ih =>
    by_cases hpc : pc = .idle
    · subst hpc
      cases h
      exact ⟨s, .start, hs⟩
    · rw [settle_succ hpc] at h
      obtain ⟨⟨d₁, r₁, pc₁⟩, htick, hn⟩ := Option.bind_eq_some_iff.mp h
      obtain ⟨s₁, hreach₁, hs₁⟩ := reach_tick hs htick
      rw [deliver_of_not_reads hr] at hs₁
      obtain ⟨s', hreach, hs'⟩ := ih hs₁ (reads_tick htick hr) hn
      exact ⟨s', hreach₁.trans hreach, hs'⟩

private theorem reach_lookup {k : Nat} {f : Option Table → Execution Unit}
    (hs : s.Has i d ⟨r, .lookupLock k⟩ (.ask (.lookup k) f))
    (h : settle i n d ⟨r, .lookupLock k⟩ = some (d', r')) :
    ∃ s', Reach step (OnlyBy i) s s' ∧
      s'.Has i d' ⟨r', .idle⟩ (f ((d.tables k).map TablePtr.value)) := by
  rcases n with _ | _ | n
  · cases h
  · rw [settle_succ (by simp)] at h
    obtain ⟨y, hlock, hn⟩ := Option.bind_eq_some_iff.mp h
    simp only [tick] at hlock
    split at hlock <;> cases hlock
    cases hn
  · rw [settle_succ (by simp)] at h
    obtain ⟨⟨d₁, t₁⟩, hlock, hn⟩ := Option.bind_eq_some_iff.mp h
    obtain ⟨s₁, hreach₁, hs₁⟩ := reach_tick hs hlock
    obtain ⟨rfl, rfl⟩ : d.lockShared k i = d₁ ∧ ⟨r, .lookupLoad k⟩ = t₁ := by
      simp only [tick] at hlock
      split at hlock <;> cases hlock
      exact ⟨rfl, rfl⟩
    rw [settle_succ (by simp)] at hn
    obtain ⟨⟨d₂, t₂⟩, hload, hn⟩ := Option.bind_eq_some_iff.mp hn
    obtain ⟨s₂, hreach₂, hs₂⟩ := reach_tick hs₁ hload
    cases hload
    obtain ⟨s', hreach, hs'⟩ := reach_settle hs₂ rfl hn
    exact ⟨s', (hreach₁.trans hreach₂).trans hreach, hs'⟩

private theorem reach_request {q : Request} {f : q.Answer → Execution Unit} {a : q.Answer}
    {w w' : World ι} (hs : s.Has i w.data ⟨w.res, .idle⟩ (.ask q f))
    (h : alone i steps q w = some (a, w')) :
    ∃ s', Reach step (OnlyBy i) s s' ∧ s'.Has i w'.data ⟨w'.res, .idle⟩ (f a) := by
  obtain ⟨d, ⟨r, pc⟩, ans, d', r', hserve, hset, ha, rfl⟩ := alone_eq_some h
  obtain ⟨s₁, hreach₁, hs₁⟩ := reach_go hs hserve
  by_cases hq : ∃ k, q = .lookup k
  · obtain ⟨k, rfl⟩ := hq
    obtain ⟨⟨d₁, t₁⟩, hc, he⟩ := Option.map_eq_some_iff.mp hserve
    cases he
    simp only [call] at hc
    split at hc <;> cases hc
    cases ha
    obtain ⟨s', hreach, hs'⟩ := reach_lookup hs₁ hset
    exact ⟨s', hreach₁.trans hreach, hs'⟩
  · have hne : ∀ k, q ≠ .lookup k := fun k hk => hq ⟨k, hk⟩
    rw [late_eq_none_of_ne hne, Option.or_none] at ha
    subst ha
    obtain ⟨s', hreach, hs'⟩ := reach_settle hs₁ (reads_serve hserve hne) hset
    exact ⟨s', hreach₁.trans hreach, hs'⟩

def ended : Except Halt Unit → Execution Unit
  | .ok a => .done a
  | .error e => .stop e

private theorem reach_run {o : Except Halt Unit} {w w' : World ι}
    (hs : s.Has i w.data ⟨w.res, .idle⟩ p) (h : p.run (alone i steps) w = some (o, w')) :
    ∃ s', Reach step (OnlyBy i) s s' ∧ s'.Has i w'.data ⟨w'.res, .idle⟩ (ended o) := by
  induction p generalizing s w with
  | done a | stop e =>
    cases h
    exact ⟨s, .start, hs⟩
  | ask q k ih =>
    obtain ⟨⟨a, w₁⟩, hq, hk⟩ := Option.bind_eq_some_iff.mp h
    obtain ⟨s₁, hreach₁, hs₁⟩ := reach_request hs hq
    obtain ⟨s₂, hreach₂, hs₂⟩ := ih a hs₁ hk
    exact ⟨s₂, hreach₁.trans hreach₂, hs₂⟩

/-- What an action does that runs alone, a worker does that has finished its last action, when no
other moves. -/
private theorem reach_alone {a : Action} {attempts : Nat} {o : Except Halt Unit} {w w' : World ι}
    (hs : s.Has i w.data ⟨w.res, .idle⟩ p) (hp : finished p = true)
    (h : (a.execute attempts).run (alone i steps) w = some (o, w')) :
    ∃ s', Reach step (OnlyBy i) s s' ∧ s'.Has i w'.data ⟨w'.res, .idle⟩ (ended o) := by
  obtain ⟨hd, ht, rfl⟩ := hs
  have he : step s (.begin i a attempts) =
      some (s.set i w.data ⟨w.res, .idle⟩ ⟨some a, a.execute attempts⟩) := by
    simp only [step, ht, hp, hd, if_true]
  have hbegin : Reach step (OnlyBy i) s _ := .next (.begin i a attempts) .start rfl he
  obtain ⟨s', hreach, hs'⟩ := reach_run State.has_set h
  exact ⟨s', hbegin.trans hreach, hs'⟩

end Runs
end PStress.Actions
