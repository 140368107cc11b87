import PStress.Registry.Edits

/-! The loop of `RandomWorker::run_thread` and the control thread, which edits the registry of
the worker meanwhile. Each call of the registry is a step. -/
namespace PStress.Registry
open Actions Interleaving

/-- Where the loop is. -/
inductive Pc where
  | total
  | draw (total : Nat)
  | lookup (w : Nat)
  | execute (action : Action)
  | exited
  | terminated (e : ActionException)

structure RandomWorker where
  config : AllConfig
  actions : ActionRegistry
  pc : Pc
  successfulActions : Nat
  failedActions : Nat

def RandomWorker.runThread (worker : RandomWorker) : RandomWorker :=
  { worker with pc := .total, successfulActions := 0, failedActions := 0 }

/-- An edit, or a step of the loop: how the draw and the action turn out comes from outside, and
so does the time. -/
inductive Event where
  | edit (e : Edit)
  | run
  | expire
  | totalWeight
  | draw (v : Int)
  | lookup
  | finish (thrown : Bool)

namespace RandomWorker

/-- The lookup is not in the `try` block: its exception leaves the thread function. -/
def step (worker : RandomWorker) : Event → Option RandomWorker
  | .edit e => some { worker with actions := worker.actions.edit e }
  | .run =>
    match worker.pc with
    | .exited => some worker.runThread
    | _ => none
  | .expire =>
    match worker.pc with
    | .total => some { worker with pc := .exited }
    | _ => none
  | .totalWeight =>
    match worker.pc with
    | .total => some { worker with pc := .draw worker.actions.totalWeight }
    | _ => none
  | .draw v =>
    match worker.pc with
    | .draw total =>
      if Drawn 0 total v then some { worker with pc := .lookup (toSize v) } else none
    | _ => none
  | .lookup =>
    match worker.pc with
    | .lookup w =>
      match worker.actions.lookupByWeightOffset w with
      | .ok f => some { worker with pc := .execute (f.builder worker.config) }
      | .error e => some { worker with pc := .terminated e }
    | _ => none
  | .finish thrown =>
    match worker.pc with
    | .execute _ => some
        (if thrown then { worker with pc := .total, failedActions := worker.failedActions + 1 }
        else { worker with pc := .total, successfulActions := worker.successfulActions + 1 })
    | _ => none

end RandomWorker

/-- A registry there is something to choose from. -/
def ActionRegistry.Usable (r : ActionRegistry) : Prop := r.factories ≠ [] ∧ 0 < r.totalWeight

instance (r : ActionRegistry) : Decidable r.Usable :=
  inferInstanceAs (Decidable (r.factories ≠ [] ∧ 0 < r.totalWeight))

/-- Every edit leaves something to choose from. -/
def KeepsUsable (worker : RandomWorker) : Event → Prop
  | .edit e => (worker.actions.edit e).Usable
  | _ => True

instance (worker : RandomWorker) : (l : Event) → Decidable (KeepsUsable worker l)
  | .edit e => inferInstanceAs (Decidable (worker.actions.edit e).Usable)
  | .run | .expire | .totalWeight | .draw _ | .lookup | .finish _ =>
    inferInstanceAs (Decidable True)

def Pc.offset : Pc → Nat
  | .draw n => (narrow n).toNat
  | .lookup w => w
  | .total | .execute _ | .exited | .terminated _ => 0

/-- The total to draw from, if that is what comes next. -/
def Pc.bound : Pc → Nat
  | .draw n => n
  | .total | .lookup _ | .execute _ | .exited | .terminated _ => 0

/-- Every edit leaves something to choose from, and enough weight for the offset that is drawn or
may be; and draws are from totals that an `int` can hold. -/
def KeepsOffset (worker : RandomWorker) : Event → Prop
  | .edit e => (worker.actions.edit e).Usable ∧ worker.pc.offset ≤ (worker.actions.edit e).peak
  | .draw _ => 0 ≤ narrow worker.pc.bound
  | _ => True

instance (worker : RandomWorker) : (l : Event) → Decidable (KeepsOffset worker l)
  | .edit e => inferInstanceAs (Decidable
      ((worker.actions.edit e).Usable ∧ worker.pc.offset ≤ (worker.actions.edit e).peak))
  | .draw _ => inferInstanceAs (Decidable (0 ≤ narrow worker.pc.bound))
  | .run | .expire | .totalWeight | .lookup | .finish _ => inferInstanceAs (Decidable True)

/-- The registry has an action for every offset the next lookup may have. -/
def Served (worker : RandomWorker) : Prop :=
  worker.actions.Usable ∧ worker.pc.offset ≤ worker.actions.peak ∧ ∀ e, worker.pc ≠ .terminated e

private theorem narrow_toSize_narrow (v : Int) : narrow (toSize (narrow v)) = narrow v := by
  simp only [narrow, toSize, Int.bmod_def]
  omega

private theorem toNat_narrow_le (v : Int) : (narrow v).toNat ≤ toSize (narrow v) := by
  simp only [narrow, toSize, Int.bmod_def]
  omega

section Steps
variable {worker worker' : RandomWorker}

private theorem served_edit {e : Edit} (h : Served worker) (hg : KeepsOffset worker (.edit e)) :
    Served { worker with actions := worker.actions.edit e } := ⟨hg.1, hg.2, h.2.2⟩

/-- A step that asks for no offset. -/
theorem Served.advance (h : Served worker) (ha : worker'.actions = worker.actions)
    (hp : worker'.pc.offset = 0) (ht : ∀ e, worker'.pc ≠ .terminated e) : Served worker' := by
  refine ⟨?_, ?_, ht⟩
  · rw [ha]
    exact h.1
  · rw [hp]
    exact Nat.zero_le _

private theorem served_totalWeight (h : Served worker) :
    Served { worker with pc := .draw worker.actions.totalWeight } := by
  refine ⟨h.1, ?_, fun e he => Pc.noConfusion he⟩
  rw [Pc.offset, ActionRegistry.totalWeight_eq, narrow_toSize_narrow]
  by_cases hn : 0 ≤ narrow worker.actions.sum
  · have hle := ActionRegistry.totalWeight_le_peak h.1.1 hn
    rw [ActionRegistry.totalWeight_eq] at hle
    exact Nat.le_trans (toNat_narrow_le _) hle
  · rw [Int.toNat_eq_zero.mpr (Int.le_of_lt (Int.not_le.mp hn))]
    exact Nat.zero_le _

private theorem served_draw {n : Nat} {v : Int} (h : Served worker) (hp : worker.pc = .draw n)
    (hn : 0 ≤ narrow n) (hv : Drawn 0 n v) : Served { worker with pc := .lookup (toSize v) } := by
  have hle := h.2.1
  rw [hp] at hle
  refine ⟨h.1, Nat.le_trans ?_ hle, fun e he => Pc.noConfusion he⟩
  have h0 : narrow 0 = 0 := by decide
  obtain ⟨hlo, hhi⟩ := hv.2 (by rwa [h0])
  rw [h0] at hlo
  have := toSize_of_isInt hv.1 hlo
  simp only [Pc.offset]
  omega

/-- An offset the registry has an action for is found. -/
theorem Served.found {w : Nat} (h : Served worker) (hp : worker.pc = .lookup w) :
    ∃ f ∈ worker.actions.factories, worker.actions.lookupByWeightOffset w = .ok f := by
  have hle := h.2.1
  rw [hp] at hle
  obtain ⟨f, hf⟩ := (ActionRegistry.accepts_iff h.1.1 w).mpr hle
  exact ⟨f, ActionRegistry.mem_of_lookup hf, hf⟩

private theorem served_step {l : Event} (h : Served worker) (hg : KeepsOffset worker l)
    (hs : worker.step l = some worker') : Served worker' := by
  cases l with
  | edit e =>
    cases hs
    exact served_edit h hg
  | run | expire =>
    simp only [RandomWorker.step] at hs
    split at hs <;> cases hs
    exact h.advance rfl rfl fun e he => Pc.noConfusion he
  | finish thrown =>
    simp only [RandomWorker.step] at hs
    split at hs
    · cases thrown <;> cases hs <;> exact h.advance rfl rfl fun e he => Pc.noConfusion he
    · cases hs
  | totalWeight =>
    simp only [RandomWorker.step] at hs
    split at hs <;> cases hs
    exact served_totalWeight h
  | draw v =>
    simp only [RandomWorker.step] at hs
    split at hs
    · rename_i n hp
      split at hs <;> cases hs
      rw [KeepsOffset, hp, Pc.bound] at hg
      exact served_draw h hp hg (by assumption)
    · cases hs
  | lookup =>
    simp only [RandomWorker.step] at hs
    split at hs
    · rename_i w hp
      obtain ⟨f, _, hf⟩ := h.found hp
      rw [hf] at hs
      cases hs
      exact h.advance rfl rfl fun e he => Pc.noConfusion he
    · cases hs

end Steps

/-- While every edit leaves enough weight for the offset a worker is about to look up, each lookup
finds an action of the registry and no exception leaves the thread function. -/
theorem lookups_find_actions {worker worker' : RandomWorker} (hu : worker.actions.Usable)
    (h : Reach RandomWorker.step KeepsOffset worker.runThread worker') :
    (∀ w, worker'.pc = .lookup w → ∃ f ∈ worker'.actions.factories,
      worker'.actions.lookupByWeightOffset w = .ok f) ∧ ∀ e, worker'.pc ≠ .terminated e := by
  have h₀ : Served worker.runThread := ⟨hu, Nat.zero_le _, fun e he => Pc.noConfusion he⟩
  have hs : Served worker' := h.invariant h₀ fun s l t hs hg he => served_step hs hg he
  exact ⟨fun w => hs.found, hs.2.2⟩

def defaultWorker : RandomWorker := ⟨{}, initializeDefaultRegisty, .exited, 0, 0⟩

/-- An action is added while the worker holds an offset. -/
theorem lookups_find_actions_insert : ∃ worker : RandomWorker,
    worker.successfulActions = 1 ∧ ∀ e, worker.pc ≠ .terminated e := by
  obtain ⟨worker, he, hn⟩ := Option.map_eq_some_iff.mp (show (execute RandomWorker.step KeepsOffset
    [.totalWeight, .draw 3250, .edit (.makeCustomSqlAction "checkpoint" "CHECKPOINT;" 1), .lookup,
      .finish false] defaultWorker.runThread).map RandomWorker.successfulActions = some 1 by
    decide +kernel)
  have hu : defaultWorker.actions.Usable := by decide +kernel
  exact ⟨worker, hn, (lookups_find_actions hu (reach_of_execute _ he)).2⟩

def Pc.exception : Pc → Option ActionException
  | .terminated e => some e
  | .total | .draw _ | .lookup _ | .execute _ | .exited => none

private theorem Pc.exception_eq_some {pc : Pc} {e : ActionException} (h : pc.exception = some e) :
    pc = .terminated e := by
  cases pc with
  | terminated e' =>
    cases h
    rfl
  | _ => cases h

/-- `alter_table` is removed after a worker drew an offset near the total of 3300. -/
theorem remove_ends_worker : ∃ worker : RandomWorker,
    Reach RandomWorker.step KeepsUsable defaultWorker.runThread worker ∧
      defaultWorker.actions.Usable ∧ worker.actions.Usable ∧
      worker.pc = .terminated ⟨"Weight offset 3250 is outside of this registy"⟩ := by
  obtain ⟨worker, he, hw⟩ := Option.map_eq_some_iff.mp (show (execute RandomWorker.step KeepsUsable
    [.totalWeight, .draw 3250, .edit (.remove "alter_table"), .lookup]
    defaultWorker.runThread).map (fun worker => (decide worker.actions.Usable,
      worker.pc.exception)) =
        some (true, some ⟨"Weight offset 3250 is outside of this registy"⟩) by decide +kernel)
  obtain ⟨hu, hx⟩ := Prod.mk.inj hw
  exact ⟨worker, reach_of_execute _ he, by decide +kernel, of_decide_eq_true hu,
    Pc.exception_eq_some hx⟩

end PStress.Registry
