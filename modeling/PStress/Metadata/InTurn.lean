import PStress.Metadata.Dense

/-! Runs in which one `complete()` returns before the next one is called. Other operations go on
meanwhile; they change neither the size nor a slot, so a CREATE finds the size it has read. -/
namespace PStress.Metadata
open Interleaving
variable {ι V : Type}

/-- `complete()` is called when no other call of it is in progress. -/
def InTurn (s : State ι V) : Label ι V → Prop
  | .run _ .complete => ∀ i, (s.threads i).pc.completing = false
  | _ => True

instance [Fintype ι] (s : State ι V) : (l : Label ι V) → Decidable (InTurn s l)
  | .run _ .complete => inferInstanceAs (Decidable (∀ i, (s.threads i).pc.completing = false))
  | .run _ .createTable | .run _ (.alterTable _) | .run _ (.dropTable _) | .run _ (.lookup _)
  | .run _ (.edit _) | .run _ .cancel | .run _ .tick | .move _ _ => inferInstanceAs (Decidable True)

/-- The size a CREATE relies on, between the read of it and the test or the lock that follows. -/
def Thread.expects (t : Thread V) : Option Nat :=
  match t.pc with
  | .createTest n => some n
  | .innerLock _ false => some 0
  | _ => none

/-- At most one handle is in the middle of `complete()`, and the size is the one it relies on. -/
structure OneCompletes (s : State ι V) : Prop where
  single : ∀ i j, (s.threads i).pc.completing = true → (s.threads j).pc.completing = true → i = j
  size : ∀ i n, (s.threads i).expects = some n → s.data.tableCount = n

private theorem completing_of_expects {t : Thread V} {n : Nat} (h : t.expects = some n) :
    t.pc.completing = true := by
  simp only [Thread.expects] at h
  split at h
  · simp [*, Pc.completing]
  · simp [*, Pc.completing]
  · cases h

variable [DecidableEq ι] [Inhabited V]

section Steps
variable {i : ι} {a : Act V} {d d' : InternalData ι V} {t t' : Thread V}

private theorem act_not_completing (h : act i a d t = some (d', t')) (ha : a ≠ .complete)
    (ht : t.pc.completing = false) :
    t'.pc.completing = false ∧ d'.tableCount = d.tableCount := by
  obtain ⟨r, pc⟩ := t
  obtain ⟨rfl, hs⟩ | ⟨rfl, hc⟩ := act_eq_some h
  · cases pc with
    | idle => cases hs
    | reserve | unreserve | acquire | load | abandon | lookupLock | lookupLoad | lookupUnlock =>
      simp only [tick] at hs
      (repeat' split at hs) <;> cases hs <;> exact ⟨rfl, rfl⟩
    | _ => cases ht
  · cases a with
    | complete => exact absurd rfl ha
    | cancel =>
      simp only [call] at hc
      split at hc <;> cases hc
      refine ⟨rfl, ?_⟩
      simp only [cancel]
      (repeat' split) <;> rfl
    | _ =>
      simp only [call] at hc
      (repeat' split at hc) <;> cases hc <;> exact ⟨rfl, rfl⟩

private theorem act_expects {n : Nat} (h : act i a d t = some (d', t')) (hn : t'.expects = some n) :
    d'.tableCount = n := by
  obtain ⟨r, pc⟩ := t
  obtain ⟨rfl, hs⟩ | ⟨rfl, hc⟩ := act_eq_some h
  · cases pc with
    | createRead =>
      cases hs
      exact Option.some.inj hn
    | createTest m =>
      simp only [tick] at hs
      split at hs <;> cases hs
      · exact (by assumption : d.tableCount = 0).trans (Option.some.inj hn)
      · cases hn
    | innerUnlock m o =>
      cases hs
      cases o <;> cases hn
    | _ =>
      simp only [tick] at hs
      (repeat' split at hs) <;> cases hs <;> cases hn
  · have hb := r.branch_cases
    cases a <;> simp only [call] at hc <;> (repeat' split at hc) <;> cases hc <;>
      simp only [Thread.expects] at hn <;> first
        | cases hn
        | (obtain hb | hb | hb := hb <;> simp [hb] at hn)

end Steps

variable {s s' : State ι V} {l : Label ι V}

private theorem oneCompletes_step (h : step s l = some s') (hg : InTurn s l) (ho : OneCompletes s) :
    OneCompletes s' := by
  cases l with
  | run i a =>
    obtain ⟨d', t', ha, rfl⟩ := step_run.mp h
    -- either nobody else is in the middle of `complete()`, or this step is no part of it
    have hothers : (∀ j, j ≠ i → (s.threads j).pc.completing = false) ∨
        t'.pc.completing = false ∧ d'.tableCount = s.data.tableCount := by
      by_cases hc : a = .complete
      · subst hc
        exact .inl fun j _ => hg j
      · cases hpc : (s.threads i).pc.completing with
        | false => exact .inr (act_not_completing ha hc hpc)
        | true =>
          refine .inl fun j hj => ?_
          by_contra hcj
          exact hj (ho.single j i (by simpa using hcj) hpc)
    refine ⟨fun j k hj hk => ?_, fun j n hn => ?_⟩
    · obtain hidle | ⟨ht, _⟩ := hothers
      · have alone (k : ι) (hk : ((Function.update s.threads i t') k).pc.completing = true) :
            k = i := by
          by_contra hki
          simp [hki, hidle k hki] at hk
        rw [alone j hj, alone k hk]
      · have hji : j ≠ i := by
          rintro rfl
          simp [ht] at hj
        have hki : k ≠ i := by
          rintro rfl
          simp [ht] at hk
        exact ho.single j k (by simpa [hji] using hj) (by simpa [hki] using hk)
    · by_cases hji : j = i
      · exact act_expects ha (by simpa [hji] using hn)
      · have hn : (s.threads j).expects = some n := by simpa [hji] using hn
        obtain hidle | ⟨_, hcount⟩ := hothers
        · cases (hidle j hji).symm.trans (completing_of_expects hn)
        · exact hcount.trans (ho.size j n hn)
  | move i j =>
    obtain ⟨r, r', hi, hj, hij, _, _, rfl⟩ := step_move h
    have hidle (k : ι) : ((Function.update (Function.update s.threads i ⟨r.movedFrom, .idle⟩) j
        ⟨r, .idle⟩) k).pc = (s.threads k).pc := by
      simp only [Function.update_apply]
      (repeat' split) <;> simp [*]
    refine ⟨fun k l hk hl => ho.single k l ?_ ?_, fun k n hn => ?_⟩
    · rwa [← hidle k]
    · rwa [← hidle l]
    · rw [(handOver_counts _ _ _).1]
      refine ho.size k n ?_
      rwa [Thread.expects, ← hidle k]

/-- In such runs emptiness found is found again. -/
theorem emptyStable_of_inTurn {g : GapFree V} (h : Reach step InTurn g.start s) (hg : InTurn s l) :
    EmptyStable s l := by
  have ho : OneCompletes s := by
    refine h.invariant ⟨?_, ?_⟩ fun _ _ _ ho hg he => oneCompletes_step he hg ho
    · intro i j hi
      cases hi
    · intro i n hn
      cases hn
  cases l with
  | move => trivial
  | run i a =>
    simp only [EmptyStable, EmptyAgain]
    split
    · rename_i n hpc
      have hn := ho.size i n (by simp [Thread.expects, hpc])
      rw [hn]
    · rename_i n hpc
      exact ho.size i 0 (by simp [Thread.expects, hpc])
    · trivial

end PStress.Metadata
