import PStress.Metadata.Population

/-! Runs in which no CREATE is begun. -/
namespace PStress.Metadata
open Interleaving
variable {ι V : Type}

/-- A handle that takes no part in a CREATE. -/
structure NeverCreates (t : Thread V) : Prop where
  none : t.creates = 0
  reserve : t.pc ≠ .reserve

theorem NeverCreates.not_creating {t : Thread V} (h : NeverCreates t) : ¬ t.res.Creating :=
  fun hc => by
    have hone : t.creates = 1 := creates_creating hc
    rw [h.none] at hone
    cases hone

/-- Without CREATEs only an ALTER puts another pointer into the list. -/
theorem mem_of_mem_change {a : Act V} {d : InternalData ι V} {cs : List (TablePtr V)} {t : Thread V}
    {q : TablePtr V} (ho : PcOk d t.res t.pc) (hn : NeverCreates t)
    (hs : ¬ (a = .tick ∧ t.pc = .alterStore)) (hq : q ∈ change t a cs) : q ∈ cs := by
  simp only [change] at hq
  split at hq
  · rename_i hpc
    exact absurd ⟨rfl, hpc⟩ hs
  · exact mem_of_mem_swapRemove hq
  · exact mem_of_mem_swapRemove hq
  · rename_i hpc
    rw [hpc] at ho
    exact absurd ho.1 hn.not_creating
  · exact hq

section Runs
variable [DecidableEq ι] [Inhabited V] {s : State ι V}

private theorem act_neverCreates {i : ι} {a : Act V} {d d' : InternalData ι V} {t t' : Thread V}
    (h : act i a d t = some (d', t'))
    (ha : a ≠ .createTable) (ho : PcOk d t.res t.pc) (hn : NeverCreates t) : NeverCreates t' := by
  have hcr := hn.not_creating
  obtain ⟨r, pc⟩ := t
  obtain ⟨hnone, hres⟩ := hn
  rcases act_eq_some h with ⟨rfl, ht⟩ | ⟨rfl, hc⟩
  · cases pc with
    | reserve => exact absurd rfl hres
    | unreserve | abandon =>
      cases ht
      exact ⟨creates_settled Reservation.settled_closed, by simp⟩
    | load k idx =>
      simp only [tick] at ht
      split at ht <;> cases ht
      · exact ⟨hnone, by simp⟩
      · exact ⟨creates_holding ⟨rfl, rfl, rfl, ho.2, rfl⟩, by simp⟩
    | innerCount => exact absurd ho.1 hcr
    | _ =>
      simp only [tick] at ht
      (repeat' split at ht) <;> cases ht <;> exact ⟨hnone, by simp⟩
  · cases called_of_call hc ho with
    | reserve => exact absurd rfl ha
    | refuse => exact absurd rfl ha
    | editCreate f hr => exact absurd hr hcr
    | create hr => exact absurd hr hcr
    | giveBack hr => exact absurd hr hcr
    | release => exact ⟨creates_settled (Reservation.settled_cancelled r), by simp⟩
    | _ => exact ⟨hnone, by simp⟩

def NoCreate (_ : State ι V) : Label ι V → Prop
  | .run _ .createTable => False
  | _ => True

instance (s : State ι V) : (l : Label ι V) → Decidable (NoCreate s l)
  | .run _ .createTable => inferInstanceAs (Decidable False)
  | .run _ (.alterTable _) | .run _ (.dropTable _) | .run _ (.lookup _) | .run _ (.edit _)
  | .run _ .complete | .run _ .cancel | .run _ .tick | .move _ _ =>
    inferInstanceAs (Decidable True)

theorem neverCreates_of_reach {g : GapFree V} (h : Reach step NoCreate g.start s) (i : ι) :
    NeverCreates (s.threads i) := by
  refine h.invariant_with (I := fun s => ∀ i, NeverCreates (s.threads i))
    (J := AllOwned) (fun _ hr => (allOwned_start g).of_reach hr) (fun _ => ?_) ?_ i
  · exact ⟨creates_settled Reservation.settled_closed, by simp [GapFree.start, State.at]⟩
  · intro s l s' ho _ hn hg he
    refine step_threads he (fun r _ => ?_) (fun i a d' t' hl ha => ?_) hn
    · exact ⟨creates_settled (Reservation.settled_movedFrom r), by simp⟩
    · subst hl
      exact act_neverCreates ha (fun h => by subst h; exact hg) (ho i).ok (hn i)

theorem emptyStable_of_noCreate {g : GapFree V} {l : Label ι V}
    (h : Reach step NoCreate g.start s) : EmptyStable s l := by
  cases l with
  | move => trivial
  | run i a =>
    have hn := (neverCreates_of_reach h i).not_creating
    have ho := ((allOwned_start g).of_reach h i).ok
    simp only [EmptyStable, EmptyAgain]
    split
    · rename_i hpc
      rw [hpc] at ho
      exact absurd ho hn
    · rename_i hpc
      rw [hpc] at ho
      exact absurd ho.1 hn
    · trivial

end Runs
end PStress.Metadata
