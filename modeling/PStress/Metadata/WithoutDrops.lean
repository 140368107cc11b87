import PStress.Metadata.Dense

/-! Runs in which no DROP is begun: every table stays at its slot. -/
namespace PStress.Metadata
open Interleaving
variable {ι V : Type}

def Pc.drops : Pc V → Bool
  | .acquire drop _ | .load drop _ => drop
  | .dropTest | .dropClear | .dropCount | .dropReserved | .dropMoved | .dropUnlock | .lastRead
  | .lastLock _ | .lastLoad _ | .lastTest _ | .lastRetry _ | .moveLoad _ | .moveStore ..
  | .moveUnlock _ | .moveCount _ | .moveReserved _ | .moveClear _ | .moveMoved _
  | .moveRelease _ => true
  | _ => false

/-- A handle that takes no part in a DROP. -/
structure NeverDrops (t : Thread V) : Prop where
  reservation : ¬ t.res.Holding true
  operation : t.pc.drops = false

theorem NeverDrops.of_settled {t : Thread V} (h : t.res.Settled) (hpc : t.pc = .idle) :
    NeverDrops t := ⟨h.not_holding, by rw [hpc]; rfl⟩

/-- The tables are where they were, each with its identity, and there are no fewer. -/
structure Keeping (d d' : InternalData ι V) : Prop where
  tables : ∀ k p, d.tables k = some p → ∃ q, d'.tables k = some q ∧ q.id = p.id
  count : d.tableCount ≤ d'.tableCount

theorem Keeping.refl (d : InternalData ι V) : Keeping d d :=
  ⟨fun _ p hp => ⟨p, hp, rfl⟩, Nat.le_refl _⟩

theorem Keeping.trans {d d' d'' : InternalData ι V} (h : Keeping d d') (h' : Keeping d' d'') :
    Keeping d d'' := by
  refine ⟨fun k p hp => ?_, Nat.le_trans h.count h'.count⟩
  obtain ⟨q, hq, hqp⟩ := h.tables k p hp
  obtain ⟨q', hq', hq'q⟩ := h'.tables k q hq
  exact ⟨q', hq', hq'q.trans hqp⟩

private theorem Keeping.of_eq {d d' : InternalData ι V} (ht : d'.tables = d.tables)
    (hc : d'.tableCount = d.tableCount) : Keeping d d' :=
  ⟨fun k p hp => ⟨p, by rw [ht]; exact hp, rfl⟩, hc.ge⟩

section Steps
variable [DecidableEq ι] {i : ι} {d d' : InternalData ι V} {cs : List (TablePtr V)}
  {r : Reservation V} {pc : Pc V} {t t' : Thread V} {a : Act V}

private theorem tick_keeping [Inhabited V] (h : tick i d r pc = some (d', t')) (ho : PcOk d r pc)
    (hp : InPlace d cs ⟨r, pc⟩) (hn : pc.drops = false) : Keeping d d' := by
  cases pc with
  | alterStore =>
    cases h
    obtain ⟨p, q, hres, hq, hid, _⟩ := ho.2
    refine ⟨fun k p' hp' => ?_, Nat.le_refl _⟩
    by_cases hk : k = r.index
    · subst hk
      cases hq.symm.trans hp'
      exact ⟨p, by simp [hres], hid.symm⟩
    · exact ⟨p', by simpa [hk] using hp', rfl⟩
  | innerStore n o =>
    cases h
    -- the slot lies behind the last table
    have hempty : d.tables n = none := by
      have hcell : d.tables n = cs[n]? :=
        (hp.clean n (by simp [Thread.held, Pc.held]) (by simp [dirty])).cell
      have hlength : cs.length = n := hp.facts.2.2
      rw [hcell, List.getElem?_eq_none hlength.le]
    refine ⟨fun k p' hp' => ?_, Nat.le_refl _⟩
    have hk : k ≠ n := by
      rintro rfl
      cases hempty.symm.trans hp'
    exact ⟨p', by simpa [hk] using hp', rfl⟩
  | innerCount n o =>
    cases h
    exact ⟨fun k p hp => ⟨p, hp, rfl⟩, Nat.le_succ _⟩
  | idle | undefined => cases h
  | dropTest | dropClear | dropCount | dropReserved | dropMoved | dropUnlock | lastRead | lastLock
  | lastLoad | lastTest | lastRetry | moveLoad | moveStore | moveUnlock | moveCount | moveReserved
  | moveClear | moveMoved | moveRelease => cases hn
  | _ =>
    simp only [tick] at h
    (repeat' split at h) <;> cases h <;> exact .of_eq rfl rfl

omit [DecidableEq ι] in
private theorem called_keeping (h : Called d r a d' t') : Keeping d d' := by
  cases h <;> exact .of_eq rfl rfl

private theorem act_keeping [Inhabited V] (h : act i a d t = some (d', t')) (ho : PcOk d t.res t.pc)
    (hp : InPlace d cs t) (hn : NeverDrops t) : Keeping d d' := by
  rcases act_eq_some h with ⟨rfl, ht⟩ | ⟨hpc, hc⟩
  · exact tick_keeping ht ho hp hn.operation
  · rw [hpc] at ho
    exact called_keeping (called_of_call hc ho)

theorem act_neverDrops [Inhabited V] (h : act i a d t = some (d', t'))
    (ha : ∀ k, a ≠ .dropTable k) (ho : PcOk d t.res t.pc) (hn : NeverDrops t) :
    NeverDrops t' := by
  obtain ⟨r, pc⟩ := t
  obtain ⟨hres, hop⟩ := hn
  rcases act_eq_some h with ⟨rfl, ht⟩ | ⟨rfl, hc⟩
  · cases pc with
    | dropTest | dropClear | dropCount | dropReserved | dropMoved | dropUnlock | lastRead | lastLock
    | lastLoad | lastTest | lastRetry | moveLoad | moveStore | moveUnlock | moveCount | moveReserved
    | moveClear | moveMoved | moveRelease => cases hop
    | idle | undefined => cases ht
    | load b k =>
      simp only [tick] at ht
      split at ht <;> cases ht
      · exact ⟨hres, rfl⟩
      · refine ⟨fun hb => ?_, rfl⟩
        cases hop.symm.trans hb.2.1
    | reserve =>
      simp only [tick] at ht
      split at ht <;> cases ht
      · exact ⟨hres, rfl⟩
      · exact ⟨fun hb => (by cases hb.2.1), rfl⟩
    | unreserve | abandon =>
      cases ht
      exact .of_settled Reservation.settled_closed rfl
    | alterUnlock =>
      cases ht
      exact ⟨fun hb => (by cases hb.2.2.1), rfl⟩
    | innerCount =>
      cases ht
      exact ⟨fun hb => (by cases ho.1.2.1.symm.trans hb.2.1), rfl⟩
    | innerUnlock n o =>
      cases ht
      cases o <;> exact ⟨hres, rfl⟩
    | _ =>
      simp only [tick] at ht
      (repeat' split at ht) <;> cases ht <;> exact ⟨hres, hop⟩
  · cases called_of_call hc ho with
    | drop idx => exact absurd rfl (ha idx)
    | refuse => exact .of_settled Reservation.settled_closed rfl
    | remove hr => exact absurd hr hres
    | giveBack | release => exact .of_settled (Reservation.settled_cancelled r) rfl
    | editCreate f | editAlter f =>
      refine ⟨fun hb => hres ?_, rfl⟩
      simpa [Reservation.Holding] using hb
    | _ => exact ⟨hres, rfl⟩

end Steps

section Runs
variable [DecidableEq ι] [Inhabited V] [Fintype ι] {g : GapFree V} {s₁ s : State ι V}

/-- No DROP is begun, and emptiness found is found again. -/
structure DropFree (s : State ι V) (l : Label ι V) : Prop where
  stable : EmptyStable s l
  none : ∀ i k, l ≠ .run i (.dropTable k)

/-- From a state in which no handle is in a DROP. -/
theorem keeping_of_reach (h₁ : Reach step EmptyStable g.start s₁)
    (hn : ∀ i, NeverDrops (s₁.threads i)) (h : Reach step DropFree s₁ s) :
    (∀ i, NeverDrops (s.threads i)) ∧ Keeping s₁.data s.data := by
  refine h.invariant_with
    (I := fun s => (∀ i, NeverDrops (s.threads i)) ∧ Keeping s₁.data s.data)
    (J := fun s => Reach step EmptyStable g.start s)
    (fun s hs => h₁.trans (hs.weaken fun _ _ _ hg => hg.stable)) ⟨hn, .refl _⟩ ?_
  rintro s l s' hr _ ⟨hn, hk⟩ hg he
  have ho : AllOwned s := (allOwned_start g).of_reach (hr.weaken fun _ _ _ _ => trivial)
  obtain ⟨cs, hd⟩ := dense_of_reach hr
  refine ⟨step_threads he (fun r _ => .of_settled (Reservation.settled_movedFrom r) rfl)
    (fun i a d' t' hl ha => ?_) hn, hk.trans ?_⟩
  · subst hl
    exact act_neverDrops ha (fun k hx => hg.none i k (hx ▸ rfl)) (ho i).ok (hn i)
  · cases l with
    | move i j =>
      obtain ⟨r, r', _, _, _, _, _, rfl⟩ := step_move he
      exact .of_eq (handOver_tables _ _ _) (handOver_counts _ _ _).1
    | run i a =>
      obtain ⟨d', t', ha, rfl⟩ := step_run.mp he
      exact act_keeping ha (ho i).ok (hd.inPlace i) (hn i)

end Runs
end PStress.Metadata
