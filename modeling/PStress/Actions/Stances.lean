import PStress.Actions.Dealings
import PStress.Metadata.Refinement
import PStress.Metadata.Shadow

/-! The stance of a worker, by what its handle has been granted and whether the statement for it
was sent, and the stances that an operation in progress may end with. -/
namespace PStress.Actions
open Interaction Interleaving Metadata
variable {ι : Type}

namespace Stance

def of : Option (Grant Table) → Option (TablePtr Table) → Bool → Stance
  | none, p, _ => closed (p.map TablePtr.value)
  | some (.place p), _, sent => creating p.value sent
  | some (.slot false _ o p), _, sent => altering o.value p.value sent
  | some (.slot true _ o _), _, sent => dropping o.value sent

theorem of_isOpen (g : Option (Grant Table)) (p : Option (TablePtr Table)) (sent : Bool) :
    (of g p sent).isOpen = g.isSome := by
  rcases g with _ | ⟨_ | ⟨_ | _, _, _, _⟩⟩ <;> rfl

theorem of_not_granted {g : Option (Grant Table)} (h : g = none) (p : Option (TablePtr Table))
    (sent : Bool) : of g p sent = closed (p.map TablePtr.value) := by
  subst h
  rfl

private theorem of_congr {g : Option (Grant Table)} {sent sent' : Bool}
    (h : g ≠ none → sent' = sent) (p : Option (TablePtr Table)) : of g p sent' = of g p sent := by
  cases g with
  | none => rfl
  | some g => rw [h (by simp)]

/-- The stances an operation in progress may end with. -/
def Ends (g : Option (Grant Table)) (sent : Bool) (t : Thread Table) (st : Stance) : Prop :=
  match t.pc with
  | .idle | .lookupLock _ | .lookupLoad _ | .lookupUnlock _ => st = of g t.res.table sent
  | .reserve => st = .closed none ∨ st = .creating default false
  | .acquire false _ | .load false _ =>
    st = .closed none ∨ ∃ t, Legible t ∧ st = .altering t t false
  | .acquire true _ | .load true _ => st = .closed none ∨ ∃ t, Legible t ∧ st = .dropping t false
  | .unreserve | .abandon _ => st = .closed none
  | _ => st.isOpen = false

end Stance

section Steps
variable [DecidableEq ι] {i : ι} {d d' : InternalData ι Table} {r : Reservation Table}
  {pc : Pc Table} {t' : Thread Table} {m n : Store ι Table} {sent sent' : Bool}

omit [DecidableEq ι] in
/-- What a step of an operation can stand for: only `complete()` makes a change. -/
theorem event_tick {e : Event ι Table} (h : Thread.event i .tick d ⟨r, pc⟩ = some e) :
    (pc.completing = true ∧ e = .commit i) ∨ (pc.completing = false ∧
      ((∃ p, e = .place i p) ∨ (∃ b k p, e = .reserve i b k p) ∨ (∃ k, e = .missing i k) ∨
        ∃ k p, e = .read i k p)) := by
  cases pc with
  | reserve =>
    simp only [Thread.event] at h
    split at h <;> cases h
    exact .inr ⟨rfl, .inl ⟨_, rfl⟩⟩
  | load b k =>
    simp only [Thread.event] at h
    split at h <;> cases h
    · exact .inr ⟨rfl, .inr (.inr (.inl ⟨k, rfl⟩))⟩
    · exact .inr ⟨rfl, .inr (.inl ⟨b, k, _, rfl⟩)⟩
  | lookupLoad k =>
    cases h
    exact .inr ⟨rfl, .inr (.inr (.inr ⟨k, _, rfl⟩))⟩
  | alterStore | dropClear | moveStore | innerStore =>
    cases h
    exact .inl ⟨rfl, rfl⟩
  | _ => cases h

theorem completing_of_tick (h : tick i d r pc = some (d', t')) (ht : t'.pc.completing = true) :
    pc.completing = true := by
  cases pc with
  | idle | undefined => cases h
  | reserve | unreserve | acquire | load | abandon | lookupLock | lookupLoad | lookupUnlock =>
    simp only [tick] at h
    (repeat' split at h) <;> cases h <;> cases ht
  | _ => rfl

/-- A step of an operation only narrows down how it may end. -/
theorem tick_ends (h : tick i d r pc = some (d', t')) (ho : PcOk d r pc)
    (he : Does Store.Next m (Thread.event i .tick d ⟨r, pc⟩) n)
    (hg : n.grants i = t'.grant n.contents) (hnone : m.grants i = none → sent = false)
    (hsent : n.grants i ≠ none → sent' = sent)
    (hlegible : ∀ k p, m.contents[k]? = some p → (∀ j, ¬ m.Reserved j k) → Legible p.value)
    {st : Stance} (hst : Stance.Ends (n.grants i) sent' t' st) :
    Stance.Ends (m.grants i) sent ⟨r, pc⟩ st := by
  -- an operation that is over leaves nothing open
  have finished {q : Reservation Table} (hq : q.Settled) (ht : t' = ⟨q, .idle⟩) :
      st = .closed (q.table.map TablePtr.value) := by
    subst ht
    exact hst.trans (Stance.of_not_granted (hg.trans (grant_settled hq)) _ _)
  -- a lookup leaves the grant alone
  have same (hn : n = m) : Stance.of (n.grants i) r.table sent' =
      Stance.of (m.grants i) r.table sent := by
    subst hn
    exact Stance.of_congr hsent _
  cases pc with
  | idle | undefined => cases h
  | reserve =>
    simp only [tick] at h
    simp only [Thread.event] at he
    split at h <;> cases h
    · exact .inl hst
    · rename_i hfull
      rw [if_neg hfull] at he
      cases he with
      | place _ _ hfree =>
        have hgrant : (m.give i (some (.place ⟨d.nextTable, default⟩))).grants i ≠ none := by
          simp [Store.give]
        refine .inr (hst.trans ?_)
        rw [hsent hgrant, hnone hfree]
        simp [Store.give, Stance.of]
  | unreserve =>
    cases h
    exact finished Reservation.settled_closed rfl
  | abandon =>
    cases h
    exact finished Reservation.settled_closed rfl
  | acquire b k =>
    simp only [tick] at h
    split at h <;> cases h
    cases b <;> exact hst
  | load b k =>
    simp only [tick] at h
    simp only [Thread.event] at he
    split at h <;> cases h
    · cases b <;> exact .inl hst
    · rename_i p hp
      rw [hp] at he
      cases he with
      | reserve _ _ _ _ hfree hk halone =>
        have hgrant : (m.give i (some (.slot b k p p))).grants i ≠ none := by simp [Store.give]
        have hread := hlegible k p hk halone
        change st = _ at hst
        rw [hsent hgrant, hnone hfree] at hst
        cases b
        · exact .inr ⟨p.value, hread, by simpa [Store.give, Stance.of] using hst⟩
        · exact .inr ⟨p.value, hread, by simpa [Store.give, Stance.of] using hst⟩
  | lookupLock =>
    simp only [tick] at h
    split at h <;> cases h
    exact hst.trans (same he)
  | lookupLoad k =>
    cases h
    simp only [Thread.event] at he
    generalize d.tables k = found at he
    cases he
    exact hst.trans (same rfl)
  | lookupUnlock =>
    cases h
    exact hst.trans (same he)
  | alterUnlock | dropUnlock =>
    cases h
    rw [finished (q := { r with lock := none }) ⟨rfl, .inr ho.1.index_ne⟩ rfl]
    rfl
  | moveRelease | outerUnlock =>
    cases h
    rw [finished ho.1 rfl]
    rfl
  | innerUnlock k o =>
    cases h
    cases o
    · rw [finished ho.1 rfl]
      rfl
    · exact hst
  | _ =>
    simp only [tick] at h
    (repeat' split at h) <;> cases h <;> exact hst

end Steps
end PStress.Actions
