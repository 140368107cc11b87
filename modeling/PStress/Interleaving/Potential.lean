import PStress.Interleaving.Reach

/-! A potential that pays for a run. Each step costs something and is paid something; when the
potential covers the difference of every step, it covers that of the run. -/
namespace PStress.Interleaving
variable {S L : Type*}

/-- What the steps of a run have cost, and what was paid for them. -/
structure Account where
  cost : Nat
  paid : Nat
  deriving DecidableEq

def Account.record (cost pay : S → L → Nat) (s : S) (l : L) (a : Account) : Account :=
  ⟨a.cost + cost s l, a.paid + pay s l⟩

theorem Reach.affordable {step : S → L → Option S} {guard : S → L → Prop} {cost pay : S → L → Nat}
    {Φ : S → Nat} {c : Nat} {s₀ s : S} {a : Account}
    (hstep : ∀ s l t, Reach step guard s₀ s → guard s l → step s l = some t →
      Φ t + cost s l ≤ Φ s + c * pay s l)
    (h : Reach (recorded step (Account.record cost pay)) (fun x l => guard x.1 l)
      (s₀, ⟨0, 0⟩) (s, a)) :
    Φ s + a.cost ≤ Φ s₀ + c * a.paid := by
  refine h.invariant_with (I := fun x => Φ x.1 + x.2.cost ≤ Φ s₀ + c * x.2.paid)
    (J := fun x => Reach step guard s₀ x.1) (fun x hx => hx.forget) (by simp) ?_
  rintro ⟨s, a⟩ l ⟨t, b⟩ hs _ ih hg he
  obtain ⟨ht, rfl⟩ := recorded_eq_some.mp he
  have hpaid := hstep s l t hs hg ht
  simp only [Account.record, Nat.mul_add] at ih ⊢
  omega

end PStress.Interleaving
