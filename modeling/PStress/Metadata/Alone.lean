import PStress.Metadata.Protocol

/-! Operations that are carried through while no other handle takes a step. -/
namespace PStress.Metadata
variable {ι V : Type} [DecidableEq ι] [Inhabited V]

/-- The operation in progress, carried through in at most the given number of steps. -/
def settle (i : ι) : Nat → InternalData ι V → Thread V →
    Option (InternalData ι V × Reservation V)
  | _, d, ⟨r, .idle⟩ => some (d, r)
  | 0, _, _ => none
  | n + 1, d, ⟨r, pc⟩ => (tick i d r pc).bind fun y => settle i n y.1 y.2

def invoke (i : ι) (steps : Nat) (a : Act V) (d : InternalData ι V) (r : Reservation V) :
    Option (InternalData ι V × Reservation V) :=
  (call d r a).bind fun y => settle i steps y.1 y.2

def Settles (i : ι) (d : InternalData ι V) (t : Thread V)
    (x : InternalData ι V × Reservation V) : Prop := ∃ n, settle i n d t = some x

section Settle
variable {i : ι} {n : Nat} {d d' : InternalData ι V} {r r' : Reservation V}
  {x : InternalData ι V × Reservation V}

@[simp] theorem settle_idle : settle i n d ⟨r, .idle⟩ = some (d, r) := by
  cases n <;> rfl

theorem settle_succ {pc : Pc V} (hpc : pc ≠ .idle) :
    settle i (n + 1) d ⟨r, pc⟩ = (tick i d r pc).bind fun y => settle i n y.1 y.2 := by
  cases pc with
  | idle => exact absurd rfl hpc
  | _ => rfl

/-- What each step keeps holds at the end. -/
theorem settle_invariant {P : InternalData ι V → Thread V → Prop}
    (hP : ∀ d r pc d' t', P d ⟨r, pc⟩ → tick i d r pc = some (d', t') → P d' t') {t : Thread V}
    (h : P d t) (hs : settle i n d t = some (d', r')) : P d' ⟨r', .idle⟩ := by
  induction n generalizing d t with
  | zero =>
    obtain ⟨r, pc⟩ := t
    cases pc <;> cases hs
    exact h
  | succ n ih =>
    obtain ⟨r, pc⟩ := t
    by_cases hpc : pc = .idle
    · subst hpc
      cases hs
      exact h
    · rw [settle_succ hpc] at hs
      obtain ⟨⟨d₁, t₁⟩, ht, hn⟩ := Option.bind_eq_some_iff.mp hs
      exact ih (hP d r pc d₁ t₁ h ht) hn

/-- An operation that returns needs no more steps than it is given. -/
theorem settle_mono {m : Nat} {t : Thread V} (h : settle i n d t = some x) (hle : n ≤ m) :
    settle i m d t = some x := by
  induction n generalizing m d t with
  | zero =>
    obtain ⟨r, pc⟩ := t
    cases pc <;> cases h
    exact settle_idle
  | succ n ih =>
    obtain ⟨m, rfl⟩ : ∃ m', m = m' + 1 := Nat.exists_eq_add_one.mpr (Nat.zero_lt_of_lt hle)
    obtain ⟨r, pc⟩ := t
    by_cases hpc : pc = .idle
    · subst hpc
      cases h
      exact settle_idle
    · rw [settle_succ hpc] at h ⊢
      obtain ⟨y, ht, hn⟩ := Option.bind_eq_some_iff.mp h
      rw [ht]
      exact ih hn (Nat.le_of_succ_le_succ hle)

@[simp] theorem settles_idle : Settles i d ⟨r, .idle⟩ x ↔ x = (d, r) := by
  simp [Settles, eq_comm]

private theorem settles_iff {pc : Pc V} (hpc : pc ≠ .idle) :
    Settles i d ⟨r, pc⟩ x ↔ ∃ y, tick i d r pc = some y ∧ Settles i y.1 y.2 x := by
  constructor
  · rintro ⟨n, hn⟩
    cases n with
    | zero => cases pc <;> first | exact absurd rfl hpc | cases hn
    | succ n =>
      rw [settle_succ hpc] at hn
      obtain ⟨y, hy, hn⟩ := Option.bind_eq_some_iff.mp hn
      exact ⟨y, hy, n, hn⟩
  · rintro ⟨y, hy, n, hn⟩
    refine ⟨n + 1, ?_⟩
    rw [settle_succ hpc, hy]
    exact hn

end Settle

section Operations
variable {i : ι} {d : InternalData ι V} {r : Reservation V} {x : InternalData ι V × Reservation V}

theorem reserve_settles (h : d.reservedSize < maximumTableCount) :
    Settles i d ⟨r, .reserve⟩ x ↔ x = (d.grant (d.reservedSize + 1),
      ⟨true, some ⟨d.nextTable, default⟩, false, npos, none⟩) := by
  simp [settles_iff, tick, show ¬ maximumTableCount < d.reservedSize + 1 by omega]

theorem acquire_settles {b : Bool} {k : Nat} {p : TablePtr V} (h : d.tables k = some p) :
    Settles i d ⟨r, .acquire b k⟩ x ↔
      (d.tableLocks k).free ∧ x = (d.lock k i, ⟨true, some p, b, k, some k⟩) := by
  simp [settles_iff, tick, h]

theorem acquire_settles_empty {b : Bool} {k : Nat} (h : d.tables k = none) :
    Settles i d ⟨r, .acquire b k⟩ x ↔
      (d.tableLocks k).free ∧ x = ((d.lock k i).unlock k, .closed) := by
  simp [settles_iff, tick, h]

theorem alter_settles : Settles i d ⟨r, .alterStore⟩ x ↔
    x = ((d.store r.index r.table).unlock r.index, { r with lock := none }) := by
  simp [settles_iff, tick]

theorem dropLast_settles (h : d.tableCount = r.index + 1) : Settles i d ⟨r, .dropTest⟩ x ↔
    x = (((((d.store r.index none).setTableCount r.index).setReservedSize
      (decrement d.reservedSize)).setMoved r.index npos).unlock r.index,
        { r with lock := none }) := by
  simp [settles_iff, tick, h]

theorem dropMoved_settles {l : Nat} (h : d.tableCount = l + 1) (hne : r.index ≠ l)
    (hl : l < maximumTableCount) (hs : (d.tables l).isSome) :
    Settles i d ⟨r, .dropTest⟩ x ↔ (d.tableLocks l).free ∧
      x = ((((((((d.lock l i).store r.index (d.tables l)).unlock r.index).setTableCount
        l).setReservedSize (decrement d.reservedSize)).store l none).setMoved l r.index).unlock l,
          { r with lock := none }) := by
  simp [settles_iff, tick, h, hne, hl, hs]

theorem createFirst_settles (h : d.tableCount = 0) : Settles i d ⟨r, .createRead⟩ x ↔
    (d.tableLocks 0).free ∧
      x = ((((d.lock 0 i).store 0 r.table).setTableCount 1).unlock 0, { r with index := 0 }) := by
  simp [settles_iff, tick, h, show 0 < maximumTableCount by decide]

theorem createNext_settles {n : Nat} (h : d.tableCount = n + 1) (hn : n + 1 < maximumTableCount)
    (hs : (d.tables n).isSome) : Settles i d ⟨r, .createRead⟩ x ↔
      (d.tableLocks n).free ∧ (d.tableLocks (n + 1)).free ∧
        x = ((((((d.lock n i).lock (n + 1) i).store (n + 1) r.table).setTableCount
          (n + 2)).unlock (n + 1)).unlock n, { r with index := n + 1 }) := by
  simp [settles_iff, tick, h, hn, hs, show n < maximumTableCount by omega]

end Operations
end PStress.Metadata
