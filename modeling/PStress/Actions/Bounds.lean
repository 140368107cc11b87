import PStress.Actions.Conduct

/-! The indices actions pass and the bounds they draw between. An action that picks an index in a
container that is not empty stays inside the arrays, whatever the others do in between. -/
namespace PStress.Actions
open Interaction Interleaving Metadata Program
variable {ι : Type} [DecidableEq ι]

/-- The index is below `maximum_table_count`, as the comments in `alterTable`, `dropTable` and
`operator[]` ask, and bounds are in order. -/
def Request.InRange : Request → Prop
  | .alterTable idx | .dropTable idx | .lookup idx => idx < maximumTableCount
  | .random _ min max => min ≤ max
  | _ => True

def Action.Configured : Action → Prop
  | .alterTable config _ => 1 ≤ config.max_alter_clauses
  | .deleteData config => config.deleteMin ≤ config.deleteMax
  | _ => True

instance : (a : Action) → Decidable a.Configured
  | .alterTable config _ => inferInstanceAs (Decidable (1 ≤ config.max_alter_clauses))
  | .deleteData config => inferInstanceAs (Decidable (config.deleteMin ≤ config.deleteMax))
  | .createTable _ | .dropTable _ | .insertData .. | .updateOneRow | .customSql _ =>
    inferInstanceAs (Decidable True)

/-- The container is not empty when an action reads `size()` to bound an index. -/
def BoundNonEmpty (s : State ι) : Label ι → Prop
  | .go i _ => (s.workers i).program.head = some (.size .bound) → s.metadata.data.tableCount ≠ 0
  | .begin .. | .tick _ => True

instance (s : State ι) : (l : Label ι) → Decidable (BoundNonEmpty s l)
  | .go .. => inferInstanceAs (Decidable (_ → _ ≠ 0))
  | .begin .. | .tick _ => inferInstanceAs (Decidable True)

def Request.DrawsNumber : Request → Prop
  | .random .. => True
  | _ => False

def inRange : Contract where
  stored _ := True
  draws _ _ := True
  counts use n := n ≤ maximumTableCount ∧ (use = .bound → n ≠ 0)
  asks a q := (∃ b, a = some b ∧ (b.creates = true ∨ q.DrawsNumber ∧ ¬ b.Configured)) ∨ q.InRange

theorem inRange_lenient (a : Option Action) : inRange.Lenient a where
  plain q hq := by
    refine .inr ?_
    cases q with
    | random | alterTable | dropTable | lookup => cases hq
    | _ => trivial
  ordered h := .inr h
  index {n v} hn hv := by
    obtain ⟨hle, hne⟩ := hn
    have hdec : decrement n = n - 1 := decrement_of_pos (Nat.pos_of_ne_zero (hne rfl))
    have hmax : maximumTableCount = 200 := rfl
    obtain ⟨_, hv⟩ := Drawn.toSize_between hv (by omega) (Nat.zero_le _)
    have hlt : toSize v < maximumTableCount := by
      have := Nat.pos_of_ne_zero (hne rfl)
      omega
    exact ⟨.inr hlt, .inr hlt, .inr hlt⟩

private theorem asks_configured {a : Action} {type : NumType} {min max : Int}
    (h : a.Configured → min ≤ max) : inRange.asks (some a) (.random type min max) := by
  by_cases ha : a.Configured
  · exact .inr (h ha)
  · exact .inl ⟨a, rfl, .inr ⟨trivial, ha⟩⟩

private theorem inRange_kept (a : Action) (n : Nat) :
    inRange.Kept (some a) .closed (a.execute n) := by
  have hl := inRange_lenient (some a)
  cases a with
  | createTable config =>
    exact Contract.kept_create hl (.inl ⟨_, rfl, .inl rfl⟩) (fun _ _ _ _ _ _ _ => trivial) n
  | dropTable config => exact Contract.kept_drop hl n
  | alterTable config commands =>
    exact Contract.kept_alter hl (asks_configured Int.ofNat_le.mpr) (fun _ _ _ _ => trivial) n
  | insertData table rows => exact Contract.kept_insert hl n
  | deleteData config => exact Contract.kept_delete hl (asks_configured Int.ofNat_le.mpr) n
  | updateOneRow => exact Contract.kept_update hl n
  | customSql c => exact Contract.kept_custom hl n

omit [DecidableEq ι] in
/-- The requests of a worker whose program keeps its side. -/
theorem Contract.Holds.asks {c : Contract} {s : State ι} (h : c.Holds s) {i : ι} {q : Request}
    (hq : (s.workers i).program.head = some q) : c.asks (s.workers i).action q := by
  obtain ⟨k, hk⟩ := head_eq_some hq
  obtain ⟨e, he⟩ : ∃ e, c.Outcome (s.metadata.threads i) e := by
    unfold Contract.Outcome
    split <;> first | exact ⟨_, rfl⟩ | exact ⟨_, .inl rfl⟩
  have hkept := h.kept i e he
  rw [hk] at hkept
  exact hkept.1.1

variable [Fintype ι]

/-- Actions never address a slot outside the arrays: in every run in which indices are picked
while the container is not empty, each index a worker passes is in range, and each pair of bounds
is in order if those of its configuration are. -/
theorem requests_in_range {g : GapFree Table} {s : State ι} {i : ι} {a : Action} {q : Request}
    (h : Reach step BoundNonEmpty (.at g.data) s) (ha : (s.workers i).action = some a)
    (hcreates : a.creates = false) (hdraws : q.DrawsNumber → a.Configured)
    (hq : (s.workers i).program.head = some q) : q.InRange := by
  have allows (s : State ι) (l : Label ι) (hr : Reach step BoundNonEmpty (.at g.data) s)
      (hl : BoundNonEmpty s l) : inRange.Allows s l := by
    refine ⟨fun i a n _ => inRange_kept a n, ?_, fun _ _ _ _ _ _ _ => trivial⟩
    rintro i x use rfl hp
    have hcounted := (counted_start g).of_reach (allOwned_start g) (reach_metadata hr)
    have hbound := hcounted.bound
    refine ⟨by omega, ?_⟩
    rintro rfl
    exact hl hp
  have holds := Contract.holds_of_reach (c := inRange) (fun _ _ => trivial) allows h
  obtain ⟨b, hb, hleft⟩ | hin := holds.asks hq
  · cases ha.symm.trans hb
    obtain hc | ⟨hdraw, hn⟩ := hleft
    · cases hcreates.symm.trans hc
    · exact absurd (hdraws hdraw) hn
  · exact hin

def pickToAlter (v : Int) : List (Label Unit) :=
  [.begin () (.alterTable {} .allSet) 0, .go () .none, .go () (.drawn v)]

def asking (s : State Unit) : Option Bool × Option Request :=
  ((s.workers ()).action.map Action.creates, (s.workers ()).program.head)

theorem requests_in_range_alter : ∃ s : State Unit,
    execute step BoundNonEmpty (pickToAlter 1) (.at twoTables.data) = some s ∧
      asking s = (some false, some (.alterTable 1)) ∧ (Request.alterTable 1).InRange := by
  obtain ⟨s, he, hs⟩ := Option.map_eq_some_iff.mp
    (show (execute step BoundNonEmpty (pickToAlter 1) (.at twoTables.data)).map asking =
      some (some false, some (.alterTable 1)) by decide +kernel)
  obtain ⟨ha, hq⟩ := Prod.mk.inj hs
  obtain ⟨a, hsome, hcreates⟩ := Option.map_eq_some_iff.mp ha
  exact ⟨s, he, hs, requests_in_range (reach_of_execute _ he) hsome hcreates (fun hd => hd.elim)
    hq⟩

/-- On an empty container the bounds of the index become `0` and `-1`, and the distribution may
return anything. -/
theorem index_outside_arrays : ∃ (s : State Unit) (q : Request),
    Reach step always (.at GapFree.empty.data) s ∧
      (s.workers ()).action.map Action.creates = some false ∧
      (s.workers ()).program.head = some q ∧ ¬ q.InRange := by
  obtain ⟨s, he, hs⟩ := Option.map_eq_some_iff.mp
    (show (execute step always (pickToAlter 5000) (.at GapFree.empty.data)).map asking =
      some (some false, some (.alterTable 5000)) by decide +kernel)
  obtain ⟨ha, hq⟩ := Prod.mk.inj hs
  exact ⟨s, _, reach_of_execute _ he, ha, hq, by simp [Request.InRange, maximumTableCount]⟩

end PStress.Actions
