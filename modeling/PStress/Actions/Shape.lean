import PStress.Actions.Conduct

/-! The shape of stored tables, which the DML actions rely on: a serial key column, then at least
one ordinary column. It is kept as long as the bounds of draws are in order as numbers of type
`int`. -/
namespace PStress.Actions
open Interaction Interleaving Metadata Program
variable {ι : Type} [DecidableEq ι]

def Table.Keyed (t : Table) : Prop := 2 ≤ t.columns.length ∧ Shaped t.columns

/-- Bounds in order, with a positive lower one, are in order after their conversion to `int`. -/
def OrderKept (min max : Int) : Prop := 0 < min → min ≤ max → narrow min ≤ narrow max

instance (min max : Int) : Decidable (OrderKept min max) :=
  inferInstanceAs (Decidable (_ → _))

def Request.InOrder : Request → Prop
  | .random _ min max => OrderKept min max
  | _ => True

instance : (q : Request) → Decidable q.InOrder
  | .random _ min max => inferInstanceAs (Decidable (OrderKept min max))
  | .size _ | .createTable | .alterTable _ | .dropTable _ | .lookup _ | .isOpen | .table | .index
  | .write _ | .complete | .real | .executeQuery _ => inferInstanceAs (Decidable True)

/-- A CREATE may make at least two columns. -/
def Action.WideEnough : Action → Prop
  | .createTable config => 2 ≤ config.max_column_count
  | _ => True

instance : (a : Action) → Decidable a.WideEnough
  | .createTable config => inferInstanceAs (Decidable (2 ≤ config.max_column_count))
  | .dropTable _ | .alterTable .. | .insertData .. | .deleteData _ | .updateOneRow
  | .customSql _ => inferInstanceAs (Decidable True)

/-- When a number is drawn, its bounds keep their order. The column count is drawn between 2 and
`max_column_count`, the column to drop between 1 and the last one, the number of subcommands from 1
on, and the rows of a DELETE between the bounds of its configuration. -/
def DrawsInOrder (s : State ι) : Label ι → Prop
  | .begin _ a _ => a.WideEnough
  | .go i _ => ∀ q ∈ (s.workers i).program.head, q.InOrder
  | .tick _ => True

instance (s : State ι) : (l : Label ι) → Decidable (DrawsInOrder s l)
  | .begin _ a _ => inferInstanceAs (Decidable a.WideEnough)
  | .go i _ => inferInstanceAs (Decidable (∀ q ∈ (s.workers i).program.head, q.InOrder))
  | .tick _ => inferInstanceAs (Decidable True)

def keyed : Contract where
  stored := Table.Keyed
  draws := OrderKept
  counts _ _ := True
  asks _ _ := True

private theorem keyed_lenient (a : Option Action) : keyed.Lenient a :=
  ⟨fun _ _ => trivial, fun _ => trivial, fun _ _ => ⟨trivial, trivial, trivial⟩⟩

theorem Shaped.eraseIdx {columns : List Column} (h : Shaped columns) {k : Nat} (hk : 0 < k) :
    Shaped (columns.eraseIdx k) := by
  intro j col hj
  rw [List.getElem?_eraseIdx] at hj
  split at hj
  · exact h j col hj
  · have hcol := h (j + 1) col hj
    rw [if_neg (Nat.succ_ne_zero j)] at hcol
    rwa [if_neg (by omega)]

private theorem AlterTable.Altered.shaped {columns : List Column} {st : AlterTable.Progress}
    (h : AlterTable.Altered OrderKept columns st) (hlen : 2 ≤ columns.length)
    (hs : Shaped columns) : 2 ≤ st.columns.length ∧ Shaped st.columns ∧
      ∀ c ∈ st.newColumns, c.Ordinary := by
  induction h with
  | start => exact ⟨hlen, hs, by simp⟩
  | @apply st clause _ hfit ih =>
    obtain ⟨hlen, hs, hnew⟩ := ih
    cases clause with
    | addColumn column =>
      refine ⟨hlen, hs, fun c hc => ?_⟩
      obtain hc | rfl : c ∈ st.newColumns ∨ c = column := by
        simpa [AlterTable.Progress.apply] using hc
      · exact hnew c hc
      · exact hfit
    | dropColumn k =>
      obtain ⟨h3, hlt, v, hv, hd, rfl⟩ := hfit
      have hlast : decrement st.columns.length = st.columns.length - 1 :=
        decrement_of_pos (by omega)
      have hpos : 1 ≤ toSize v :=
        Drawn.le_toSize hv (by decide) (hd (by decide) (by omega))
      simp only [AlterTable.Progress.apply, List.getElem?_eq_getElem hlt]
      exact ⟨by rw [List.length_eraseIdx_of_lt hlt]; omega, hs.eraseIdx hpos, hnew⟩
    | changeColumn =>
      simp only [AlterTable.Progress.apply]
      split <;> exact ⟨hlen, hs, hnew⟩
    | setAccessMethod | nothing => exact ⟨hlen, hs, hnew⟩

theorem keyed_alter (t : Table) (st : AlterTable.Progress) (ht : t.Keyed)
    (h : AlterTable.Altered OrderKept t.columns st) :
    Table.Keyed { t with columns := st.columns ++ st.newColumns } := by
  obtain ⟨hlen, hs, hnew⟩ := h.shaped ht.1 ht.2
  refine ⟨by simp only [List.length_append]; omega, fun k col hk => ?_⟩
  rw [List.getElem?_append] at hk
  split at hk
  · exact hs k col hk
  · rw [if_neg (by omega)]
    exact hnew col (List.mem_of_getElem? hk)

theorem keyed_create {max : Nat} {v : Int} (name : String) (columns : List Column)
    (hv : Drawn 2 max v) (hd : OrderKept 2 max) (hmax : 2 ≤ max)
    (hlen : columns.length = toSize v) (hs : Shaped columns) : Table.Keyed ⟨name, columns⟩ := by
  have htwo : 2 ≤ toSize v := Drawn.le_toSize hv (by decide) (hd (by decide) (by omega))
  exact ⟨hlen ▸ htwo, hs⟩

private theorem keyed_kept {a : Action} (h : a.WideEnough) (n : Nat) :
    keyed.Kept (some a) .closed (a.execute n) := by
  have hl := keyed_lenient (some a)
  cases a with
  | createTable config =>
    exact Contract.kept_create hl trivial
      (fun name new v hv hd => keyed_create name new hv hd h) n
  | dropTable config => exact Contract.kept_drop hl n
  | alterTable config commands => exact Contract.kept_alter hl trivial keyed_alter n
  | insertData table rows => exact Contract.kept_insert hl n
  | deleteData config => exact Contract.kept_delete hl trivial n
  | updateOneRow => exact Contract.kept_update hl n
  | customSql c => exact Contract.kept_custom hl n

/-- In every run from an empty container whose draws keep the order of their bounds, each stored
table has at least two columns, of which the first and no other is a serial key. -/
theorem stored_tables_keyed {s : State ι} (h : Reach step DrawsInOrder (.at GapFree.empty.data) s)
    {k : Nat} {p : TablePtr Table} (hp : s.metadata.data.tables k = some p) : p.value.Keyed := by
  have allows (s : State ι) (l : Label ι) (hl : DrawsInOrder s l) : keyed.Allows s l := by
    refine ⟨?_, fun _ _ _ _ _ => trivial, ?_⟩
    · rintro i a n rfl
      exact keyed_kept hl n
    · rintro i x type min max rfl hq
      exact hl _ hq
  have holds := Contract.holds_of_reach (c := keyed) (fun _ hp => by simp [GapFree.empty] at hp)
    (fun s l _ hl => allows s l hl) h
  exact holds.tables k p hp

def create (config : DdlConfig) (draws : List Int) : List (Label Unit) :=
  [.begin () (.createTable config) 0, .go () .none, .go () .none, .tick (), .go () .none] ++
    draws.map (fun v => .go () (.drawn v)) ++
    [.go () .none, .go () (.sql (.returned .success)), .go () .none, .go () .none] ++
    List.replicate 4 (.tick ())

def stored (s : State Unit) : Option Table := (s.metadata.data.tables 0).map TablePtr.value

/-- A worker creates a table of two columns. -/
theorem stored_tables_keyed_create : ∃ (s : State Unit) (p : TablePtr Table),
    execute step DrawsInOrder (create {} [1, 2, 7, 8, 0]) (.at GapFree.empty.data) = some s ∧
      s.metadata.data.tables 0 = some p ∧ p.value.Keyed := by
  obtain ⟨s, he, hs⟩ := Option.map_eq_some_iff.mp
    (show (execute step DrawsInOrder (create {} [1, 2, 7, 8, 0])
      (.at GapFree.empty.data)).map (fun s => (stored s).isSome) = some true by decide +kernel)
  obtain ⟨p, hp⟩ := Option.isSome_iff_exists.mp hs
  obtain ⟨q, hq, _⟩ := Option.map_eq_some_iff.mp hp
  exact ⟨s, q, he, hq, stored_tables_keyed (reach_of_execute _ he) hq⟩

/-- With a `max_column_count` of `2^32` the bounds become 2 and 0, and a table without columns is
stored. -/
theorem table_without_key : ∃ (config : DdlConfig) (s : State Unit) (k : Nat)
    (p : TablePtr Table), 2 ≤ config.max_column_count ∧
      Reach step (RunsDdl config) (.at GapFree.empty.data) s ∧
      s.metadata.data.tables k = some p ∧ ¬ p.value.Keyed := by
  obtain ⟨s, he, hs⟩ := Option.map_eq_some_iff.mp
    (show (execute step (RunsDdl { max_column_count := 4294967296 })
      (create { max_column_count := 4294967296 } [1, 0])
      (.at GapFree.empty.data)).map (fun s => (stored s).map fun t => t.columns.length) =
        some (some 0) by decide +kernel)
  obtain ⟨t, ht, hlen⟩ := Option.map_eq_some_iff.mp hs
  obtain ⟨p, hp, rfl⟩ := Option.map_eq_some_iff.mp ht
  refine ⟨_, s, 0, p, by decide, reach_of_execute _ he, hp, fun hk => ?_⟩
  have htwo := hk.1
  omega

end PStress.Actions
