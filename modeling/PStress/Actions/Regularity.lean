import PStress.Actions.Creations
import PStress.Actions.Matching
import PStress.Actions.Shape

/-! Stored tables are such as INSERT and UPDATE rely on: CREATE and ALTER draw their names and their
columns, and nothing else makes any. -/
namespace PStress.Actions
open Interaction Interleaving Metadata Program Text
variable {ι : Type} {D : Int → Int → Prop}

/-- A column as it is drawn, whether a CREATE or an ALTER does so. -/
def Column.Plain (col : Column) : Prop := Word col.name ∧ col.length ≤ 100

/-- A table with a serial key, named by letters and digits throughout, and with lengths as they are
drawn. -/
structure Table.Proper (t : Table) : Prop where
  keyed : t.Keyed
  name : Word t.name
  columns : ∀ col ∈ t.columns, col.Plain

theorem Table.Proper.regular {t : Table} (h : t.Proper) : Regular t where
  name := h.name
  names col hc := (h.columns col hc).1
  wide := h.keyed.1
  serial k col hk := by
    have hshape := h.keyed.2 k col hk
    by_cases hzero : k = 0
    · rw [if_pos hzero] at hshape
      simp [hzero, hshape.2.2]
    · rw [if_neg hzero] at hshape
      simp [hzero, hshape.2]
  lengths col hc := (h.columns col hc).2

section Drawing

private theorem word_column (number : Nat) : Word s!"col{number}" :=
  word_number ⟨by decide, List.all_eq_true.mp rfl⟩ number

theorem word_table {number : Int} (h : Drawn 1 1000000 number) : Word s!"foo{number}" := by
  obtain ⟨hl, _⟩ := h.between (by decide) (by decide) (by decide)
  obtain ⟨n, rfl⟩ := Int.eq_ofNat_of_zero_le (by omega : 0 ≤ number)
  exact word_number (show Word "foo" from ⟨by decide, List.all_eq_true.mp rfl⟩) n

private theorem draws_plain : Draws D Column.Plain (randomColumn false) :=
  draws_column fun number _ _ hl => ⟨word_column number, hl⟩

/-- A CREATE draws a serial column and then ordinary ones, all of them plain. -/
theorem draws_new (n : Nat) (columns : List Column) :
    Draws D (fun all => ∃ new, all = columns ++ new ∧ new.length = n ∧ Shaped new ∧
      ∀ col ∈ new, col.Plain) (CreateTable.randomColumns n columns) := by
  have hplain (k : Nat) : Draws D (fun col => col.Plain) (randomColumn (k == 0)) := by
    cases k with
    | zero => exact draws_serial fun number => ⟨word_column number, Nat.zero_le _⟩
    | succ k => exact draws_plain
  refine ((draws_randomColumns n columns).and (draws_columns hplain n columns)).weaken ?_
  rintro _ ⟨⟨new, rfl, hlen, hshaped⟩, new', hsame, _, hnew⟩
  obtain rfl := List.append_cancel_left hsame
  refine ⟨new, rfl, hlen, hshaped, fun col hc => ?_⟩
  obtain ⟨k, hk⟩ := List.mem_iff_getElem?.mp hc
  exact hnew k col hk

/-- A clause leaves plain columns, and adds such. -/
theorem AlterTable.Progress.plain {st : AlterTable.Progress} {clause : AlterTable.Clause}
    (h : ∀ col ∈ st.columns ++ st.newColumns, col.Plain)
    (hc : ∀ col, clause = .addColumn col → col.Plain) :
    ∀ col ∈ (st.apply clause).columns ++ (st.apply clause).newColumns, col.Plain := by
  intro col hmem
  cases clause with
  | addColumn column =>
    obtain hmem | rfl : col ∈ st.columns ++ st.newColumns ∨ col = column := by
      simpa [AlterTable.Progress.apply, or_assoc] using hmem
    · exact h col hmem
    · exact hc col rfl
  | dropColumn k =>
    simp only [AlterTable.Progress.apply] at hmem
    split at hmem
    · exact h col ((List.eraseIdx_sublist ..).append_right _ |>.subset hmem)
    · exact h col hmem
  | changeColumn =>
    simp only [AlterTable.Progress.apply] at hmem
    split at hmem <;> exact h col hmem
  | setAccessMethod | nothing => exact h col hmem

private theorem draws_altered (config : DdlConfig) (commands : List AlterSubcommand)
    {columns : List Column} (h : ∀ col ∈ columns, col.Plain) (n : Nat) :
    Draws D (fun st => AlterTable.Altered D columns st ∧
        ∀ col ∈ st.columns ++ st.newColumns, col.Plain)
      (times (AlterTable.subcommand config commands) n ⟨columns, [], [], false⟩) := by
  refine (draws_subcommands config commands columns n).and ?_
  refine .times (I := fun _ (st : AlterTable.Progress) =>
    ∀ col ∈ st.columns ++ st.newColumns, col.Plain) (fun _ st hst => ?_) n (by simpa using h)
  refine (AlterTable.draws_clause draws_plain config commands _ _).bind fun clause hc => ?_
  exact .done (AlterTable.Progress.plain hst hc.1)

end Drawing

def proper : Contract where
  stored := Table.Proper
  draws := OrderKept
  counts _ _ := True
  asks _ _ := True

private theorem proper_lenient (a : Option Action) : proper.Lenient a :=
  ⟨fun _ _ => trivial, fun _ => trivial, fun _ _ => ⟨trivial, trivial, trivial⟩⟩

section Callbacks
variable {config : DdlConfig} {a : Option Action}

private theorem proper_create (hwide : 2 ≤ config.max_column_count) (h : Handle)
    (hh : h = .closed ∨ h = .creating default) : proper.Callback a h (CreateTable.body config) := by
  have hl := proper_lenient a
  refine Contract.keeps_table hl (fun ht => by cases ht) fun t hpoints => ?_
  refine Contract.keeps_draw hl (draws_randomInt (by decide)) (fun ht => by cases ht)
    fun number hnumber => ?_
  refine Contract.keeps_random trivial fun v hv hd => ?_
  refine Contract.keeps_draw hl (draws_new (toSize v) t.columns) (fun ht => by cases ht)
    fun columns hcolumns => ?_
  refine Contract.keeps_write hl ?_
  have hready : proper.ready (h.write ⟨s!"foo{number}", columns⟩) := by
    obtain rfl | rfl := hh
    · trivial
    · obtain ⟨new, rfl, hlen, hshaped, hplain⟩ := hcolumns
      cases hpoints
      exact ⟨keyed_create _ _ hv hd hwide hlen hshaped, word_table hnumber, hplain⟩
  refine Contract.keeps_executeQuery hl (fun _ => hready) ?_
  exact Contract.keeps_complete hl hready trivial fun _ _ => trivial

private theorem proper_alter {commands : BitFlags} (h : Handle)
    (hh : h = .closed ∨ ∃ t, proper.stored t ∧ h = .altering t) :
    proper.Callback a h (AlterTable.body config commands) := by
  have hl := proper_lenient a
  refine Contract.keeps_isOpen hl ?_
  obtain rfl | ⟨t, hst, rfl⟩ := hh
  · trivial
  · refine Contract.keeps_table hl (fun ht => by cases ht) fun t' hpoints => ?_
    cases hpoints
    refine Contract.keeps_random trivial fun v _ _ => ?_
    refine Contract.keeps_draw hl (draws_altered config commands.all hst.columns (toSize v))
      (fun ht => by cases ht) fun st halt => ?_
    refine Contract.keeps_write hl
      (Contract.keeps_table hl (fun ht => by cases ht) fun t' _ => ?_)
    have hready : proper.ready
        (.altering { t with columns := st.columns ++ st.newColumns }) :=
      ⟨keyed_alter t st hst.keyed halt.1, hst.name, halt.2⟩
    refine Contract.keeps_executeQuery hl (fun _ => hready) ?_
    exact Contract.keeps_complete hl hready trivial fun _ _ => trivial

private theorem proper_kept {a : Action} (h : a.WideEnough) (n : Nat) :
    proper.Kept (some a) .closed (a.execute n) := by
  have hl := proper_lenient (some a)
  cases a with
  | createTable config =>
    refine Contract.keeps_size hl fun size _ => ?_
    split
    · rfl
    · exact (Contract.kept_createTable hl (proper_create h)).ignore
  | dropTable config => exact Contract.kept_drop hl n
  | alterTable config commands =>
    refine Contract.keeps_size hl fun size _ => ?_
    refine Contract.keeps_random trivial fun v _ _ => ?_
    exact (Contract.kept_alterTable hl trivial proper_alter).ignore
  | insertData table rows => exact Contract.kept_insert hl n
  | deleteData config => exact Contract.kept_delete hl trivial n
  | updateOneRow => exact Contract.kept_update hl n
  | customSql c => exact Contract.kept_custom hl n

end Callbacks

variable [DecidableEq ι] {guard : State ι → Label ι → Prop} {g : GapFree Table} {s : State ι}

/-- Every table that a run of the workers stores is proper. -/
theorem proper_of_reach (hg : ∀ p ∈ g.tables, p.value.Proper)
    (hguard : ∀ s l, guard s l → DrawsInOrder s l) (h : Reach step guard (.at g.data) s)
    {k : Nat} {p : TablePtr Table} (hp : s.metadata.data.tables k = some p) : p.value.Proper := by
  have allows (s : State ι) (l : Label ι) (hl : DrawsInOrder s l) : proper.Allows s l := by
    refine ⟨?_, fun _ _ _ _ _ => trivial, ?_⟩
    · rintro i a n rfl
      exact proper_kept hl n
    · rintro i x type min max rfl hq
      exact hl _ hq
  have holds := Contract.holds_of_reach (c := proper) hg
    (fun s l _ hl => allows s l (hguard s l hl)) h
  exact holds.tables k p hp

end PStress.Actions
