import PStress.Actions.Recorded
import PStress.Actions.Clauses

/-! DDL actions whose statement fails. The exception destroys an open reservation, and its
destructor completes it: the metadata is changed all the same, except by an ALTER whose clauses
leave the columns as they were. -/
namespace PStress.Actions
open Interaction Interleaving Metadata Program
variable {ι : Type} [DecidableEq ι] {i : ι} {steps : Nat} {α β : Type}

/-- The random choices of a CREATE: the number in its table's name, that of the columns, and the
columns. -/
def CreateTable.Chooses (config : DdlConfig) (w : World ι) (number count : Int)
    (columns : List Column) : Prop :=
  ∃ rest rest', w.inputs = .drawn number :: .drawn count :: rest ∧ Drawn 1 1000000 number ∧
    Drawn 2 config.max_column_count count ∧
    (randomColumns (toSize count) []).run drawFrom rest = some (.ok columns, rest')

def CreateTable.Executed (config : DdlConfig) (w : World ι) (x : World ι × List String) : Prop :=
  ∃ number count columns p, Chooses config w number count columns ∧
    p.value = ⟨s!"foo{number}", columns⟩ ∧ x.2 = [statement p.value] ∧
    x.1.data.tables = Function.update w.data.tables w.data.tableCount (some p) ∧
    x.1.data.tableCount = w.data.tableCount + 1

/-- A CREATE stores its table just if it sends its statement, whatever becomes of that. -/
theorem creates (config : DdlConfig) (w : World ι) :
    Keeps (handled (recorded i steps))
      (fun _ x => x.2 = [] ∨ CreateTable.Executed config w x)
      (fun e x => e ≠ .thrown ∧ x.2 = [] ∨ CreateTable.Executed config w x) (w, [])
      (CreateTable.execute config) := by
  refine reported_perform rfl fun n w₀ h => ?_
  obtain ⟨rfl, hw⟩ := alone_size h
  rw [hw]
  change Keeps _ _ _ _ (if config.max_table_count ≤ _ then _ else _)
  split
  · exact .inl rfl
  refine keeps_bind.mpr (reported_perform rfl fun u w₁ h => ?_)
  obtain ⟨htables, hcount, hinputs, hres⟩ := alone_createTable h
  refine reported_callback (P := fun x => x.2 = [] ∨ CreateTable.Executed config w x) ?_
  have hundefined (w' : World ι) : (fun e (x : World ι × List String) =>
      e ≠ Halt.thrown ∧ x.2 = [] ∨ CreateTable.Executed config w x) .undefined (w', []) :=
    .inl ⟨by decide, rfl⟩
  refine reported_perform rfl fun p w₂ h => ?_
  obtain ⟨rfl, hw⟩ := alone_table h
  rw [hw]
  refine reported_deref (hundefined _) fun t ht => ?_
  obtain hclosed | hopen := hres
  · simp [hclosed, Reservation.closed] at ht
  obtain ⟨d, res, inputs⟩ := w₁
  obtain rfl : res = _ := hopen
  obtain rfl : default = t := by simpa using ht
  refine reported_random fun number r₁ hnumber => ?_
  refine reported_randomSize fun count r₂ hn => ?_
  refine reported_draws (draws_randomColumns _ _) hundefined fun columns r₃ hcolumns => ?_
  refine reported_perform rfl fun u w₂ h => ?_
  obtain ⟨rfl, _⟩ := alone_write h
  obtain ⟨hin, hname⟩ := drawFrom_random hnumber
  obtain ⟨hin', hwide⟩ := drawFrom_random hn
  have hchooses : CreateTable.Chooses config w number count columns := by
    refine ⟨r₂, r₃, ?_, hname, hwide, hcolumns⟩
    rw [← hinputs, hin, show r₁ = .drawn count :: r₂ from hin']
  let p : TablePtr Table := ⟨w.data.nextTable, ⟨s!"foo{number}", columns⟩⟩
  -- the table is stored when the reservation is completed, here or by its destructor
  have hstored (rest : List Input) (w' : World ι)
      (h : alone i steps .complete ⟨d, ⟨true, some p, false, npos, none⟩, rest⟩ = some ((), w')) :
      CreateTable.Executed config w (w', [CreateTable.statement p.value]) ∧
        w'.res.isOpen = false := by
    obtain ⟨hk, hput, hnext, hres⟩ := alone_complete_create h ⟨rfl, rfl, rfl, rfl, rfl⟩
    refine ⟨⟨number, count, columns, p, hchooses, rfl, rfl, ?_, ?_⟩, ?_⟩
    · rw [hput, htables, hcount]
    · rw [hnext, hcount]
    · rw [hres]
      simp [Reservation.isOpen, (hk.trans maximumTableCount_lt_npos).ne]
  refine recorded_statement fun r₄ => ⟨?_, reported_completes rfl fun w' h => ?_⟩
  · exact unwound_of_open rfl fun w' h => .inr (hstored r₄ w' h).1
  · obtain ⟨hcreated, hclosed⟩ := hstored r₄ w' h
    exact destroyed_of_closed hclosed (.inr hcreated)

/-- A CREATE whose statement fails has stored its table. -/
private theorem failed_create (config : DdlConfig) (w : World ι) :
    Keeps (handled (alone i steps)) (fun _ _ => True)
      (fun e w' => e = .thrown → w'.data.tableCount = w.data.tableCount + 1) w
      (CreateTable.execute config) := by
  refine keeps_of_recorded ((creates config w).mono (fun _ _ _ => trivial) fun e x h he => ?_)
  obtain ⟨hne, _⟩ | ⟨number, count, columns, p, _, _, _, _, hnext⟩ := h
  · exact absurd he hne
  · exact hnext

/-- A DROP whose statement fails has removed its table. -/
private theorem failed_drop (config : DdlConfig) (w : World ι) :
    Keeps (handled (alone i steps)) (fun _ _ => True)
      (fun e w' => e = .thrown → w'.data.tableCount = decrement w.data.tableCount) w
      (DropTable.execute config) := by
  refine keeps_of_recorded ?_
  refine reported_perform rfl fun n w₀ h => ?_
  obtain ⟨rfl, hw⟩ := alone_size h
  rw [hw]
  change Keeps _ _ _ _ (if _ ≤ config.min_table_count then _ else _)
  split
  · trivial
  refine reported_perform rfl fun n w₀ h => ?_
  obtain ⟨rfl, hw⟩ := alone_size h
  rw [hw]
  refine reported_randomSize fun v r₁ _ => ?_
  refine keeps_bind.mpr (keeps_bind.mpr (reported_perform rfl fun u w₁ h => ?_))
  obtain ⟨hcount, hres⟩ := alone_dropTable h
  refine reported_callback (P := fun _ => True) ?_
  refine reported_perform rfl fun b w₂ h => ?_
  obtain ⟨rfl, hw⟩ := alone_isOpen h
  rw [hw]
  obtain hclosed | hb := hres
  · rw [hclosed]
    exact ⟨fun _ => trivial, fun _ _ _ => trivial⟩
  rw [hb.isOpen, if_pos rfl]
  refine reported_perform rfl fun p w₂ h => ?_
  obtain ⟨rfl, hw⟩ := alone_table h
  rw [hw]
  refine reported_deref (fun ht => by cases ht) fun t _ => ?_
  refine recorded_statement fun r₂ => ⟨?_, reported_completes hb.isOpen fun _ _ => ?_⟩
  · refine unwound_of_open hb.isOpen fun w' h _ => ?_
    rw [alone_complete_drop h hb, ← hcount]
  · exact ⟨fun _ => trivial, fun _ _ _ => trivial⟩

section Alter
open AlterTable

/-- The random choices make an ALTER of a table that gives back what it drops: the columns it
leaves and those it adds are the columns of the table. -/
def Undone (config : DdlConfig) (possibleCommands : BitFlags) (d : InternalData ι Table)
    (inputs : List Input) : Prop :=
  ∃ idx n rest p clauses rest', inputs = .drawn idx :: .drawn n :: rest ∧
    d.tables (toSize idx) = some p ∧
    (drawClauses config possibleCommands.all (toSize n) p.value.columns.length false).run drawFrom
      rest = some (.ok clauses, rest') ∧
    remaining p.value.columns clauses ++ added clauses = p.value.columns

/-- The random choices of an ALTER: the table it reserves and the clauses it makes. -/
def Chooses (config : DdlConfig) (possibleCommands : BitFlags) (w : World ι) (idx : Nat)
    (p : TablePtr Table) (clauses : List Clause) : Prop :=
  ∃ v n rest rest', w.inputs = .drawn v :: .drawn n :: rest ∧ idx = toSize v ∧
    w.data.tables idx = some p ∧
    (drawClauses config possibleCommands.all (toSize n) p.value.columns.length false).run drawFrom
      rest = some (.ok clauses, rest')

omit [DecidableEq ι] in
theorem Chooses.unique {config : DdlConfig} {possibleCommands : BitFlags} {w : World ι}
    {idx idx' : Nat} {p p' : TablePtr Table} {clauses clauses' : List Clause}
    (h : Chooses config possibleCommands w idx p clauses)
    (h' : Chooses config possibleCommands w idx' p' clauses') :
    idx' = idx ∧ p' = p ∧ clauses' = clauses := by
  obtain ⟨v, n, rest, rest', hin, rfl, hp, hc⟩ := h
  obtain ⟨v', n', rest₁, rest₂, hin', rfl, hp', hc'⟩ := h'
  cases hin.symm.trans hin'
  cases hp.symm.trans hp'
  cases hc.symm.trans hc'
  exact ⟨rfl, rfl, rfl⟩

def altered (columns : List Column) (clauses : List Clause) : List Column :=
  remaining columns clauses ++ added clauses

def subcommandTexts (columns : List Column) (clauses : List Clause) : List String :=
  (clauses.foldl Progress.apply ⟨columns, [], [], false⟩).alterSubcommands

omit [DecidableEq ι] in
private theorem Chooses.undone_iff {config : DdlConfig} {possibleCommands : BitFlags} {w : World ι}
    {idx : Nat} {p : TablePtr Table} {clauses : List Clause}
    (h : Chooses config possibleCommands w idx p clauses) :
    Undone config possibleCommands w.data w.inputs ↔
      altered p.value.columns clauses = p.value.columns := by
  constructor
  · rintro ⟨_, _, _, p', clauses', rest'', hin', hp', hc', hcols⟩
    obtain ⟨_, rfl, rfl⟩ := h.unique ⟨_, _, _, _, hin', rfl, hp', hc'⟩
    exact hcols
  · intro hcols
    obtain ⟨v, n, rest, rest', hin, rfl, hp, hc⟩ := h
    exact ⟨v, n, rest, p, clauses, rest', hin, hp, hc, hcols⟩

private theorem run_subcommands {config : DdlConfig} {commands : List AlterSubcommand} {n : Nat}
    {columns : List Column} {st : Progress} {inputs rest : List Input}
    (h : (times (subcommand config commands) n ⟨columns, [], [], false⟩).run drawFrom inputs =
      some (.ok st, rest)) :
    ∃ clauses, (drawClauses config commands n columns.length false).run drawFrom inputs =
        some (.ok clauses, rest) ∧ st = clauses.foldl Progress.apply ⟨columns, [], [], false⟩ := by
  rw [times_subcommand, run_bind_done] at h
  obtain ⟨⟨o, rest'⟩, hrun, he⟩ := Option.map_eq_some_iff.mp h
  cases o with
  | error e => cases he
  | ok clauses =>
    cases he
    exact ⟨clauses, hrun, rfl⟩

omit [DecidableEq ι] in
theorem Same.trans {d₁ d₂ d₃ : InternalData ι Table} (h : Same d₁ d₂) (h' : Same d₂ d₃) :
    Same d₁ d₃ :=
  ⟨h'.1.trans h.1, h'.2.1.trans h.2.1, h'.2.2.trans h.2.2⟩

omit [DecidableEq ι] in
theorem Same.symm {d₁ d₂ : InternalData ι Table} (h : Same d₁ d₂) : Same d₂ d₁ :=
  ⟨h.1.symm, h.2.1.symm, h.2.2.symm⟩

omit [DecidableEq ι] in
private theorem same_store {d : InternalData ι Table} {k : Nat} {p : TablePtr Table}
    {columns : List Column} (hp : d.tables k = some p) :
    Same d (d.store k (some ⟨p.id, { p.value with columns }⟩)) ↔ columns = p.value.columns := by
  constructor
  · rintro ⟨h, _, _⟩
    have hk := congrFun h k
    rw [InternalData.store_tables, Function.update_self, hp] at hk
    exact congrArg (fun q : Option (TablePtr Table) => (q.map fun q => q.value.columns).getD []) hk
  · rintro rfl
    exact ⟨by rw [InternalData.store_tables, Function.update_eq_self_iff, hp], rfl, rfl⟩

def Executed (config : DdlConfig) (possibleCommands : BitFlags) (w : World ι)
    (x : World ι × List String) : Prop :=
  ∃ idx p clauses, Chooses config possibleCommands w idx p clauses ∧
    x.2 = [statement p.value (subcommandTexts p.value.columns clauses)] ∧
    Same (w.data.store idx (some ⟨p.id, { p.value with
      columns := altered p.value.columns clauses }⟩)) x.1.data

/-- An ALTER stores its table just if it sends its statement, whatever becomes of that. -/
theorem alters (config : DdlConfig) (possibleCommands : BitFlags) (w : World ι) :
    Keeps (handled (recorded i steps))
      (fun _ x => x.2 = [] ∨ Executed config possibleCommands w x)
      (fun e x => e ≠ .thrown ∧ x.2 = [] ∨ Executed config possibleCommands w x) (w, [])
      (AlterTable.execute config possibleCommands) := by
  refine reported_perform rfl fun n w₀ h => ?_
  obtain ⟨rfl, hw⟩ := alone_size h
  rw [hw]
  refine reported_randomSize fun v r₁ hv => ?_
  refine keeps_bind.mpr (keeps_bind.mpr (reported_perform rfl fun u w₁ h => ?_))
  obtain ⟨hsame, hinputs, hk, hres⟩ := alone_alterTable h
  refine reported_callback (P := fun x => x.2 = [] ∨ Executed config possibleCommands w x) ?_
  refine reported_perform rfl fun b w₂ h => ?_
  obtain ⟨rfl, hw⟩ := alone_isOpen h
  rw [hw]
  obtain hclosed | ⟨p, hp, hopen⟩ := hres
  · rw [hclosed]
    exact keeps_done.mpr (destroyed_of_closed (by rw [hclosed]; rfl) (.inl rfl))
  rw [show w₁.res.isOpen = true by rw [hopen]; rfl, if_pos rfl]
  have hundefined (w' : World ι) : (fun e (x : World ι × List String) =>
      e ≠ Halt.thrown ∧ x.2 = [] ∨ Executed config possibleCommands w x) .undefined (w', []) :=
    .inl ⟨by decide, rfl⟩
  refine reported_perform rfl fun t w₂ h => ?_
  obtain ⟨rfl, hw⟩ := alone_table h
  rw [hw, hopen]
  refine reported_deref (hundefined _) fun t ht => ?_
  obtain rfl : p.value = t := by simpa using ht
  refine reported_randomSize fun m r₂ hm => ?_
  refine reported_draws (draws_subcommands _ _ _ _) hundefined fun st r₃ hst => ?_
  refine reported_perform rfl fun u w₂ h => ?_
  obtain ⟨rfl, _⟩ := alone_write h
  refine reported_perform rfl fun t w₂ h => ?_
  obtain ⟨rfl, hw⟩ := alone_table h
  rw [hw, hopen]
  refine reported_deref (hundefined _) fun t ht => ?_
  obtain rfl : { p.value with columns := st.columns ++ st.newColumns } = t := by simpa using ht
  obtain ⟨clauses, hclauses, rfl⟩ := run_subcommands hst
  rw [foldl_columns, foldl_newColumns, List.nil_append]
  have hchooses : Chooses config possibleCommands w (toSize v) p clauses := by
    refine ⟨v, m, r₂, r₃, ?_, rfl, hp, hclauses⟩
    rw [(drawFrom_random hv).1, show r₁ = w₁.inputs from hinputs.symm, (drawFrom_random hm).1]
  have hne : toSize v ≠ npos := (hk.trans maximumTableCount_lt_npos).ne
  -- the table is stored when the reservation is completed, here or by its destructor
  have hstored (rest : List Input) (w' : World ι) (h : alone i steps .complete
      ⟨w₁.data, (⟨true, some p, false, toSize v, some (toSize v)⟩ : Reservation Table).edit fun _ =>
        { p.value with columns := altered p.value.columns clauses }, rest⟩ = some ((), w')) :
      Executed config possibleCommands w
        (w', [statement p.value (subcommandTexts p.value.columns clauses)]) ∧
      w'.res.isOpen = false := by
    obtain ⟨hput, hres⟩ := alone_complete_alter h hne rfl
    refine ⟨⟨toSize v, p, clauses, hchooses, rfl, ?_⟩, ?_⟩
    · exact Same.trans (by simp [Same, hsame.1, hsame.2.1, hsame.2.2]) hput
    · rw [hres]
      simp [Reservation.isOpen, hne]
  refine recorded_statement fun r₄ => ⟨?_, reported_completes rfl fun w' h => ?_⟩
  · exact unwound_of_open rfl fun w' h => .inr (hstored r₄ w' h).1
  · obtain ⟨haltered, hclosed⟩ := hstored r₄ w' h
    exact destroyed_of_closed hclosed (.inr haltered)

omit [DecidableEq ι] in
/-- The table an ALTER stores is the one it found just if its clauses leave the columns alone. -/
private theorem Executed.same_iff {config : DdlConfig} {possibleCommands : BitFlags} {w : World ι}
    {x : World ι × List String} (h : Executed config possibleCommands w x) :
    Same w.data x.1.data ↔ Undone config possibleCommands w.data w.inputs := by
  obtain ⟨idx, p, clauses, hchooses, _, hstored⟩ := h
  rw [hchooses.undone_iff]
  obtain ⟨_, _, _, _, _, _, hp, _⟩ := hchooses
  rw [← same_store hp]
  exact ⟨fun hs => hs.trans hstored.symm, fun hs => hs.trans hstored⟩

/-- A DDL action whose statement fails leaves the metadata as they were just if it is an ALTER
that gives back what it drops. -/
theorem unchanged_after_failure {a : Action} {config : DdlConfig} {attempts : Nat}
    {w w' : World ι} (ha : a.ddl = some config)
    (hrun : (a.execute attempts).run (alone i steps) w = some (.error .thrown, w')) :
    Same w.data w'.data ↔
      ∃ possibleCommands, a = .alterTable config possibleCommands ∧
        Undone config possibleCommands w.data w.inputs := by
  cases a with
  | createTable c =>
    have hcount := keeps_run (failed_create c w) hrun rfl
    refine ⟨fun hs => absurd (hcount.symm.trans hs.2.1) (Nat.succ_ne_self _), ?_⟩
    rintro ⟨flags, he, _⟩
    cases he
  | dropTable c =>
    have hcount := keeps_run (failed_drop c w) hrun rfl
    refine ⟨fun hs => absurd (hcount.symm.trans hs.2.1) (decrement_ne _), ?_⟩
    rintro ⟨flags, he, _⟩
    cases he
  | alterTable c flags =>
    cases ha
    have halters : Keeps (handled (alone i steps)) (fun _ _ => True)
        (fun e w' => e = .thrown → (Same w.data w'.data ↔ Undone config flags w.data w.inputs)) w
        (AlterTable.execute config flags) := by
      refine keeps_of_recorded
        ((alters config flags w).mono (fun _ _ _ => trivial) fun e x hx he => ?_)
      rcases hx with hx | hx
      · exact absurd he hx.1
      · exact hx.same_iff
    have hiff := keeps_run halters hrun rfl
    refine hiff.trans ⟨fun hu => ⟨flags, rfl, hu⟩, ?_⟩
    rintro ⟨flags', he, hu⟩
    cases he
    exact hu
  | insertData | deleteData | updateOneRow | customSql => cases ha

/-- An ALTER that changes a column leaves the table as it is when its statement fails. -/
theorem unchanged_after_failure_alter : ∃ w' : World (Fin 1),
    ((Action.alterTable {} .allSet).execute 0).run (alone 0 2)
      ⟨twoTables.data, .closed, [.drawn 1, .drawn 1, .drawn 2, .sql (.returned .error)]⟩ =
        some (.error .thrown, w') ∧ Same twoTables.data w'.data := by
  obtain ⟨⟨o, w'⟩, hrun, ho⟩ := Option.map_eq_some_iff.mp (show
    (((Action.alterTable {} .allSet).execute 0).run (alone (0 : Fin 1) 2)
      ⟨twoTables.data, .closed, [.drawn 1, .drawn 1, .drawn 2, .sql (.returned .error)]⟩).map
        Prod.fst = some (.error .thrown) by decide +kernel)
  obtain rfl : o = .error .thrown := ho
  have hclauses : (drawClauses {} BitFlags.allSet.all 1 2 false).run drawFrom
      [.drawn 2, .sql (.returned .error)] =
        some (.ok [.changeColumn], [.sql (.returned .error)]) := by
    decide +kernel
  exact ⟨w', hrun, (unchanged_after_failure rfl hrun).mpr
    ⟨.allSet, rfl, 1, 1, _, ⟨1, "foo2", twoColumns⟩, _, _, rfl, rfl, hclauses, rfl⟩⟩

/-- A CREATE on a new container whose statement fails: the table is counted. -/
theorem failed_create_counted : ∃ w' : World (Fin 1),
    ((Action.createTable {}).execute 0).run (alone 0 20) ⟨GapFree.empty.data, .closed,
      [.drawn 5, .drawn 2, .drawn 7, .drawn 8, .drawn 0, .sql (.returned .error)]⟩ =
        some (.error .thrown, w') ∧ w'.data.tableCount = 1 ∧ w'.data.reservedSize = 1 ∧
      w'.data.tables 0 ≠ none ∧ ¬ Same GapFree.empty.data w'.data := by
  obtain ⟨⟨o, w'⟩, hrun, ho⟩ := Option.map_eq_some_iff.mp (show
    (((Action.createTable {}).execute 0).run (alone (0 : Fin 1) 20) ⟨GapFree.empty.data, .closed,
      [.drawn 5, .drawn 2, .drawn 7, .drawn 8, .drawn 0, .sql (.returned .error)]⟩).map
        (fun x => (x.1, x.2.data.tableCount, x.2.data.reservedSize, (x.2.data.tables 0).isSome)) =
      some (.error .thrown, 1, 1, true) by decide +kernel)
  obtain ⟨rfl, hcount, hreserved, hstored⟩ : o = .error .thrown ∧ w'.data.tableCount = 1 ∧
      w'.data.reservedSize = 1 ∧ (w'.data.tables 0).isSome := by
    simpa using ho
  refine ⟨w', hrun, hcount, hreserved, Option.isSome_iff_ne_none.mp hstored, fun hs => ?_⟩
  exact absurd (hcount.symm.trans hs.2.1) (by decide)

end Alter
end PStress.Actions
