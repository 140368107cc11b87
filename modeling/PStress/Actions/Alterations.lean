import PStress.Actions.Subcommands

/-! What the subcommands of an ALTER make of the columns of the table, compared with what the
loop over its clauses does to the copy in memory. -/
namespace PStress.Actions.AlterTable

def changed (columns : List Column) : List Clause → List Column
  | [] => []
  | .changeColumn :: clauses => (columns.find? numeric).toList ++ changed columns clauses
  | clause :: clauses => changed (clause.after columns) clauses

def NamesDistinct (columns : List Column) : Prop := (columns.map Column.name).Nodup

instance (columns : List Column) : Decidable (NamesDistinct columns) :=
  inferInstanceAs (Decidable (columns.map Column.name).Nodup)

/-- A column on the server, where those in `cs` have been changed. -/
def onServer (cs : List Column) (col : Column) : Definition :=
  if col ∈ cs then ⟨col.name.toList, .VARCHAR, 32⟩ else definition col

section Lists
variable {columns new cs : List Column}

theorem NamesDistinct.eq_of_name (h : NamesDistinct columns) {c d : Column} (hc : c ∈ columns)
    (hd : d ∈ columns) (he : c.name = d.name) : c = d :=
  List.inj_on_of_nodup_map h hc hd he

theorem NamesDistinct.sublist (h : NamesDistinct columns) (hs : new.Sublist columns) :
    NamesDistinct new :=
  List.Nodup.sublist (hs.map _) h

theorem NamesDistinct.name_ne (h : NamesDistinct (columns ++ new)) {c d : Column}
    (hc : c ∈ columns) (hd : d ∈ new) : c.name ≠ d.name := by
  rw [NamesDistinct, List.map_append, List.nodup_append] at h
  exact h.2.2 _ (List.mem_map_of_mem hc) _ (List.mem_map_of_mem hd)

private theorem filter_name_eq_eraseIdx {k : Nat} {col : Column} (h : NamesDistinct columns)
    (hk : columns[k]? = some col) :
    columns.filter (fun d => d.name != col.name) = columns.eraseIdx k := by
  induction columns generalizing k with
  | nil => simp at hk
  | cons c columns ih =>
    rw [NamesDistinct, List.map_cons, List.nodup_cons] at h
    cases k with
    | zero =>
      obtain rfl : c = col := by simpa using hk
      rw [List.filter_cons_of_neg (by simp), List.eraseIdx_cons_zero, List.filter_eq_self]
      intro d hd
      rw [bne_iff_ne]
      intro he
      exact h.1 (he ▸ List.mem_map_of_mem hd)
    | succ k =>
      have hk' : columns[k]? = some col := by simpa using hk
      have hne : c.name ≠ col.name := by
        intro he
        exact h.1 (he ▸ List.mem_map_of_mem (List.mem_of_getElem? hk'))
      rw [List.filter_cons_of_pos (by simpa using hne), ih h.2 hk', List.eraseIdx_cons_succ]

end Lists

section Effect
variable {columns new cs : List Column}

/-- The columns on the server in the middle of a statement. -/
def server (columns new cs : List Column) : List Definition :=
  columns.map (onServer cs) ++ new.map definition

private theorem onServer_of_mem {col : Column} (h : col ∈ cs) :
    onServer cs col = ⟨col.name.toList, .VARCHAR, 32⟩ := if_pos h

theorem onServer_name (cs : List Column) (col : Column) :
    (onServer cs col).name = col.name.toList := by
  simp only [onServer]
  split <;> rfl

private theorem apply_dropColumn {k : Nat} {col : Column} (h : NamesDistinct (columns ++ new))
    (hk : columns[k]? = some col) :
    (Subcommand.dropColumn col.name.toList).apply (server columns new cs) =
      server (columns.eraseIdx k) new cs := by
  have hcol := List.mem_of_getElem? hk
  have hold : (columns.map (onServer cs)).filter (fun d => d.name != col.name.toList) =
      (columns.eraseIdx k).map (onServer cs) := by
    rw [List.filter_map, ← filter_name_eq_eraseIdx (h.sublist (List.sublist_append_left _ _)) hk]
    congr 1
    apply List.filter_congr
    intro d _
    simp [onServer_name, bne, String.toList_inj]
  have hnew : (new.map definition).filter (fun d => d.name != col.name.toList) =
      new.map definition := by
    rw [List.filter_eq_self]
    rintro d hd
    obtain ⟨c, hc, rfl⟩ := List.mem_map.mp hd
    rw [bne_iff_ne]
    exact fun he => h.name_ne hcol hc (String.toList_inj.mp he).symm
  rw [Subcommand.apply, server, List.filter_append, hold, hnew, server]

private theorem apply_changeColumn {col : Column} (h : NamesDistinct (columns ++ new))
    (hcol : col ∈ columns) :
    (Subcommand.alterColumn col.name.toList .VARCHAR 32).apply (server columns new cs) =
      server columns new (cs ++ [col]) := by
  rw [Subcommand.apply, server, List.map_append, List.map_map, List.map_map, server]
  congr 1
  · apply List.map_congr_left
    intro c hc
    rw [Function.comp_apply, onServer_name]
    by_cases hcc : c = col
    · subst hcc
      rw [if_pos rfl, onServer_of_mem (List.mem_append_right cs List.mem_cons_self)]
    · have hne : c.name.toList ≠ col.name.toList := fun he =>
        hcc ((h.sublist (List.sublist_append_left _ _)).eq_of_name hc hcol
          (String.toList_inj.mp he))
      simp [hne, onServer, hcc]
  · apply List.map_congr_left
    intro c hc
    have hne : (definition c).name ≠ col.name.toList := fun he =>
      h.name_ne hcol hc (String.toList_inj.mp he).symm
    rw [Function.comp_apply, if_neg hne]

/-- What the subcommands make of the columns on the server, those added so far included. -/
theorem foldl_server {clauses : List Clause}
    (h : NamesDistinct (columns ++ (new ++ added clauses))) :
    (subcommands columns clauses).foldl Subcommand.apply (server columns new cs) =
      server (remaining columns clauses) (new ++ added clauses)
        (cs ++ changed columns clauses) := by
  induction clauses generalizing columns new cs with
  | nil => simp [subcommands, remaining, added, changed]
  | cons clause clauses ih =>
    rw [subcommands, List.foldl_append]
    cases clause with
    | addColumn col =>
      have hassoc : new ++ added (.addColumn col :: clauses) = new ++ [col] ++ added clauses := by
        simp [added]
      rw [hassoc] at h ⊢
      have hstep : (Subcommand.addColumn (definition col)).apply (server columns new cs) =
          server columns (new ++ [col]) cs := by simp [Subcommand.apply, server]
      rw [Clause.subcommand, Option.toList_some, List.foldl_cons, List.foldl_nil, hstep]
      exact ih h
    | dropColumn k =>
      simp only [Clause.subcommand, Clause.after, added, remaining, changed]
      have h' := h.sublist (((List.eraseIdx_sublist columns k).append (List.Sublist.refl _)))
      cases hk : columns[k]? with
      | none =>
        rw [List.eraseIdx_of_length_le (List.getElem?_eq_none_iff.mp hk)]
        exact ih h
      | some col =>
        have hold := h.sublist ((List.sublist_append_left new (added clauses)).append_left columns)
        rw [Option.map_some, Option.toList_some, List.foldl_cons, List.foldl_nil,
          apply_dropColumn hold hk]
        exact ih h'
    | changeColumn =>
      simp only [Clause.subcommand, Clause.after, added, remaining, changed]
      cases hf : columns.find? numeric with
      | none =>
        rw [Option.toList_none, List.nil_append]
        exact ih h
      | some col =>
        have hold := h.sublist ((List.sublist_append_left new (added clauses)).append_left columns)
        have hstep : (Subcommand.alterColumn col.name.toList .VARCHAR 32).apply
            (server columns new cs) = server columns new (cs ++ [col]) :=
          apply_changeColumn hold (List.mem_of_find?_eq_some hf)
        rw [Option.map_some, Option.toList_some, Option.toList_some, List.foldl_cons,
          List.foldl_nil, hstep, ← List.append_assoc]
        exact ih h
    | setAccessMethod | nothing => exact ih h

theorem mem_changed {clauses : List Clause} {col : Column} (h : col ∈ changed columns clauses) :
    numeric col := by
  induction clauses generalizing columns with
  | nil => cases h
  | cons clause clauses ih =>
    cases clause with
    | changeColumn =>
      rcases List.mem_append.mp h with h | h
      · exact List.find?_some (Option.mem_toList.mp h)
      · exact ih h
    | addColumn | dropColumn | setAccessMethod | nothing => exact ih h

/-- The server ends up with the columns in memory just if every column that a clause changed was
dropped by a later one. -/
theorem server_eq_iff {clauses : List Clause} (h : NamesDistinct (columns ++ added clauses)) :
    (subcommands columns clauses).foldl Subcommand.apply (columns.map definition) =
        (remaining columns clauses ++ added clauses).map definition ↔
      ∀ col ∈ changed columns clauses, col ∉ remaining columns clauses := by
  have hstart : columns.map definition = server columns [] [] := by simp [server, onServer]
  rw [hstart, foldl_server (by simpa using h), List.nil_append, List.nil_append, server,
    List.map_append, List.append_left_inj, List.map_inj_left]
  constructor
  · intro heq col hc hr
    have hcol := heq col hr
    rw [onServer_of_mem hc] at hcol
    have htype : ColumnType.VARCHAR = col.type := congrArg Definition.type hcol
    have hnum := mem_changed hc
    rw [numeric, ← htype] at hnum
    cases hnum
  · intro hd col hr
    rw [onServer, if_neg fun hc => hd col hc hr]

end Effect
end PStress.Actions.AlterTable
