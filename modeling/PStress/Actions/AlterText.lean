import PStress.Actions.Definitions

/-! The text of an ALTER: the subcommands that are read from it by the punctuation of SQL, and
what the names in it have to be for these to be the ones that were meant. -/
namespace PStress.Actions
open Text AlterTable

/-- A type in a statement, with a length if one is given. -/
def readTypeTokens : List Token → Option (ColumnType × Nat)
  | [.word type] => (typeNamed type).map fun type => (type, 0)
  | [.word type, .mark '(', .word length, .mark ')'] => do
    return (← typeNamed type, ← number length)
  | _ => none

def readClause : List Token → Option Subcommand
  | .word verb :: .word object :: ts =>
    if [verb, object] = ["ADD".toList, "COLUMN".toList] then
      (readColumn ts).map fun col => .addColumn (definition col)
    else match ts with
      | [.word name] =>
        if [verb, object] = ["DROP".toList, "COLUMN".toList] then some (.dropColumn name)
        else none
      | [.word method, .word am] =>
        if [verb, object, method] = ["SET".toList, "ACCESS".toList, "METHOD".toList] then
          some (.setAccessMethod am)
        else none
      | .word name :: .word type :: ts =>
        if [verb, object, type] = ["ALTER".toList, "COLUMN".toList, "TYPE".toList] then
          (readTypeTokens ts).map fun x => .alterColumn name x.1 x.2
        else none
      | _ => none
  | _ => none

def readClauses (ts : List Token) : Option (List Subcommand) :=
  if ts.getLast? = some (.mark ';') then
    match items [] 0 (ts.dropLast ++ [.mark ')']) with
    | some (clauses, []) => clauses.mapM readClause
    | _ => none
  else none

/-- The table and the subcommands of an ALTER, which may be none. -/
def readAlter (s : List Char) : Option (String × List Subcommand) :=
  match tokens s with
  | some (.word verb :: .word table :: .word name :: ts) =>
    if [verb, table] = ["ALTER".toList, "TABLE".toList] then
      if ts = [.mark ';'] then some (String.ofList name, [])
      else (readClauses ts).map fun subs => (String.ofList name, subs)
    else none
  | _ => none

def Spoken (name : String) : Prop := Spelled name.toList

instance (name : String) : Decidable (Spoken name) := inferInstanceAs (Decidable (Spelled _))

namespace AlterTable.Subcommand

/-- The word in a subcommand that is not the program's own. -/
def word : Subcommand → Option (List Char)
  | .addColumn _ => none
  | .dropColumn name | .alterColumn name _ _ | .setAccessMethod name => some name

end AlterTable.Subcommand

/-- The name of the table and the words of the subcommands are each read as one word. -/
def Told (table : Table) (subs : List Subcommand) : Prop :=
  Spoken table.name ∧ ∀ sub ∈ subs, ∀ w ∈ sub.word, Spelled w

instance (table : Table) (subs : List Subcommand) : Decidable (Told table subs) :=
  inferInstanceAs (Decidable (_ ∧ _))

section Texts

private theorem definition_unkeyed (col : Column) : definition col.unkeyed = definition col := rfl

theorem Word.spoken {name : String} (h : Word name) : Spoken name :=
  ⟨by simpa using h.1, List.all_eq_true.mpr fun c hc => by simp [wordChar, h.2 c hc]⟩

/-- A text that is one item of a list and reads as the subcommand. -/
def ClauseText (text : String) (sub : Subcommand) : Prop :=
  ∃ ts, Reads text.toList ts ∧ Enclosed 0 ts ∧ readClause ts = some sub

private theorem clauses_mapM {tss : List (List Token)} {subs : List Subcommand}
    (h : List.Forall₂ (fun ts sub => readClause ts = some sub) tss subs) :
    tss.mapM readClause = some subs := by
  induction h with
  | nil => rfl
  | cons hsub _ ih =>
    rw [List.mapM_cons, hsub, ih]
    rfl

theorem readClauses_nil : readClauses [.mark ';'] = none := by
  simp [readClauses, items, readClause]

/-- The tokens of a statement. -/
theorem tokens_statement (table : Table) (h : Spoken table.name) {texts : List String}
    {subs : List Subcommand} (hsubs : List.Forall₂ ClauseText texts subs) :
    ∃ ts, tokens (statement table texts).toList = some (.word "ALTER".toList ::
        .word "TABLE".toList :: .word table.name.toList :: ts) ∧
      (subs ≠ [] → readClauses ts = some subs) ∧ (subs = [] → ts = [.mark ';']) := by
  obtain ⟨tss, hreads, henclosed, hclauses⟩ : ∃ tss : List (List Token),
      List.Forall₂ Reads (texts.map String.toList) tss ∧ (∀ ts ∈ tss, Enclosed 0 ts) ∧
        List.Forall₂ (fun ts sub => readClause ts = some sub) tss subs := by
    induction hsubs with
    | nil => exact ⟨[], .nil, by simp, .nil⟩
    | cons hsub _ ih =>
      obtain ⟨tss, hreads, henclosed, hclauses⟩ := ih
      obtain ⟨ts, hts, hin, hclause⟩ := hsub
      exact ⟨ts :: tss, .cons hts hreads, List.forall_mem_cons.mpr ⟨hin, henclosed⟩,
        .cons hclause hclauses⟩
  have htext : (statement table texts).toList = "ALTER TABLE ".toList ++
      (table.name.toList ++ (' ' :: ('\n' :: ' ' ::
        ([',', '\n'].intercalate (texts.map String.toList) ++ [';'])))) := by
    have hline : ",\n".toList = [',', '\n'] := rfl
    simp [statement, String.toList_intercalate, hline]
  have hbody := Reads.append_mark (c := ';') rfl (Reads.commas (c := '\n') rfl hreads) .nil
  have hspaced : Reads ('\n' :: ' ' :: ([',', '\n'].intercalate (texts.map String.toList) ++
      [';'])) _ := Reads.append_space (c := '\n') rfl .nil (Reads.nil.append_blank hbody)
  have hread := (reads_all (w := "ALTER".toList) (by decide)).append_blank
    ((reads_all (w := "TABLE".toList) (by decide)).append_blank
      ((reads_all h).append_blank hspaced))
  refine ⟨[.mark ','].intercalate tss ++ [.mark ';'], ?_, fun hne => ?_, fun hnil => ?_⟩
  · rw [htext]
    exact hread.tokens_eq
  · have hne' : tss ≠ [] := by
      rintro rfl
      cases hclauses
      exact hne rfl
    have hitems := items_commas hne' henclosed []
    simp [readClauses, hitems, clauses_mapM hclauses]
  · obtain rfl := List.forall₂_nil_right_iff.mp (hnil ▸ hclauses)
    rfl

/-- An ALTER is read as the subcommands of its texts. -/
theorem readAlter_statement (table : Table) (h : Spoken table.name) {texts : List String}
    {subs : List Subcommand} (hsubs : List.Forall₂ ClauseText texts subs) :
    readAlter (statement table texts).toList = some (table.name, subs) := by
  obtain ⟨ts, htokens, hread, hnone⟩ := tokens_statement table h hsubs
  rw [readAlter, htokens]
  by_cases hne : subs = []
  · simp [hnone hne, hne]
  · have hts : ts ≠ [.mark ';'] := by
      rintro rfl
      cases readClauses_nil.symm.trans (hread hne)
    simp [hts, hread hne]

private theorem clauseText_add {col : Column} (h : Definable col) :
    ClauseText ("ADD COLUMN " ++ columnDefinition col) (.addColumn (definition col)) := by
  have hread := (reads_all (w := "ADD".toList) (by decide)).append_blank
    ((reads_all (w := "COLUMN".toList) (by decide)).append_blank (reads_columnDefinition h))
  refine ⟨_, by simpa [String.toList_append] using hread,
    (Enclosed.word _).append ((Enclosed.word _).append (enclosed_definition col)), ?_⟩
  simp [readClause, readColumn_tokens h, definition_unkeyed]

private theorem clauseText_drop {name : String} (h : Spoken name) :
    ClauseText s!"DROP COLUMN {name}" (.dropColumn name.toList) := by
  have hread := (reads_all (w := "DROP".toList) (by decide)).append_blank
    ((reads_all (w := "COLUMN".toList) (by decide)).append_blank (reads_all h))
  refine ⟨_, by simpa [String.toList_append] using hread,
    (Enclosed.word _).append ((Enclosed.word _).append (.word _)), ?_⟩
  simp [readClause]

private theorem clauseText_change {name : String} (h : Spoken name) :
    ClauseText s!"ALTER COLUMN {name} TYPE VARCHAR(32)"
      (.alterColumn name.toList .VARCHAR 32) := by
  have hread := (reads_all (w := "ALTER".toList) (by decide)).append_blank
    ((reads_all (w := "COLUMN".toList) (by decide)).append_blank ((reads_all h).append_blank
      ((reads_all (w := "TYPE".toList) (by decide)).append_blank
        (Reads.append_mark (c := '(') rfl (reads_all (w := "VARCHAR".toList) (by decide))
          (Reads.append_mark (c := ')') rfl (reads_all (w := "32".toList) (by decide)) .nil)))))
  refine ⟨_, by simpa [String.toList_append] using hread, (Enclosed.word _).append
    ((Enclosed.word _).append ((Enclosed.word _).append ((Enclosed.word _).append
      ((Enclosed.word _).append (.parens (.word _)))))), ?_⟩
  have hnumber : number ['3', '2'] = some 32 := rfl
  have htype : typeNamed ['V', 'A', 'R', 'C', 'H', 'A', 'R'] = some .VARCHAR := rfl
  simp [readClause, readTypeTokens, hnumber, htype]

private theorem clauseText_accessMethod {am : String} (h : Spoken am) :
    ClauseText s!"SET ACCESS METHOD {am}" (.setAccessMethod am.toList) := by
  have hread := (reads_all (w := "SET".toList) (by decide)).append_blank
    ((reads_all (w := "ACCESS".toList) (by decide)).append_blank
      ((reads_all (w := "METHOD".toList) (by decide)).append_blank (reads_all h)))
  refine ⟨_, by simpa [String.toList_append] using hread, (Enclosed.word _).append
    ((Enclosed.word _).append ((Enclosed.word _).append (.word _))), ?_⟩
  simp [readClause]

/-- The texts of the clauses are those of their subcommands. -/
theorem clauseTexts (st : Progress) {clauses : List Clause} {subs : List Subcommand}
    (hadded : ∀ col ∈ added clauses, Definable col)
    (hwords : ∀ sub ∈ subcommands st.columns clauses, ∀ w ∈ sub.word, Spelled w)
    (h : List.Forall₂ ClauseText st.alterSubcommands subs) :
    List.Forall₂ ClauseText (clauses.foldl Progress.apply st).alterSubcommands
      (subs ++ subcommands st.columns clauses) := by
  induction clauses generalizing st subs with
  | nil => simpa [subcommands] using h
  | cons clause clauses ih =>
    rw [subcommands] at hwords
    have one {text : String} {sub : Subcommand} (ht : ClauseText text sub) :
        List.Forall₂ ClauseText (st.alterSubcommands ++ [text]) (subs ++ [sub]) :=
      List.rel_append h (.cons ht .nil)
    have hword {sub : Subcommand} {w : List Char} (hs : clause.subcommand st.columns = some sub)
        (hw : sub.word = some w) : Spelled w :=
      hwords sub (List.mem_append_left _ (Option.mem_toList.mpr hs)) w hw
    have hstep : List.Forall₂ ClauseText (st.apply clause).alterSubcommands
        (subs ++ (clause.subcommand st.columns).toList) := by
      cases clause with
      | addColumn column => exact one (clauseText_add (hadded column List.mem_cons_self))
      | setAccessMethod am => exact one (clauseText_accessMethod (hword rfl rfl))
      | nothing => simpa [Progress.apply, Clause.subcommand] using h
      | dropColumn k =>
        simp only [Progress.apply, Clause.subcommand] at hword ⊢
        cases hk : st.columns[k]? with
        | none => simpa using h
        | some col => exact one (clauseText_drop (hword (congrArg (Option.map _) hk) rfl))
      | changeColumn =>
        simp only [Progress.apply, Clause.subcommand] at hword ⊢
        cases hf : st.columns.find? numeric with
        | none => simpa using h
        | some col => exact one (clauseText_change (hword (congrArg (Option.map _) hf) rfl))
    have hrest : ∀ col ∈ added clauses, Definable col := by
      cases clause with
      | addColumn column => exact fun col hcol => hadded col (List.mem_cons_of_mem column hcol)
      | dropColumn | changeColumn | setAccessMethod | nothing => exact hadded
    have htexts := ih (st.apply clause) hrest
      (fun sub hs => hwords sub (List.mem_append_right _ (apply_columns st clause ▸ hs))) hstep
    rw [List.foldl_cons, subcommands, ← List.append_assoc, ← apply_columns]
    exact htexts

end Texts
section Words

private theorem word_mem_of_readClause {ts : List Token} {sub : Subcommand}
    (h : readClause ts = some sub) {w : List Char} (hw : sub.word = some w) : .word w ∈ ts := by
  rw [readClause.eq_def] at h
  split at h
  · split at h
    · obtain ⟨col, _, rfl⟩ := Option.map_eq_some_iff.mp h
      cases hw
    · split at h
      · split at h <;> cases h
        cases hw
        simp
      · split at h <;> cases h
        cases hw
        simp
      · split at h
        · obtain ⟨x, _, rfl⟩ := Option.map_eq_some_iff.mp h
          cases hw
          simp
        · cases h
      · cases h
  · cases h

private theorem exists_of_mapM {tss : List (List Token)} {subs : List Subcommand}
    (h : tss.mapM readClause = some subs) {sub : Subcommand} (hs : sub ∈ subs) :
    ∃ ts ∈ tss, readClause ts = some sub := by
  induction tss generalizing subs with
  | nil =>
    cases h
    cases hs
  | cons ts tss ih =>
    simp only [List.mapM_cons, Option.bind_eq_bind, Option.bind_eq_some_iff] at h
    obtain ⟨first, hfirst, rest, hrest, he⟩ := h
    cases he
    rcases List.mem_cons.mp hs with rfl | hs
    · exact ⟨ts, List.mem_cons_self, hfirst⟩
    · obtain ⟨ts', hts', hread⟩ := ih hrest hs
      exact ⟨ts', List.mem_cons_of_mem ts hts', hread⟩

private theorem spelled_of_readClauses {ts : List Token} {subs : List Subcommand}
    (h : readClauses ts = some subs) (hts : ∀ w, .word w ∈ ts → Spelled w) {sub : Subcommand}
    (hs : sub ∈ subs) {w : List Char} (hw : sub.word = some w) : Spelled w := by
  rw [readClauses] at h
  split at h
  · split at h
    · rename_i clauses hitems
      obtain ⟨clause, hclause, hread⟩ := exists_of_mapM h hs
      have hmem := mem_of_items hitems hclause (word_mem_of_readClause hread hw)
      have hin : .word w ∈ ts.dropLast := by simpa using hmem
      exact hts w (List.dropLast_subset ts hin)
    · cases h
  · cases h

/-- Where the subcommands read are the ones meant, all names are words. -/
theorem told_of_readAlter {table : Table} {subs : List Subcommand} {s : List Char}
    (h : readAlter s = some (table.name, subs)) : Told table subs := by
  rw [readAlter] at h
  split at h
  · rename_i verb object name ts htokens
    have hwords (w : List Char) (hw : .word w ∈ ts) : Spelled w :=
      spelled_of_tokens htokens (by simp [hw])
    have hname : Spelled name := spelled_of_tokens htokens (by simp)
    have htable (he : String.ofList name = table.name) :
        Spoken table.name := by
      rw [Spoken, ← he, String.toList_ofList]
      exact hname
    split at h
    · split at h
      · obtain ⟨he, rfl⟩ := Prod.mk.inj (Option.some.inj h)
        exact ⟨htable he, by simp⟩
      · obtain ⟨subs', hread, he⟩ := Option.map_eq_some_iff.mp h
        obtain ⟨hname', rfl⟩ := Prod.mk.inj he
        exact ⟨htable hname', fun sub hs w hw => spelled_of_readClauses hread hwords hs hw⟩
    · cases h
  · cases h

end Words
end PStress.Actions
