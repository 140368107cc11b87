import PStress.Actions.Dml
import PStress.Actions.Draws
import PStress.Actions.Rows

/-! The values that INSERT and UPDATE draw, and the statements they make of them. -/
namespace PStress.Actions
open Interaction Metadata Program Text
variable {D : Int → Int → Prop}

private theorem isAlphanum_of_mem_charset : ∀ c ∈ charset, c.isAlphanum :=
  List.all_eq_true.mp rfl

private theorem draws_randomChar : Draws D (fun c => c.isAlphanum) randomChar :=
  (draws_randomInt (by decide)).bind fun _ _ => (draws_deref _).weaken fun c hc =>
    isAlphanum_of_mem_charset c (List.mem_of_getElem? hc)

private theorem draws_randomString {min max : Nat} (h : min ≤ max) :
    Draws D (fun s => (∀ c ∈ s.toList, c.isAlphanum) ∧
      (max < 2147483648 → s.toList.length ≤ max)) (randomString min max) := by
  refine (draws_randomSize h).bind fun n hn => ?_
  obtain ⟨v, ⟨hv, _⟩, rfl⟩ := hn
  have chars : Draws D
      (fun chars : List Char => chars.length = toSize v ∧ ∀ c ∈ chars, c.isAlphanum)
      (times (fun chars => do return chars ++ [← randomChar]) (toSize v) []) := by
    refine .times (I := fun m (chars : List Char) => chars.length = m ∧ ∀ c ∈ chars, c.isAlphanum)
      (fun m chars hchars => draws_randomChar.bind fun c hc => .done ?_) _ ⟨rfl, by simp⟩
    exact ⟨by simp [hchars.1], by simpa [or_imp, forall_and, hc] using hchars.2⟩
  refine chars.bind fun chars hchars => .done ?_
  rw [String.toList_ofList]
  refine ⟨hchars.2, fun hmax => ?_⟩
  rw [hchars.1]
  exact (hv.toSize_between hmax h).2

/-- The text of a value for a column, and its only token. -/
def ValueFor (col : Column) (x : List Char) (v : Token) : Prop :=
  (Reads x [v] ∧ isMark v = false) ∧ (col.length ≤ 100 → Literal col v)

private theorem reads_digits {w : List Char} (hne : w ≠ []) (hw : ∀ c ∈ w, c.isDigit) :
    Reads w [.word w] := by
  refine reads_word hne fun c hc => ?_
  simp [wordChar, Char.isAlphanum, hw c hc]

private theorem reads_text {s : String} (h : ∀ c ∈ s.toList, c.isAlphanum) :
    Reads (quoted s).toList [.quoted s.toList] := by
  have hq : '\'' ∉ s.toList := fun hm => absurd (h _ hm) (by decide)
  have htext : (quoted s).toList = '\'' :: (s.toList ++ ['\'']) := by
    simp [quoted, String.toList_append]
  rw [htext]
  exact reads_quoted hq

private theorem valueFor_int {col : Column} (ht : col.type = .INT) {n : Nat} (hn : n ≤ 1000000) :
    ValueFor col (toString n).toList (.word (toString n).toList) := by
  refine ⟨⟨reads_digits (toString_ne_nil n) fun c => isDigit_of_mem_toString, rfl⟩, fun _ => ?_⟩
  simp only [Literal, ht]
  exact ⟨_, n, rfl, number_toString n, by omega⟩

private theorem number_isSome {w : List Char} (hne : w ≠ []) (hw : ∀ c ∈ w, c.isDigit) :
    (number w).isSome := by
  rw [number, if_pos ⟨hne, List.all_eq_true.mpr hw⟩]
  rfl

private theorem toList_realText (n : Nat) : ∃ a b, (realText n).toList = a ++ '.' :: b ∧
    (a ≠ [] ∧ ∀ c ∈ a, c.isDigit) ∧ (b ≠ [] ∧ ∀ c ∈ b, c.isDigit) := by
  refine ⟨(toString (n / 1000000)).toList, List.replicate
    (6 - (toString (n % 1000000)).toList.length) '0' ++ (toString (n % 1000000)).toList, ?_,
    ⟨toString_ne_nil _, fun c => isDigit_of_mem_toString⟩, ?_, ?_⟩
  · simp [realText, String.toList_append]
  · simp
  · intro c hc
    rcases List.mem_append.mp hc with hc | hc
    · rw [List.eq_of_mem_replicate hc]
      rfl
    · exact isDigit_of_mem_toString hc

private theorem valueFor_real {col : Column} (ht : col.type = .REAL) (n : Nat) :
    ValueFor col (realText n).toList (.word (realText n).toList) := by
  obtain ⟨a, b, htext, ⟨hane, ha⟩, hbne, hb⟩ := toList_realText n
  rw [htext]
  refine ⟨⟨reads_word (by simp) fun c hc => ?_, rfl⟩, fun _ => ?_⟩
  · have hdigit (hd : c.isDigit) : wordChar c := by simp [wordChar, Char.isAlphanum, hd]
    rcases List.mem_append.mp hc with hc | hc
    · exact hdigit (ha c hc)
    · rcases List.mem_cons.mp hc with rfl | hc
      · rfl
      · exact hdigit (hb c hc)
  · simp only [Literal, ht]
    exact ⟨a, b, rfl, number_isSome hane ha, number_isSome hbne hb⟩

private theorem valueFor_bool {col : Column} (ht : col.type = .BOOL) (b : Bool) :
    ValueFor col (if b then "true" else "false").toList
      (.word (if b then "true" else "false").toList) := by
  cases b with
  | false =>
    refine ⟨⟨reads_all (by decide), rfl⟩, fun _ => ?_⟩
    simp [Literal, ht]
  | true =>
    refine ⟨⟨reads_all (by decide), rfl⟩, fun _ => ?_⟩
    simp [Literal, ht]

private theorem draws_generateValue (col : Column) :
    Draws D (fun text => ∃ v, ValueFor col text.toList v) (generateValue col) := by
  unfold generateValue
  cases ht : col.type with
  | INT =>
    refine (draws_randomInt (by decide)).bind fun v hv => .done ?_
    obtain ⟨hl, hu⟩ := hv.between (by decide) (by decide) (by decide)
    obtain ⟨n, rfl⟩ := Int.eq_ofNat_of_zero_le (by omega : 0 ≤ v)
    exact ⟨_, valueFor_int ht (by omega)⟩
  | REAL => exact ⟨trivial, fun n _ _ => ⟨_, valueFor_real ht n⟩⟩
  | BOOL =>
    refine (draws_randomInt (by decide)).bind fun v _ => .done ?_
    exact ⟨_, valueFor_bool ht (v == 1)⟩
  | VARCHAR | CHAR =>
    refine (draws_randomString (Nat.zero_le _)).bind fun s hs => .done ?_
    refine ⟨_, ⟨reads_text hs.1, rfl⟩, fun hl => ?_⟩
    simp only [Literal, ht]
    exact ⟨_, rfl, hs.2 (by omega)⟩
  | BYTEA | TEXT =>
    refine (draws_randomString (by decide)).bind fun s hs => .done ?_
    refine ⟨_, ⟨reads_text hs.1, rfl⟩, fun _ => ?_⟩
    simp only [Literal, ht]
    exact ⟨_, rfl⟩

private theorem yields_randomChar : Yields D (fun _ => True) randomChar := by
  refine (Yields.randomInt (by decide)).bind fun v hv => ?_
  obtain ⟨hl, hu⟩ := hv.between (by decide) (by decide) (by decide)
  have hlen : charset.length = 62 := rfl
  have hlt : toSize v < charset.length := by
    have hsize := toSize_of_isInt hv.1 hl
    omega
  rw [List.getElem?_eq_getElem hlt]
  exact .done trivial

private theorem yields_randomString {min max : Nat} (h : min ≤ max) :
    Yields D (fun _ => True) (randomString min max) := by
  refine (Yields.randomSize h).bind fun n _ => ?_
  refine Yields.bind (P := fun _ => True) ?_ fun _ _ => .done trivial
  refine keeps_times (I := fun _ _ _ => True) (fun m chars _ _ => ?_) n 0 trivial
  exact yields_randomChar.bind fun c _ => .done trivial

private theorem yields_generateValue (col : Column) :
    Yields D (fun _ => True) (generateValue col) := by
  unfold generateValue
  cases col.type with
  | INT => exact (Yields.randomInt (by decide)).bind fun _ _ => .done trivial
  | REAL => exact ⟨trivial, fun _ _ _ => trivial⟩
  | BOOL => exact (Yields.randomInt (by decide)).bind fun _ _ => .done trivial
  | VARCHAR | CHAR => exact (yields_randomString (Nat.zero_le _)).bind fun _ _ => .done trivial
  | BYTEA | TEXT => exact (yields_randomString (by decide)).bind fun _ _ => .done trivial

section Lists
variable {α : Type} {sep : List α}

private theorem intercalate_cons (x : List α) (xs : List (List α)) :
    sep.intercalate (x :: xs) = x ++ xs.flatMap fun y => sep ++ y := by
  induction xs generalizing x with
  | nil => simp
  | cons y xs ih => rw [List.intercalate_cons_cons, ih, List.flatMap_cons]; simp

private theorem intercalate_concat (xs : List (List α)) (x : List α) :
    sep.intercalate (xs ++ [x]) =
      sep.intercalate xs ++ ((if xs.isEmpty then [] else sep) ++ x) := by
  cases xs with
  | nil => simp
  | cons y xs => simp [intercalate_cons]

end Lists

/-- What a loop that puts commas between texts appends, by its flag `first`. -/
def listing (first : Bool) (texts : List (List Char)) : List Char :=
  if first then [',', ' '].intercalate texts else texts.flatMap fun x => [',', ' '] ++ x

private theorem listing_cons (first : Bool) (x : List Char) (texts : List (List Char)) :
    listing first (x :: texts) =
      (if first then "" else ", ").toList ++ (x ++ listing false texts) := by
  cases first with
  | false => simp [listing]
  | true => simp [listing, intercalate_cons]

private theorem listing_nil (first : Bool) : listing first [] = [] := by
  cases first <;> rfl

/-- The loop over the columns that fills those the server does not fill. -/
private theorem draws_loop {item : Column → Execution String} {P : Column → List Char → Prop}
    (hitem : ∀ col, Draws D (fun text => P col text.toList) (item col)) (columns : List Column)
    (sql : String) (first : Bool) :
    Draws D (fun x => ∃ texts, List.Forall₂ P (filled columns) texts ∧
        x.1.toList = sql.toList ++ listing first texts)
      (columns.foldlM (fun (sql, first) f => do
        if f.auto_increment then return (sql, first)
        else
          let text ← item f
          return (sql ++ (if first then "" else ", ") ++ text, false)) (sql, first)) := by
  induction columns generalizing sql first with
  | nil => exact .done ⟨[], .nil, by simp [listing_nil]⟩
  | cons f columns ih =>
    rw [List.foldlM_cons]
    by_cases hf : f.auto_increment
    · have hskip : filled (f :: columns) = filled columns := by simp [filled, hf]
      simp only [hf, if_true, hskip]
      exact ih sql first
    · have htake : filled (f :: columns) = f :: filled columns := by simp [filled, hf]
      simp only [hf, htake]
      refine Draws.bind (P := fun x => ∃ text : String, P f text.toList ∧
        x = (sql ++ (if first then "" else ", ") ++ text, false))
        ((hitem f).bind fun text ht => .done ⟨text, ht, rfl⟩) ?_
      rintro x ⟨text, ht, rfl⟩
      refine (ih _ false).weaken fun x hx => ?_
      obtain ⟨texts, htexts, he⟩ := hx
      refine ⟨text.toList :: texts, .cons ht htexts, ?_⟩
      rw [he, listing_cons]
      simp [String.toList_append]

private theorem yields_loop {item : Column → Execution String}
    (hitem : ∀ col, Yields D (fun _ => True) (item col)) (columns : List Column)
    (x : String × Bool) :
    Yields D (fun _ => True) (columns.foldlM (fun (sql, first) f => do
      if f.auto_increment then return (sql, first)
      else
        let text ← item f
        return (sql ++ (if first then "" else ", ") ++ text, false)) x) := by
  refine keeps_foldlM (I := fun _ _ => True) (fun y col _ _ => ?_) columns trivial
  obtain ⟨sql, first⟩ := y
  by_cases hauto : col.auto_increment = true
  · simp only [hauto, if_true]
    trivial
  · simp only [hauto]
    exact (hitem col).bind fun _ _ => .done trivial

private theorem toList_columnList (columns : List Column) (sql : String) :
    (InsertData.columnList columns sql).toList = sql.toList ++
      [',', ' '].intercalate ((filled columns).map fun col => col.name.toList) := by
  have loop (first : Bool) : (columns.foldl (fun (x : String × Bool) f =>
      if f.auto_increment then (x.1, x.2)
      else (x.1 ++ (if x.2 then "" else ", ") ++ f.name, false)) (sql, first)).1.toList =
        sql.toList ++ listing first ((filled columns).map fun col => col.name.toList) := by
    induction columns generalizing sql first with
    | nil => simp [listing_nil, filled]
    | cons f columns ih =>
      rw [List.foldl_cons]
      by_cases hf : f.auto_increment
      · simp only [hf, if_true, ih]
        simp [filled, hf]
      · have htake : filled (f :: columns) = f :: filled columns := by simp [filled, hf]
        rw [htake, List.map_cons, listing_cons]
        simp [hf, ih, String.toList_append]
  exact loop true

def RowFor (columns : List Column) (texts : List (List Char)) : Prop :=
  List.Forall₂ (fun col x => ∃ v, ValueFor col x v) (filled columns) texts

private theorem draws_row (columns : List Column) (sql : String) :
    Draws D (fun s => ∃ texts, RowFor columns texts ∧
        s.toList = sql.toList ++ [',', ' '].intercalate texts) (InsertData.row columns sql) :=
  (draws_loop draws_generateValue columns sql true).bind fun _ hx => .done hx

def EndsInRows (columns : List Column) (sql : String) (n : Nat) (s : String) : Prop :=
  ∃ rows : List (List (List Char)), rows.length = n ∧ (∀ texts ∈ rows, RowFor columns texts) ∧
    s.toList = sql.toList ++ [',', ' '].intercalate (rows.map tupleText)

/-- One more row. -/
theorem EndsInRows.concat {columns : List Column} {sql s s' : String} {n : Nat}
    {texts : List (List Char)} (h : EndsInRows columns sql n s) (htexts : RowFor columns texts)
    (hs : s'.toList = (s ++ (if n == 0 then "" else ", ") ++ "(").toList ++
      [',', ' '].intercalate texts) : EndsInRows columns sql (n + 1) (s' ++ ")") := by
  obtain ⟨rows, rfl, hrows, he⟩ := h
  refine ⟨rows ++ [texts], by simp, ?_, ?_⟩
  · intro t ht
    rcases List.mem_append.mp ht with ht | ht
    · exact hrows t ht
    · rw [List.mem_singleton.mp ht]
      exact htexts
  · have hfirst : (if rows.length == 0 then "" else ", ").toList =
        if (rows.map tupleText).isEmpty then [] else [',', ' '] := by
      cases rows <;> simp
    rw [List.map_append, List.map_singleton, intercalate_concat, ← hfirst, String.toList_append,
      hs, String.toList_append, String.toList_append, he, tupleText]
    simp

private theorem draws_rows (columns : List Column) (rows : Nat) (sql : String) :
    Draws D (fun x : Nat × String => EndsInRows columns sql rows x.2)
      (times (fun (idx, sql) => do
        let sql ← InsertData.row columns (sql ++ (if idx == 0 then "" else ", ") ++ "(")
        return (idx + 1, sql ++ ")")) rows (0, sql)) := by
  refine (Draws.times (I := fun m (x : Nat × String) => x.1 = m ∧ EndsInRows columns sql m x.2) ?_
    rows ⟨rfl, [], rfl, by simp, by simp⟩).weaken fun x hx => hx.2
  rintro m ⟨idx, s⟩ ⟨rfl, hends⟩
  refine (draws_row columns _).bind fun s' hs => .done ⟨rfl, ?_⟩
  obtain ⟨texts, htexts, hs⟩ := hs
  exact hends.concat htexts hs

/-- The statement of an INSERT. -/
theorem draws_insert (table : Table) (rows : Nat) :
    Draws D (fun sql => ∃ all, all.length = rows ∧ (∀ texts ∈ all, RowFor table.columns texts) ∧
        sql.toList = insertText table.name.toList
          ((filled table.columns).map fun col => col.name.toList) all)
      (InsertData.statement table rows) := by
  refine Draws.bind (draws_rows table.columns rows _) ?_
  rintro ⟨idx, s⟩ ⟨all, hlen, hall, he⟩
  refine Draws.done ⟨all, hlen, hall, ?_⟩
  have hend : ";".toList = [';'] := rfl
  unfold insertText
  rw [String.toList_append, he, hend]
  simp only [String.toList_append, toList_columnList, List.append_assoc]

theorem yields_insert (table : Table) (rows : Nat) :
    Yields D (fun _ => True) (InsertData.statement table rows) := by
  refine Yields.bind (P := fun _ => True) ?_ fun _ _ => .done trivial
  refine keeps_times (I := fun _ _ _ => True) (fun m x _ _ => ?_) rows 0 trivial
  refine Yields.bind (P := fun _ => True) ?_ fun _ _ => .done trivial
  exact (yields_loop yields_generateValue _ _).bind fun _ _ => .done trivial

def AssignmentsFor (columns : List Column) (xs : List (List Char × List Char)) : Prop :=
  List.Forall₂ (fun col x => x.1 = col.name.toList ∧ ∃ v, ValueFor col x.2 v) (filled columns) xs

/-- The assignments of an UPDATE. -/
theorem draws_assignments (columns : List Column) (sql : String) :
    Draws D (fun s => ∃ xs, AssignmentsFor columns xs ∧
        s.toList = sql.toList ++ [',', ' '].intercalate (xs.map assignmentText))
      (UpdateOneRow.assignments columns sql) := by
  have hitem (col : Column) : Draws D (fun text : String => ∃ value v, ValueFor col value v ∧
      text.toList = assignmentText (col.name.toList, value)) (do
        let value ← generateValue col
        return col.name ++ " = " ++ value) := by
    refine (draws_generateValue col).bind fun value hv => .done ?_
    obtain ⟨v, hv⟩ := hv
    exact ⟨value.toList, v, hv, by simp [assignmentText, String.toList_append]⟩
  have hloop := draws_loop (P := fun col x => ∃ value v, ValueFor col value v ∧
    x = assignmentText (col.name.toList, value)) hitem columns sql true
  have pairs {cols : List Column} {texts : List (List Char)} (h : List.Forall₂ (fun col x =>
      ∃ value v, ValueFor col value v ∧ x = assignmentText (col.name.toList, value)) cols texts) :
      ∃ xs : List (List Char × List Char), List.Forall₂ (fun col x =>
        x.1 = col.name.toList ∧ ∃ v, ValueFor col x.2 v) cols xs ∧
          texts = xs.map assignmentText := by
    induction h with
    | nil => exact ⟨[], .nil, rfl⟩
    | @cons col x cols texts hx _ ih =>
      obtain ⟨value, v, hv, rfl⟩ := hx
      obtain ⟨xs, hxs, rfl⟩ := ih
      exact ⟨(col.name.toList, value) :: xs, .cons ⟨rfl, v, hv⟩ hxs, rfl⟩
  unfold UpdateOneRow.assignments
  simp only [bind_assoc, pure_eq, done_bind, String.append_assoc] at hloop ⊢
  refine hloop.bind fun x hx => .done ?_
  obtain ⟨texts, htexts, he⟩ := hx
  obtain ⟨xs, hxs, rfl⟩ := pairs htexts
  exact ⟨xs, hxs, he⟩

theorem yields_assignments (columns : List Column) (sql : String) :
    Yields D (fun _ => True) (UpdateOneRow.assignments columns sql) := by
  have hitem (col : Column) : Yields D (fun _ => True) (do
      let value ← generateValue col
      return col.name ++ " = " ++ value : Execution String) :=
    (yields_generateValue col).bind fun _ _ => .done trivial
  have hloop := yields_loop hitem columns (sql, true)
  unfold UpdateOneRow.assignments
  simp only [bind_assoc, pure_eq, done_bind, String.append_assoc] at hloop ⊢
  exact hloop.bind fun _ _ => .done trivial

end PStress.Actions
