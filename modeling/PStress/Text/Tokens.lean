import Mathlib.Data.List.Basic
import Mathlib.Tactic.Common

/-! The tokens of a text by the punctuation of SQL: words, literals in single quotes, and marks.
Inside a literal two quotes stand for one. -/
namespace PStress.Text

inductive Token where
  | word (w : List Char)
  | quoted (t : List Char)
  | mark (c : Char)
  deriving DecidableEq, Repr

def wordChar (c : Char) : Bool := c.isAlphanum || c == '_' || c == '.'

/-- Where a reader is, with what it has read of a token. -/
inductive Place where
  | between
  | word (w : List Char)
  | literal (t : List Char)
  -- after a quote, which ends the literal unless another one follows
  | closed (t : List Char)
  deriving DecidableEq, Repr

def begin (c : Char) : Place × List Token :=
  if wordChar c then (.word [c], [])
  else if c = '\'' then (.literal [], [])
  else if c.isWhitespace then (.between, [])
  else (.between, [.mark c])

namespace Place

def pending : Place → List Token
  | between => []
  | word w => [.word w]
  | literal _ => []
  | closed t => [.quoted t]

/-- The place after a character, and the tokens it completes. -/
def next : Place → Char → Place × List Token
  | between, c => begin c
  | word w, c => if wordChar c then (word (w ++ [c]), []) else ((begin c).1, .word w :: (begin c).2)
  | literal t, c => if c = '\'' then (closed t, []) else (literal (t ++ [c]), [])
  | closed t, c =>
    if c = '\'' then (literal (t ++ [c]), []) else ((begin c).1, .quoted t :: (begin c).2)

end Place

/-- The tokens of what follows a place; `none` if a literal is not closed. -/
def read : Place → List Char → Option (List Token)
  | .literal _, [] => none
  | p, [] => some p.pending
  | p, c :: s => (read (p.next c).1 s).map fun ts => (p.next c).2 ++ ts

def tokens (s : List Char) : Option (List Token) := read .between s

/-- A text that is read as one word where it is followed by a delimiter. -/
def Spelled (w : List Char) : Prop := w ≠ [] ∧ w.all wordChar

instance (w : List Char) : Decidable (Spelled w) := inferInstanceAs (Decidable (_ ∧ _))

def delimiter (c : Char) : Bool := !wordChar c && c != '\''

/-- The text is read as these tokens if nothing follows it, or a delimiter does. -/
def Reads (x : List Char) (ts : List Token) : Prop :=
  ∀ s, (∀ c r, s = c :: r → delimiter c) → tokens (x ++ s) = (tokens s).map fun us => ts ++ us

variable {w x y s t : List Char} {ts us : List Token}

private theorem delimiter_iff {c : Char} : delimiter c = true ↔ wordChar c = false ∧ c ≠ '\'' := by
  simp [delimiter]

private theorem read_delimited {p : Place} (hp : ∀ t, p ≠ .literal t)
    (hs : ∀ c r, s = c :: r → delimiter c) :
    read p s = (tokens s).map fun ts => p.pending ++ ts := by
  cases s with
  | nil =>
    cases p with
    | literal t => exact absurd rfl (hp t)
    | between | word | closed => rfl
  | cons c s =>
    obtain ⟨hw, hq⟩ := delimiter_iff.mp (hs c s rfl)
    cases p with
    | literal t => exact absurd rfl (hp t)
    | between => simp [tokens, Place.pending]
    | word w => simp [tokens, read, Place.next, Place.pending, hw, Function.comp_def]
    | closed t => simp [tokens, read, Place.next, Place.pending, hq, Function.comp_def]

private theorem read_word (hw : ∀ c ∈ w, wordChar c) (a : List Char) :
    read (.word a) (w ++ s) = read (.word (a ++ w)) s := by
  induction w generalizing a with
  | nil => simp
  | cons c w ih =>
    obtain ⟨hc, hw⟩ := List.forall_mem_cons.mp hw
    simp [read, Place.next, hc, ih hw]

private theorem read_literal (ht : '\'' ∉ t) (a : List Char) :
    read (.literal a) (t ++ '\'' :: s) = read (.closed (a ++ t)) s := by
  induction t generalizing a with
  | nil => simp [read, Place.next]
  | cons c t ih =>
    rw [List.mem_cons, not_or] at ht
    simp [read, Place.next, Ne.symm ht.1, ih ht.2]

/-- A word is one token. -/
theorem reads_word (hne : w ≠ []) (hw : ∀ c ∈ w, wordChar c) : Reads w [.word w] := by
  intro s hs
  obtain ⟨c, w, rfl⟩ := List.exists_cons_of_ne_nil hne
  obtain ⟨hc, hw⟩ := List.forall_mem_cons.mp hw
  calc tokens (c :: w ++ s)
      _ = (read (.word [c]) (w ++ s)).map fun ts => [] ++ ts := by
        simp only [tokens, List.cons_append, read, Place.next, begin, hc, if_true]
      _ = read (.word (c :: w)) s := by
        rw [read_word hw]
        simp
      _ = (tokens s).map fun ts => [.word (c :: w)] ++ ts := read_delimited (fun t => by simp) hs

theorem reads_all (h : w ≠ [] ∧ w.all wordChar) : Reads w [.word w] :=
  reads_word h.1 (List.all_eq_true.mp h.2)

/-- A literal without quotes in it is one token. -/
theorem reads_quoted (ht : '\'' ∉ t) : Reads ('\'' :: (t ++ ['\''])) [.quoted t] := by
  intro s hs
  calc tokens ('\'' :: (t ++ ['\'']) ++ s)
      _ = (read (.literal []) (t ++ '\'' :: s)).map fun ts => [] ++ ts := by
        rw [List.cons_append, List.append_assoc]
        rfl
      _ = read (.closed t) s := by
        rw [read_literal ht]
        simp
      _ = (tokens s).map fun ts => [.quoted t] ++ ts := read_delimited (fun t => by simp) hs

def blank (c : Char) : Bool := delimiter c && c.isWhitespace

private theorem tokens_blank {c : Char} (hc : blank c) (s : List Char) :
    tokens (c :: s) = tokens s := by
  simp only [blank, Bool.and_eq_true, delimiter_iff] at hc
  obtain ⟨⟨hw, hq⟩, hb⟩ := hc
  simp [tokens, read, Place.next, begin, hw, hq, hb]

def punctuation (c : Char) : Bool := delimiter c && !c.isWhitespace

private theorem tokens_mark {c : Char} (hc : punctuation c) (s : List Char) :
    tokens (c :: s) = (tokens s).map fun ts => .mark c :: ts := by
  simp only [punctuation, Bool.and_eq_true, delimiter_iff, Bool.not_eq_true'] at hc
  obtain ⟨⟨hw, hq⟩, hb⟩ := hc
  simp [tokens, read, Place.next, begin, hw, hq, hb]

namespace Reads

theorem nil : Reads [] [] := by
  intro s _
  simp

theorem mark {c : Char} (hc : punctuation c) : Reads [c] [.mark c] := by
  intro s _
  exact tokens_mark hc s

/-- A text that is read to its end. -/
theorem tokens_eq (h : Reads x ts) : tokens x = some ts := by
  have hx := h [] fun c r he => by cases he
  rw [List.append_nil] at hx
  rw [hx]
  simp [tokens, read, Place.pending]

theorem append_space {c : Char} (hc : Text.blank c) (hx : Reads x ts) (hy : Reads y us) :
    Reads (x ++ c :: y) (ts ++ us) := by
  intro s hs
  have hd : ∀ c' r, c :: (y ++ s) = c' :: r → delimiter c' := by
    intro c' r he
    cases he
    exact ((Bool.and_eq_true _ _).mp hc).1
  rw [List.append_assoc, List.cons_append, hx _ hd, tokens_blank hc, hy s hs]
  simp [Function.comp_def]

/-- Two texts with a blank between them. -/
theorem append_blank (hx : Reads x ts) (hy : Reads y us) : Reads (x ++ ' ' :: y) (ts ++ us) :=
  append_space rfl hx hy

theorem cons_mark {c : Char} (hc : punctuation c) (h : Reads x ts) :
    Reads (c :: x) (.mark c :: ts) := by
  intro s hs
  rw [List.cons_append, tokens_mark hc, h s hs]
  simp [Function.comp_def]

/-- Two texts with punctuation between them. -/
theorem append_mark {c : Char} (hc : punctuation c) (hx : Reads x ts) (hy : Reads y us) :
    Reads (x ++ c :: y) (ts ++ .mark c :: us) := by
  intro s hs
  have hd : ∀ c' r, c :: (y ++ s) = c' :: r → delimiter c' := by
    intro c' r he
    cases he
    exact ((Bool.and_eq_true _ _).mp hc).1
  rw [List.append_assoc, List.cons_append, hx _ hd, tokens_mark hc, hy s hs]
  simp [Function.comp_def]

/-- A list with a comma and a blank after each of its texts. -/
theorem commas {c : Char} (hc : Text.blank c) {xs : List (List Char)} {tss : List (List Token)}
    (h : List.Forall₂ Reads xs tss) :
    Reads ([',', c].intercalate xs) ([.mark ','].intercalate tss) := by
  induction h with
  | nil => exact nil
  | @cons x ts xs tss hx h ih =>
    cases h with
    | nil => simpa using hx
    | cons hy h =>
      rw [List.intercalate_cons_cons, List.intercalate_cons_cons]
      have hrest : Reads (c :: _) _ := append_space hc nil ih
      have hall := append_mark (c := ',') rfl hx hrest
      simpa using hall

/-- A list in parentheses. -/
theorem parens (h : Reads x ts) : Reads ('(' :: (x ++ [')'])) (.mark '(' :: (ts ++ [.mark ')'])) :=
  cons_mark rfl (append_mark rfl h nil)

end Reads
section Words

/-- A word that is being read is one so far. -/
private def Place.Started : Place → Prop
  | .word w => Spelled w
  | .between | .literal _ | .closed _ => True

private theorem started_begin (c : Char) : (begin c).1.Started ∧ ∀ w, .word w ∉ (begin c).2 := by
  simp only [begin]
  split
  · rename_i hc
    exact ⟨⟨by simp, by simpa using hc⟩, by simp⟩
  · split
    · exact ⟨trivial, by simp⟩
    · split <;> exact ⟨trivial, by simp⟩

private theorem started_next {p : Place} (hp : p.Started) (c : Char) :
    (p.next c).1.Started ∧ ∀ w, .word w ∈ (p.next c).2 → Spelled w := by
  cases p with
  | between =>
    obtain ⟨hstarted, hnone⟩ := started_begin c
    exact ⟨hstarted, fun w hw => absurd hw (hnone w)⟩
  | word w =>
    simp only [Place.next]
    split
    · rename_i hc
      exact ⟨⟨by simp, by simpa [hc] using hp.2⟩, by simp⟩
    · obtain ⟨hstarted, hnone⟩ := started_begin c
      refine ⟨hstarted, fun v hv => ?_⟩
      rcases List.mem_cons.mp hv with hv | hv
      · cases hv
        exact hp
      · exact absurd hv (hnone v)
  | literal t =>
    simp only [Place.next]
    split <;> exact ⟨trivial, by simp⟩
  | closed t =>
    simp only [Place.next]
    split
    · exact ⟨trivial, by simp⟩
    · obtain ⟨hstarted, hnone⟩ := started_begin c
      refine ⟨hstarted, fun v hv => ?_⟩
      rcases List.mem_cons.mp hv with hv | hv
      · cases hv
      · exact absurd hv (hnone v)

private theorem spelled_of_read {p : Place} (hp : p.Started) (h : read p s = some ts)
    (hw : .word w ∈ ts) : Spelled w := by
  induction s generalizing p ts with
  | nil =>
    cases p with
    | literal => cases h
    | between | closed =>
      cases h
      simp [Place.pending] at hw
    | word v =>
      cases h
      obtain rfl : w = v := by simpa [Place.pending] using hw
      exact hp
  | cons c s ih =>
    obtain ⟨hnext, hwords⟩ := started_next hp c
    rw [read] at h
    obtain ⟨us, hus, rfl⟩ := Option.map_eq_some_iff.mp h
    rcases List.mem_append.mp hw with hw | hw
    · exact hwords w hw
    · exact ih hnext hus hw

/-- The words that are read are words. -/
theorem spelled_of_tokens (h : tokens s = some ts) (hw : .word w ∈ ts) : Spelled w :=
  spelled_of_read (p := .between) trivial h hw

end Words
section Items

/-- The items of a list up to the parenthesis that closes it, and what follows that. It begins
within an item, inside as many parentheses as `depth`. -/
def items (item : List Token) : Nat → List Token → Option (List (List Token) × List Token)
  | depth, .mark '(' :: ts => items (item ++ [.mark '(']) (depth + 1) ts
  | 0, .mark ')' :: ts => some ([item], ts)
  | depth + 1, .mark ')' :: ts => items (item ++ [.mark ')']) depth ts
  | 0, .mark ',' :: ts => (items [] 0 ts).map fun y => (item :: y.1, y.2)
  | depth, t :: ts => items (item ++ [t]) depth ts
  | _, [] => none

/-- Tokens that are read as part of an item. -/
def Enclosed (depth : Nat) (x : List Token) : Prop :=
  ∀ item ts, items item depth (x ++ ts) = items (item ++ x) depth ts

namespace Enclosed
variable {depth : Nat} {x y : List Token}

theorem append (hx : Enclosed depth x) (hy : Enclosed depth y) : Enclosed depth (x ++ y) := by
  intro item ts
  rw [List.append_assoc, hx, hy, List.append_assoc]

theorem word (w : List Char) : Enclosed depth [.word w] := by
  intro item ts
  cases depth <;> rfl

theorem comma : Enclosed (depth + 1) [.mark ','] := by
  intro item ts
  rfl

/-- Inside parentheses commas do not end an item. -/
theorem parens (h : Enclosed (depth + 1) x) : Enclosed depth (.mark '(' :: (x ++ [.mark ')'])) := by
  intro item ts
  calc items item depth (.mark '(' :: (x ++ [.mark ')']) ++ ts)
      _ = items (item ++ [.mark '(']) (depth + 1) (x ++ .mark ')' :: ts) := by
        rw [List.cons_append, List.append_assoc, List.singleton_append]
        cases depth <;> rfl
      _ = items (item ++ [.mark '('] ++ x) (depth + 1) (.mark ')' :: ts) := h _ _
      _ = items (item ++ .mark '(' :: (x ++ [.mark ')'])) depth ts := by
        simp [items]

end Enclosed

/-- Items with commas between them are told apart. -/
theorem items_commas {xs : List (List Token)} (hne : xs ≠ []) (h : ∀ x ∈ xs, Enclosed 0 x)
    (ts : List Token) :
    items [] 0 ([Token.mark ','].intercalate xs ++ .mark ')' :: ts) = some (xs, ts) := by
  induction xs with
  | nil => exact absurd rfl hne
  | cons x xs ih =>
    obtain ⟨hx, hxs⟩ := List.forall_mem_cons.mp h
    cases xs with
    | nil => rw [List.intercalate_singleton, hx, List.nil_append, items]
    | cons y xs =>
      have hrest := ih (List.cons_ne_nil y xs) hxs
      rw [List.intercalate_cons_cons, List.append_assoc, List.append_assoc, hx, List.nil_append,
        List.singleton_append, items, hrest]
      rfl

/-- What is in an item was in the list. -/
theorem mem_of_items {item : List Token} {depth : Nat} {ts : List Token} {xs : List (List Token)}
    {rest : List Token} (h : items item depth ts = some (xs, rest)) {x : List Token} (hx : x ∈ xs)
    {t : Token} (ht : t ∈ x) : t ∈ item ∨ t ∈ ts := by
  have taken {m : Token} {item ts : List Token} (hin : t ∈ item ++ [m] ∨ t ∈ ts) :
      t ∈ item ∨ t ∈ m :: ts := by
    simpa [or_assoc] using hin
  induction item, depth, ts using items.induct generalizing xs rest with
  | case1 item depth ts ih => exact taken (ih (by rwa [items] at h) hx)
  | case2 item ts =>
    obtain ⟨rfl, rfl⟩ : [item] = xs ∧ ts = rest := by simpa [items] using h
    exact .inl (List.mem_singleton.mp hx ▸ ht)
  | case3 item depth ts ih => exact taken (ih (by rwa [items] at h) hx)
  | case4 item ts ih =>
    rw [items] at h
    obtain ⟨⟨ys, rest'⟩, hys, he⟩ := Option.map_eq_some_iff.mp h
    cases he
    rcases List.mem_cons.mp hx with rfl | hx
    · exact .inl ht
    · rcases ih hys hx with hin | hin
      · cases hin
      · exact .inr (List.mem_cons_of_mem _ hin)
  | case5 item depth t' ts h₁ h₂ h₃ h₄ ih =>
    rw [items] at h
    · exact taken (ih h hx)
    all_goals assumption
  | case6 item depth =>
    rw [items] at h
    cases h

end Items
end PStress.Text
