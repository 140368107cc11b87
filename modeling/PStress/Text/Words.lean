import Mathlib.Data.List.Basic
import Mathlib.Tactic.Common

/-! Reading words, numbers and fixed texts from lists of characters. -/
namespace PStress.Text
variable {p : Char → Bool} {s t w : List Char}

theorem length_dropWhile_le (p : Char → Bool) (s : List Char) :
    (s.dropWhile p).length ≤ s.length := (List.dropWhile_sublist p).length_le

theorem head_dropWhile {c : Char} (h : s.dropWhile p = c :: t) : p c = false := by
  induction s with
  | nil => cases h
  | cons a s ih =>
    rw [List.dropWhile_cons] at h
    split at h
    · exact ih h
    · rename_i ha
      cases h
      simpa using ha

/-- Reading stops at the end of a word. -/
theorem takeWhile_word (hw : ∀ c ∈ w, p c) (ht : ∀ c r, t = c :: r → p c = false) :
    (w ++ t).takeWhile p = w ∧ (w ++ t).dropWhile p = t := by
  rw [List.takeWhile_append_of_pos hw, List.dropWhile_append_of_pos hw]
  cases t with
  | nil => simp
  | cons c r => simp [ht c r rfl]

def strip (t s : List Char) : Option (List Char) :=
  if t.isPrefixOf s then some (s.drop t.length) else none

@[simp] private theorem strip_append (t s : List Char) : strip t (t ++ s) = some s := by
  simp [strip]

def stripEnd (t s : List Char) : Option (List Char) := (strip t.reverse s.reverse).map List.reverse

@[simp] private theorem stripEnd_append (s t : List Char) : stripEnd t (s ++ t) = some s := by
  simp [stripEnd]

private theorem strip_eq_none {t u : List Char} (h : ¬ t.isPrefixOf u ∧ t.length ≤ u.length)
    (s : List Char) : strip t (u ++ s) = none := by
  rw [strip, if_neg]
  rw [List.isPrefixOf_iff_prefix] at h ⊢
  exact fun hp => h.1 (List.prefix_of_prefix_length_le hp (List.prefix_append u s) h.2)

@[simp] private theorem toString_text (s : String) : toString s = s := rfl

def number (s : List Char) : Option Nat :=
  if s ≠ [] ∧ s.all Char.isDigit then some (Nat.ofDigitChars 10 s 0) else none

theorem isDigit_of_mem_toString {n : Nat} {c : Char} (h : c ∈ (toString n).toList) :
    c.isDigit := by
  rw [Nat.toString_eq_repr, Nat.toList_repr] at h
  exact Nat.isDigit_of_mem_toDigits (by decide) (by decide) h

theorem toString_ne_nil (n : Nat) : (toString n).toList ≠ [] := by simp

theorem number_toString (n : Nat) : number (toString n).toList = some n := by
  rw [number, if_pos]
  · rw [Nat.toString_eq_repr, Nat.toList_repr, Nat.ofDigitChars_toDigits (by decide) (by decide)]
  · exact ⟨toString_ne_nil n, List.all_eq_true.mpr fun c => isDigit_of_mem_toString⟩

end PStress.Text
