import Mathlib.Data.List.Nodup
import Mathlib.Tactic.Common

/-! Searching a list with a running value, and choosing by weight along running sums. -/
namespace PStress.Selection
variable {α β : Type*}

/-- The first element whose running value passes the test; the value includes the element. -/
def findRunning (add : β → α → β) (p : β → Bool) : β → List α → Option α
  | _, [] => none
  | b, a :: l => if p (add b a) then some a else findRunning add p (add b a) l

def running (add : β → α → β) : β → List α → List β
  | _, [] => []
  | b, a :: l => add b a :: running add (add b a) l

section Search
variable {add add' : β → α → β} {p : β → Bool} {b : β}

private theorem findRunning_append (l l' : List α) : findRunning add p b (l ++ l') =
    (findRunning add p b l).or (findRunning add p (l.foldl add b) l') := by
  induction l generalizing b with
  | nil => rfl
  | cons a l ih =>
    simp only [List.cons_append, findRunning, List.foldl_cons]
    split
    · rfl
    · exact ih

theorem mem_of_findRunning {l : List α} {a : α} (h : findRunning add p b l = some a) :
    a ∈ l := by
  induction l generalizing b with
  | nil => cases h
  | cons c l ih =>
    simp only [findRunning] at h
    split at h
    · cases h
      exact List.mem_cons_self
    · exact List.mem_cons_of_mem c (ih h)

/-- The search succeeds if some running value passes. -/
theorem findRunning_isSome {l : List α} :
    (findRunning add p b l).isSome ↔ ∃ x ∈ running add b l, p x := by
  induction l generalizing b with
  | nil => simp [findRunning, running]
  | cons a l ih =>
    simp only [findRunning, running, List.mem_cons, exists_eq_or_imp]
    split
    · simp [*]
    · simp [*]

private theorem findRunning_eq_none {l : List α} (h : ∀ x ∈ running add b l, p x = false) :
    findRunning add p b l = none := by
  rw [← Option.not_isSome_iff_eq_none, findRunning_isSome]
  rintro ⟨x, hx, hp⟩
  rw [h x hx] at hp
  cases hp

private theorem foldl_mem_running {l : List α} (h : l ≠ []) : l.foldl add b ∈ running add b l := by
  induction l generalizing b with
  | nil => exact absurd rfl h
  | cons a l ih =>
    rw [List.foldl_cons, running]
    by_cases hl : l = []
    · subst hl
      exact List.mem_cons_self
    · exact List.mem_cons_of_mem _ (ih hl)

end Search

section Weights
variable (w : α → Nat)

def weight : List α → Nat
  | [] => 0
  | a :: l => w a + weight l

@[simp] theorem weight_nil : weight w [] = 0 := rfl

@[simp] theorem weight_cons (a : α) (l : List α) : weight w (a :: l) = w a + weight w l := rfl

@[simp] theorem weight_append (l l' : List α) :
    weight w (l ++ l') = weight w l + weight w l' := by
  induction l with
  | nil => simp
  | cons a l ih => simp [ih, Nat.add_assoc]

theorem weight_perm {l l' : List α} (h : l.Perm l') : weight w l = weight w l' := by
  induction h with
  | nil => rfl
  | cons a _ ih => rw [weight_cons, weight_cons, ih]
  | swap a b l => simp only [weight_cons]; omega
  | trans _ _ ih ih' => rw [ih, ih']

theorem weight_sublist {l l' : List α} (h : l.Sublist l') : weight w l ≤ weight w l' := by
  induction h with
  | slnil => exact Nat.le_refl _
  | cons a _ ih => exact Nat.le_trans ih (Nat.le_add_left _ _)
  | cons_cons a _ ih => exact Nat.add_le_add_left ih _

def pick (o b : Nat) (l : List α) : Option α := findRunning (fun s a => s + w a) (o ≤ ·) b l

variable {w} {o b : Nat}

private theorem foldl_weight (l : List α) : l.foldl (fun s a => s + w a) b = b + weight w l := by
  induction l generalizing b with
  | nil => rfl
  | cons a l ih => rw [List.foldl_cons, ih, weight_cons, Nat.add_assoc]

private theorem running_le {l : List α} {x : Nat} (h : x ∈ running (fun s a => s + w a) b l) :
    b ≤ x ∧ x ≤ b + weight w l := by
  induction l generalizing b with
  | nil => cases h
  | cons a l ih =>
    rw [running, List.mem_cons] at h
    rw [weight_cons]
    rcases h with rfl | h
    · omega
    · have := ih h
      omega

theorem pick_append (l l' : List α) :
    pick w o b (l ++ l') = (pick w o b l).or (pick w o (b + weight w l) l') := by
  rw [pick, findRunning_append, foldl_weight]
  rfl

/-- An offset beyond the weight of a list falls on no element of it. -/
theorem pick_eq_none {l : List α} (h : b + weight w l < o) : pick w o b l = none := by
  apply findRunning_eq_none
  intro x hx
  have := (running_le hx).2
  exact decide_eq_false (by omega)

theorem pick_isSome {l : List α} (hl : l ≠ []) (h : o ≤ b + weight w l) :
    (pick w o b l).isSome := by
  refine findRunning_isSome.mpr ⟨_, foldl_mem_running hl, ?_⟩
  rw [foldl_weight]
  exact decide_eq_true h

theorem exists_pick {l : List α} (hl : l ≠ []) (h : o ≤ b + weight w l) :
    ∃ a, pick w o b l = some a := Option.isSome_iff_exists.mp (pick_isSome hl h)

/-- An offset past the elements before `a` that `a` reaches falls on `a`. -/
theorem pick_eq_some {l l' : List α} {a : α} (hlo : b + weight w l < o)
    (hhi : o ≤ b + weight w l + w a) : pick w o b (l ++ a :: l') = some a := by
  rw [pick_append, pick_eq_none hlo, Option.none_or, pick, findRunning]
  exact if_pos (decide_eq_true hhi)

/-- The first element also has the offsets that are reached before it. -/
theorem pick_head {l : List α} {a : α} (h : o ≤ b + w a) : pick w o b (a :: l) = some a :=
  if_pos (decide_eq_true h)

/-- Offset and sum may be moved together. -/
theorem pick_shift (k : Nat) (l : List α) : pick w (o + k) (b + k) l = pick w o b l := by
  induction l generalizing b with
  | nil => rfl
  | cons a l ih =>
    have hs : b + k + w a = b + w a + k := by omega
    simp only [pick, findRunning, hs, Nat.add_le_add_iff_right]
    split
    · rfl
    · exact ih

/-- An offset beyond the weight of a list falls where it falls in what follows. -/
theorem pick_skip {l : List α} (l' : List α) (h : b + weight w l < o) :
    pick w o b (l ++ l') = pick w o (b + weight w l) l' := by
  rw [pick_append, pick_eq_none h, Option.none_or]

/-- Sums that stay below the modulus are the sums of the machine. -/
theorem findRunning_mod {m : Nat} {p : Nat → Bool} {l : List α} (h : b + weight w l < m) :
    findRunning (fun s a => (s + w a) % m) p b l = findRunning (fun s a => s + w a) p b l := by
  induction l generalizing b with
  | nil => rfl
  | cons a l ih =>
    rw [weight_cons] at h
    have hs : (b + w a) % m = b + w a := Nat.mod_eq_of_lt (by omega)
    simp only [findRunning, hs]
    rw [ih (by omega)]

/-- The running sums of the machine are the sums of the elements so far, reduced. -/
theorem running_mod {m : Nat} (l : List α) (b : Nat) :
    running (fun s a => (s + w a) % m) b l =
      (List.range l.length).map fun i => (b + weight w (l.take (i + 1))) % m := by
  induction l generalizing b with
  | nil => rfl
  | cons a l ih =>
    rw [running, ih, List.length_cons, List.range_succ_eq_map, List.map_cons, List.map_map]
    congr 1
    apply List.map_congr_left
    intro i _
    rw [Function.comp_apply, List.take_succ_cons, weight_cons, Nat.mod_add_mod,
      Nat.add_assoc]

end Weights
end PStress.Selection
