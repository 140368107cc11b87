import Mathlib.Tactic.Common
import Mathlib.Tactic.NormNum
import PStress.Metadata.Data

/-! The arithmetic of `ps_random::random_number`: its distribution is one of `int` whatever the
type of the bounds, so bounds and result are converted. -/
namespace PStress.Actions

/-- The integral types `random_number` is used with: `int` and `std::size_t`. -/
inductive NumType where
  | int
  | size
  deriving DecidableEq, Repr

/-- The conversion of an integer to `int`. -/
def narrow (v : Int) : Int := v.bmod 4294967296

/-- The conversion of an `int` to `std::size_t`. -/
def toSize (v : Int) : Nat := (v % 18446744073709551616).toNat

def IsInt (v : Int) : Prop := -2147483648 ≤ v ∧ v < 2147483648

instance (v : Int) : Decidable (IsInt v) := inferInstanceAs (Decidable (_ ∧ _))

/-- What is known of a draw between `min` and `max`: the distribution returns some `int`, and one
within its bounds if those are in order once they are converted to `int`. -/
def Drawn (min max v : Int) : Prop :=
  IsInt v ∧ (narrow min ≤ narrow max → narrow min ≤ v ∧ v ≤ narrow max)

instance (min max v : Int) : Decidable (Drawn min max v) := inferInstanceAs (Decidable (_ ∧ _))

theorem narrow_of_isInt {v : Int} (h : IsInt v) : narrow v = v := by
  obtain ⟨hl, hu⟩ := h
  simp only [narrow, Int.bmod_def]
  split <;> omega

theorem toSize_of_isInt {v : Int} (h : IsInt v) (hv : 0 ≤ v) : (toSize v : Int) = v := by
  obtain ⟨_, hu⟩ := h
  simp only [toSize]
  omega

theorem toSize_eq_zero {v : Int} (h : IsInt v) : toSize v = 0 ↔ v = 0 := by
  obtain ⟨_, _⟩ := h
  simp only [toSize]
  omega

/-- Draws between bounds that an `int` can hold respect them. -/
theorem Drawn.between {min max v : Int} (h : Drawn min max v) (hmin : IsInt min)
    (hmax : IsInt max) (hle : min ≤ max) : min ≤ v ∧ v ≤ max := by
  have hb := h.2
  rw [narrow_of_isInt hmin, narrow_of_isInt hmax] at hb
  exact hb hle

/-- A draw is not below its lower bound if the bounds are in order as numbers of type `int`. -/
theorem Drawn.le_toSize {min : Nat} {max v : Int} (h : Drawn min max v) (hmin : IsInt min)
    (hle : narrow min ≤ narrow max) : min ≤ toSize v := by
  obtain ⟨hv, hb⟩ := h
  rw [narrow_of_isInt hmin] at hb hle
  obtain ⟨hl, _⟩ := hb hle
  have hsize := toSize_of_isInt hv (by omega)
  omega

/-- Draws of type `std::size_t` between bounds that an `int` can hold respect them. -/
theorem Drawn.toSize_between {min max : Nat} {v : Int} (h : Drawn min max v)
    (hmax : max < 2147483648) (hle : min ≤ max) : min ≤ toSize v ∧ toSize v ≤ max := by
  have hmin' : IsInt min := ⟨by omega, by omega⟩
  have hmax' : IsInt max := ⟨by omega, by omega⟩
  obtain ⟨hl, hu⟩ := h.between hmin' hmax' (by omega)
  have hv := toSize_of_isInt h.1 (by omega)
  omega

section Bounds

def NumType.min : NumType → Int
  | int => -2147483648
  | size => 0

def NumType.max : NumType → Int
  | int => 2147483647
  | size => 18446744073709551615

def NumType.Holds (type : NumType) (v : Int) : Prop := type.min ≤ v ∧ v ≤ type.max

instance (type : NumType) (v : Int) : Decidable (type.Holds v) :=
  inferInstanceAs (Decidable (_ ∧ _))

/-- The conversion of an `int` to the type. -/
def NumType.ofInt : NumType → Int → Int
  | int, v => v
  | size, v => toSize v

/-- The distribution is given bounds in order, and whatever it returns is between the bounds again
once it is converted back. -/
def NumType.RespectsBounds (type : NumType) (min max : Int) : Prop :=
  narrow min ≤ narrow max ∧ ∀ v, Drawn min max v → min ≤ type.ofInt v ∧ type.ofInt v ≤ max

/-- Either the lower bound is itself an `int`, and not above the upper one as it is converted; or
the upper bound is among those that are converted to negative numbers without change, and the
conversion keeps the order. -/
def NumType.Fits : NumType → Int → Int → Prop
  | int, _, _ => True
  | size, min, max =>
    (min < 2147483648 ∧ min ≤ narrow max) ∨
      (18446744071562067968 ≤ max ∧ narrow min ≤ narrow max)

instance : (type : NumType) → (min max : Int) → Decidable (type.Fits min max)
  | .int, _, _ => inferInstanceAs (Decidable True)
  | .size, min, max => inferInstanceAs (Decidable
    ((min < 2147483648 ∧ min ≤ narrow max) ∨
      (18446744071562067968 ≤ max ∧ narrow min ≤ narrow max)))

private theorem isInt_narrow (v : Int) : IsInt (narrow v) := by
  simp only [IsInt, narrow, Int.bmod_def]
  split <;> omega

variable {min max : Int}

private theorem drawn_iff {v : Int} (h : narrow min ≤ narrow max) :
    Drawn min max v ↔ narrow min ≤ v ∧ v ≤ narrow max := by
  refine ⟨fun hv => hv.2 h, fun hv => ⟨?_, fun _ => hv⟩⟩
  obtain ⟨hl, _⟩ := isInt_narrow min
  obtain ⟨_, hu⟩ := isInt_narrow max
  exact ⟨by omega, by omega⟩

private theorem respectsBounds_int (hmin : NumType.int.Holds min) (hmax : NumType.int.Holds max)
    (hle : min ≤ max) : NumType.int.RespectsBounds min max := by
  simp only [NumType.Holds, NumType.min, NumType.max] at hmin hmax
  have hi : IsInt min := ⟨by omega, by omega⟩
  have ha : IsInt max := ⟨by omega, by omega⟩
  refine ⟨?_, fun v hv => hv.between hi ha hle⟩
  rwa [narrow_of_isInt hi, narrow_of_isInt ha]

private theorem narrow_size {v : Int} (hv : NumType.size.Holds v) :
    0 ≤ narrow v ∧ narrow v ≤ v ∧ v < 18446744071562067968 ∧ (narrow v = v ↔ v < 2147483648) ∨
      narrow v < 0 ∧ 2147483648 ≤ v ∧ v ≤ narrow v + 18446744073709551616 ∧
        (v = narrow v + 18446744073709551616 ↔ 18446744071562067968 ≤ v) := by
  simp only [NumType.Holds, NumType.min, NumType.max] at hv
  simp only [narrow, Int.bmod_def]
  split <;> omega

private theorem ofInt_size {v : Int} (hv : IsInt v) :
    NumType.size.ofInt v = if 0 ≤ v then v else v + 18446744073709551616 := by
  obtain ⟨hl, hu⟩ := hv
  simp only [NumType.ofInt, toSize]
  split <;> omega

private theorem respectsBounds_size (hmin : NumType.size.Holds min)
    (hmax : NumType.size.Holds max) :
    NumType.size.RespectsBounds min max ↔ NumType.size.Fits min max := by
  have hn := narrow_size hmin
  have hx := narrow_size hmax
  constructor
  · rintro ⟨hle, hv⟩
    -- the bounds themselves may be drawn
    have hl := (hv (narrow min) ((drawn_iff hle).mpr ⟨Int.le_refl _, hle⟩)).1
    have hu := (hv (narrow max) ((drawn_iff hle).mpr ⟨hle, Int.le_refl _⟩)).2
    rw [ofInt_size (isInt_narrow min)] at hl
    rw [ofInt_size (isInt_narrow max)] at hu
    by_cases hneg : narrow min < 0 ∧ 0 ≤ narrow max
    · -- from a negative bound to one that is not, -1 may be drawn: the largest number of the type
      have hlast := (hv (-1) ((drawn_iff hle).mpr ⟨by omega, by omega⟩)).2
      rw [ofInt_size (by decide)] at hlast
      simp only [NumType.Holds, NumType.max] at hmax
      norm_num at hlast
      omega
    · simp only [NumType.Fits]
      split at hl <;> split at hu <;> omega
  · intro hf
    simp only [NumType.Fits] at hf
    simp only [NumType.Holds, NumType.min, NumType.max] at hmin hmax
    have hle : narrow min ≤ narrow max := by omega
    refine ⟨hle, fun v hv => ?_⟩
    obtain ⟨hl, hu⟩ := (drawn_iff hle).mp hv
    rw [ofInt_size hv.1]
    split <;> omega

/-- A random number respects its bounds just if the conversion to `int` keeps them, or keeps enough
of them; the form without arguments does so for `int` only. -/
theorem respectsBounds_iff (type : NumType) {min max : Int} (hmin : type.Holds min)
    (hmax : type.Holds max) (hle : min ≤ max) :
    (type.RespectsBounds min max ↔ type.Fits min max) ∧
      (type.RespectsBounds type.min type.max ↔ type = .int) := by
  cases type with
  | int =>
    have hfull : NumType.int.RespectsBounds NumType.int.min NumType.int.max :=
      respectsBounds_int (by decide) (by decide) (by decide)
    exact ⟨iff_of_true (respectsBounds_int hmin hmax hle) trivial, iff_of_true hfull rfl⟩
  | size =>
    refine ⟨respectsBounds_size hmin hmax, ?_⟩
    rw [respectsBounds_size (by decide) (by decide)]
    decide

/-- The number of columns with the default configuration. -/
theorem respectsBounds_columns : NumType.size.Holds 2 ∧ NumType.size.Holds 20 ∧
    NumType.size.RespectsBounds 2 20 :=
  ⟨by decide, by decide, (respectsBounds_iff .size (by decide) (by decide) (by decide)).1.mpr
    (by decide)⟩

/-- The number in a column's name: the bounds become 0 and -1. -/
theorem bounds_out_of_order : ¬ ∀ (type : NumType) (min max : Int), type.Holds min →
    type.Holds max → min ≤ max → type.RespectsBounds min max := by
  intro h
  obtain ⟨hle, _⟩ := h .size NumType.size.min NumType.size.max (by decide) (by decide) (by decide)
  exact absurd hle (by decide)

end Bounds
end PStress.Actions
