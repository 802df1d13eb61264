import Mathlib.Analysis.SpecialFunctions.Log.Basic
import ScopedGrammar.Scalar.Basic

/-!
# Exact numbers

The scalars of the theorems about probabilities are real numbers, two infinities and an undefined
value. Operations on real numbers are exact. Around them the rules of floating point hold, except
that there is one zero: a sum of opposite infinities is undefined, the logarithm of zero is the
lower infinity, and the undefined value compares with nothing.
-/
namespace ScopedGrammar

/-- A real number, an infinity, or an undefined value. -/
inductive Exact where
  | real (x : ℝ)
  | inf
  | negInf
  | nan

namespace Exact

/-- The infinity of a sign; zero has none. -/
noncomputable def infOfSign (x : ℝ) : Exact :=
  if 0 < x then inf else if x < 0 then negInf else nan

/-- The opposite number. -/
def opposite : Exact → Exact
  | real x => real (-x)
  | inf => negInf
  | negInf => inf
  | nan => nan

def plus : Exact → Exact → Exact
  | real x, real y => real (x + y)
  | real _, inf | inf, real _ | inf, inf => inf
  | real _, negInf | negInf, real _ | negInf, negInf => negInf
  | inf, negInf | negInf, inf | nan, _ | _, nan => nan

noncomputable def times : Exact → Exact → Exact
  | real x, real y => real (x * y)
  | real x, inf | inf, real x => infOfSign x
  | real x, negInf | negInf, real x => infOfSign (-x)
  | inf, inf | negInf, negInf => inf
  | inf, negInf | negInf, inf => negInf
  | nan, _ | _, nan => nan

noncomputable def quotient : Exact → Exact → Exact
  | real x, real y => if y = 0 then infOfSign x else real (x / y)
  | real _, inf | real _, negInf => real 0
  | inf, real y => if y < 0 then negInf else inf
  | negInf, real y => if y < 0 then inf else negInf
  | inf, inf | inf, negInf | negInf, inf | negInf, negInf | nan, _ | _, nan => nan

noncomputable def logarithm : Exact → Exact
  | real x => if 0 < x then real (Real.log x) else if x = 0 then negInf else nan
  | inf => inf
  | negInf | nan => nan

noncomputable def exponential : Exact → Exact
  | real x => real (Real.exp x)
  | inf => inf
  | negInf => real 0
  | nan => nan

open Classical in
/-- The first number is below the second. -/
noncomputable def below : Exact → Exact → Bool
  | real x, real y => decide (x < y)
  | real _, inf | negInf, real _ | negInf, inf => true
  | inf, _ | _, negInf | nan, _ | _, nan => false

open Classical in
/-- The numbers are the same; an undefined value is not even the same as itself. -/
noncomputable def same : Exact → Exact → Bool
  | real x, real y => decide (x = y)
  | inf, inf | negInf, negInf => true
  | _, _ => false

end Exact

noncomputable instance : Scalar Exact where
  zero := .real 0
  one := .real 1
  add := .plus
  sub x y := x.plus y.opposite
  neg := .opposite
  mul := .times
  div := .quotient
  beq x y := x.same y
  ofNat n := .real n
  log := .logarithm
  exp := .exponential
  inf := .inf
  nan := .nan
  lt x y := x.below y
  le x y := x.below y || x.same y

namespace Exact

theorem zero_eq : (0 : Exact) = real 0 := rfl

theorem one_eq : (1 : Exact) = real 1 := rfl

@[simp] theorem ofNat_eq (n : ℕ) : (Scalar.ofNat n : Exact) = real n := rfl

@[simp] theorem negInf_eq : (Scalar.negInf : Exact) = negInf := rfl

@[simp] theorem inf_eq : (Scalar.inf : Exact) = inf := rfl

@[simp] theorem nan_eq : (Scalar.nan : Exact) = nan := rfl

@[simp] theorem real_add (x y : ℝ) : real x + real y = real (x + y) := rfl

@[simp] theorem neg_real (x : ℝ) : -real x = real (-x) := rfl

@[simp] theorem real_sub (x y : ℝ) : real x - real y = real (x - y) := by
  rw [sub_eq_add_neg]; rfl

theorem real_div {x y : ℝ} (hy : y ≠ 0) : real x / real y = real (x / y) := if_neg hy

@[simp] theorem negInf_add_real (x : ℝ) : negInf + real x = negInf := rfl

@[simp] theorem real_add_negInf (x : ℝ) : real x + negInf = negInf := rfl

@[simp] theorem negInf_add_negInf : negInf + negInf = negInf := rfl

@[simp] theorem negInf_sub_real (x : ℝ) : negInf - real x = negInf := rfl

@[simp] theorem real_sub_negInf (x : ℝ) : real x - negInf = inf := rfl

@[simp] theorem negInf_sub_negInf : negInf - negInf = nan := rfl

@[simp] theorem nan_add (x : Exact) : nan + x = nan := by cases x <;> rfl

@[simp] theorem add_nan (x : Exact) : x + nan = nan := by cases x <;> rfl

@[simp] theorem nan_sub (x : Exact) : nan - x = nan := by cases x <;> rfl

@[simp] theorem exp_real (x : ℝ) : Scalar.exp (real x) = real (Real.exp x) := rfl

@[simp] theorem exp_negInf : Scalar.exp negInf = real 0 := rfl

theorem log_real {x : ℝ} (hx : 0 < x) : Scalar.log (real x) = real (Real.log x) := if_pos hx

@[simp] theorem lt_real (x y : ℝ) : Scalar.lt (real x) (real y) = true ↔ x < y :=
  decide_eq_true_iff

@[simp] theorem zero_lt_real (x : ℝ) : Scalar.lt 0 (real x) = true ↔ 0 < x := lt_real 0 x

@[simp] theorem lt_negInf (x : Exact) : Scalar.lt x negInf = false := by cases x <;> rfl

@[simp] theorem lt_nan (x : Exact) : Scalar.lt x nan = false := by cases x <;> rfl

@[simp] theorem nan_lt (x : Exact) : Scalar.lt nan x = false := by cases x <;> rfl

@[simp] theorem negInf_lt_real (x : ℝ) : Scalar.lt negInf (real x) = true := rfl

@[simp] theorem real_beq (x y : ℝ) : (real x == real y) = true ↔ x = y := decide_eq_true_iff

@[simp] theorem le_real (x y : ℝ) : Scalar.le (real x) (real y) = true ↔ x ≤ y := by
  rw [le_iff_lt_or_eq, ← lt_real, ← real_beq]
  exact Bool.or_eq_true_iff

@[simp] theorem le_negInf (x : ℝ) : Scalar.le (real x) negInf = false := rfl

theorem lt_self_eq_false (x : Exact) : Scalar.lt x x = false := by
  cases x with
  | real x => exact decide_eq_false (lt_irrefl x)
  | inf | negInf | nan => rfl

theorem lt_eq_false_iff {x y : Exact} (hx : x ≠ nan) (hy : y ≠ nan) :
    Scalar.lt x y = false ↔ Scalar.le y x = true := by
  cases x <;> cases y <;> first | contradiction | skip
  case real.real x y => rw [← Bool.not_eq_true, lt_real, le_real, not_lt]
  case real.inf | negInf.real | negInf.inf => exact iff_of_false nofun nofun
  all_goals exact iff_of_true rfl rfl

protected theorem le_refl {x : Exact} (h : x ≠ nan) : Scalar.le x x = true :=
  (lt_eq_false_iff h h).mp (lt_self_eq_false x)

protected theorem le_of_lt {x y : Exact} (h : Scalar.lt x y = true) : Scalar.le x y = true :=
  Bool.or_eq_true_iff.mpr (.inl h)

protected theorem le_trans {x y z : Exact} (hxy : Scalar.le x y = true)
    (hyz : Scalar.le y z = true) : Scalar.le x z = true := by
  cases x <;> cases y <;> cases z <;> first | contradiction | rfl | skip
  case real.real.real x y z =>
    rw [le_real] at *
    exact hxy.trans hyz

@[simp] theorem beq_negInf (x : Exact) : (x == negInf) = true ↔ x = negInf := by
  cases x with
  | negInf => exact iff_of_true rfl rfl
  | real | inf | nan => exact iff_of_false Bool.false_ne_true nofun

@[simp] theorem beq_inf (x : Exact) : (x == inf) = true ↔ x = inf := by
  cases x with
  | inf => exact iff_of_true rfl rfl
  | real | negInf | nan => exact iff_of_false Bool.false_ne_true nofun

@[simp] theorem isNaN_iff (x : Exact) : Scalar.isNaN x = true ↔ x = nan := by
  cases x with
  | nan => exact iff_of_true rfl rfl
  | real x =>
    refine iff_of_false ?_ nofun
    rw [Scalar.isNaN, (real_beq x x).mpr rfl]
    exact Bool.false_ne_true
  | inf | negInf => exact iff_of_false Bool.false_ne_true nofun

theorem isNaN_eq_false_iff {x : Exact} : Scalar.isNaN x = false ↔ x ≠ nan := by
  rw [← Bool.not_eq_true, isNaN_iff]

theorem ne_nan_of_le {x y : Exact} (h : Scalar.le x y = true) : x ≠ nan ∧ y ≠ nan := by
  constructor <;> rintro rfl
  · cases y <;> contradiction
  · cases x <;> contradiction

/-- A number is below another one if both are defined and it is not the other way about. -/
protected theorem lt_iff {x y : Exact} :
    Scalar.lt x y = true ↔ x ≠ nan ∧ y ≠ nan ∧ Scalar.le y x = false := by
  by_cases hx : x = nan
  · simp [hx]
  by_cases hy : y = nan
  · simp [hy]
  rw [← Bool.not_eq_false, lt_eq_false_iff hx hy, Bool.not_eq_true]
  simp [hx, hy]

@[simp] theorem isInf_real (x : ℝ) : Scalar.isInf (real x) = false := rfl

@[simp] theorem isFinite_real (x : ℝ) : Scalar.isFinite (real x) = true := by
  rw [Scalar.isFinite, Scalar.isNaN, (real_beq x x).mpr rfl]
  rfl

/-- The real number, and zero in place of the other values. -/
def toReal : Exact → ℝ
  | real x => x
  | _ => 0

@[simp] theorem toReal_real (x : ℝ) : (real x).toReal = x := rfl

@[simp] theorem sum_map_real {α : Type} (f : α → ℝ) (xs : List α) :
    Scalar.sum (xs.map fun x => real (f x)) = real (xs.map f).sum := by
  have h : ∀ a : ℝ, (xs.map fun x => real (f x)).foldl (· + ·) (real a) =
      real (a + (xs.map f).sum) := by
    induction xs with
    | nil => simp
    | cons x xs ih => intro a; simp [ih, add_assoc]
  simpa [Scalar.sum, zero_eq] using h 0

/-- A finite number that is not negative. -/
def Nonneg (x : Exact) : Prop := ∃ r : ℝ, 0 ≤ r ∧ x = real r

/-- A finite number above zero. -/
def Positive (x : Exact) : Prop := ∃ r : ℝ, 0 < r ∧ x = real r

theorem Positive.nonneg {x : Exact} : x.Positive → x.Nonneg
  | ⟨r, hr, hx⟩ => ⟨r, hr.le, hx⟩

theorem Positive.toReal_pos {x : Exact} : x.Positive → 0 < x.toReal
  | ⟨_, hr, hx⟩ => hx ▸ hr

theorem Nonneg.toReal_nonneg {x : Exact} : x.Nonneg → 0 ≤ x.toReal
  | ⟨_, hr, hx⟩ => hx ▸ hr

theorem Nonneg.real_toReal {x : Exact} : x.Nonneg → real x.toReal = x
  | ⟨_, _, hx⟩ => hx ▸ rfl

theorem Nonneg.zero_lt_iff {x : Exact} (h : x.Nonneg) :
    Scalar.lt 0 x = true ↔ 0 < x.toReal := by
  obtain ⟨r, -, rfl⟩ := h
  exact zero_lt_real r

theorem nonneg_or_inf_of_le {x : Exact} (h : Scalar.le 0 x = true) : x.Nonneg ∨ x = inf := by
  cases x with
  | real x => exact .inl ⟨x, by simpa [zero_eq] using h, rfl⟩
  | inf => exact .inr rfl
  | negInf => simp [zero_eq] at h
  | nan => simp [Scalar.le, below, same] at h

/-- A sum without negative terms is finite only if all its terms are. -/
theorem nonneg_of_isFinite_foldl {ws : List Exact} (h : ∀ w ∈ ws, w.Nonneg ∨ w = inf)
    {x : Exact} (hx : x.Nonneg ∨ x = inf) (hsum : Scalar.isFinite (ws.foldl (· + ·) x) = true) :
    x.Nonneg ∧ ∀ w ∈ ws, w.Nonneg := by
  induction ws generalizing x with
  | nil =>
    rcases hx with hx | rfl
    · exact ⟨hx, by simp⟩
    · simp [Scalar.isFinite, Scalar.isInf, Scalar.isNaN, BEq.beq, same] at hsum
  | cons w ws ih =>
    have hws := fun v hv => h v (List.mem_cons_of_mem w hv)
    rcases h w (by simp) with ⟨r, hr, rfl⟩ | rfl
    · rcases hx with ⟨q, hq, rfl⟩ | rfl
      · have := (ih hws (.inl ⟨q + r, add_nonneg hq hr, rfl⟩) hsum).2
        exact ⟨⟨q, hq, rfl⟩, by simpa using ⟨⟨r, hr, rfl⟩, this⟩⟩
      · obtain ⟨⟨_, _, hinf⟩, -⟩ := ih hws (.inr rfl) hsum
        cases hinf
    · rcases hx with ⟨q, hq, rfl⟩ | rfl
      · obtain ⟨⟨_, _, hinf⟩, -⟩ := ih hws (.inr rfl) hsum
        cases hinf
      · obtain ⟨⟨_, _, hinf⟩, -⟩ := ih hws (.inr rfl) hsum
        cases hinf

theorem sum_eq_real {ws : List Exact} (h : ∀ w ∈ ws, w.Nonneg) :
    Scalar.sum ws = real (ws.map toReal).sum := by
  have hmap : ws.map (fun w => real w.toReal) = ws := by
    conv_rhs => rw [← List.map_id ws]
    exact List.map_congr_left fun w hw => (h w hw).real_toReal
  rw [← sum_map_real toReal ws, hmap]

theorem sum_toReal_nonneg {ws : List Exact} (h : ∀ w ∈ ws, w.Nonneg) : 0 ≤ (ws.map toReal).sum :=
  List.sum_nonneg fun x hx => by
    obtain ⟨w, hw, rfl⟩ := List.mem_map.mp hx
    exact (h w hw).toReal_nonneg

theorem le_of_nonneg {x : Exact} : x.Nonneg → Scalar.le 0 x = true
  | ⟨r, hr, hx⟩ => by simpa [hx, zero_eq] using hr

end Exact

end ScopedGrammar
