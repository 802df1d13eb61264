import ScopedGrammar.Posterior.Stock
import ScopedGrammar.Proofs.Scalar.Exact

/-!
# Breaking off a likelihood

A sum of terms that are not positive only falls, so it may be given up as soon as it is below a
bound: the rest cannot bring it back. That takes little of the addition. It need be neither
associative nor exact, as long as a term that is not positive never raises a sum, so floating point
is covered as well. The bound is looked at behind each term; without data nothing is compared with
it.
-/
namespace ScopedGrammar

/-- Defined numbers are totally preordered with the lower infinity at the bottom, an undefined one
compares with nothing, and to add a number that is not positive to another one never raises it. -/
structure Scalar.FallingSums (K : Type) [Scalar K] : Prop where
  defined_of_le : ∀ {x y : K}, le x y = true → isNaN x = false ∧ isNaN y = false
  le_refl : ∀ {x : K}, isNaN x = false → le x x = true
  le_trans : ∀ {x y z : K}, le x y = true → le y z = true → le x z = true
  lt_iff : ∀ {x y : K}, lt x y = true ↔ isNaN x = false ∧ isNaN y = false ∧ le y x = false
  negInf_le : ∀ {x : K}, isNaN x = false → le negInf x = true
  eq_negInf_of_le : ∀ {x : K}, le x negInf = true → x = negInf
  beq_negInf : ∀ {x : K}, (x == negInf) = true ↔ x = negInf
  zero_defined : isNaN (0 : K) = false
  add_le : ∀ {x y : K}, le x 0 = true → le y 0 = true → le (x + y) x = true

namespace Scalar.FallingSums

variable {K : Type} [Scalar K] {bound acc x y : K} {xs : List K}

theorem zero_le_zero (h : FallingSums K) : le (0 : K) 0 = true := h.le_refl h.zero_defined

theorem add_le_zero (h : FallingSums K) (hx : le x 0 = true) (hy : le y 0 = true) :
    le (x + y) 0 = true :=
  h.le_trans (h.add_le hx hy) hx

theorem lt_of_le_of_lt (h : FallingSums K) (hxy : le x y = true) (hy : lt y bound = true) :
    lt x bound = true := by
  obtain ⟨-, hbound, hnot⟩ := h.lt_iff.mp hy
  refine h.lt_iff.mpr ⟨(h.defined_of_le hxy).1, hbound, ?_⟩
  rw [← Bool.not_eq_true] at hnot ⊢
  exact fun hle => hnot (h.le_trans hle hxy)

theorem lt_negInf (h : FallingSums K) (x : K) : lt x negInf = false := by
  rw [← Bool.not_eq_true, h.lt_iff]
  rintro ⟨hx, -, hnot⟩
  simp [h.negInf_le hx] at hnot

theorem foldl_le (h : FallingSums K) (hacc : le acc 0 = true) (hxs : ∀ x ∈ xs, le x 0 = true) :
    le (xs.foldl (· + ·) acc) acc = true := by
  induction xs generalizing acc with
  | nil => exact h.le_refl (h.defined_of_le hacc).1
  | cons x xs ih =>
    obtain ⟨hx, hxs⟩ := List.forall_mem_cons.mp hxs
    exact h.le_trans (ih (h.add_le_zero hacc hx) hxs) (h.add_le hacc hx)

theorem foldl_negInf (h : FallingSums K) (hxs : ∀ x ∈ xs, le x 0 = true) :
    xs.foldl (· + ·) (negInf : K) = negInf :=
  h.eq_negInf_of_le (h.foldl_le (h.negInf_le h.zero_defined) hxs)

/-- A sum that is broken off below a bound is the whole sum, or impossible if that is below the
bound. The first term is added before anything is compared with the bound. -/
theorem sumAbove_cons (h : FallingSums K) (hacc : le acc 0 = true)
    (hxs : ∀ y ∈ x :: xs, le y 0 = true) :
    (sumAbove bound acc (x :: xs)).1 =
      if lt ((x :: xs).foldl (· + ·) acc) bound then negInf else (x :: xs).foldl (· + ·) acc := by
  induction xs generalizing acc x with
  | nil =>
    have hsum := h.add_le_zero hacc (hxs x List.mem_cons_self)
    rw [sumAbove, (h.defined_of_le hsum).1, Bool.or_false, List.foldl_cons, List.foldl_nil]
    split
    · next hbot => simp [h.beq_negInf.mp hbot]
    · split <;> rfl
  | cons y ys ih =>
    obtain ⟨hx, hys⟩ := List.forall_mem_cons.mp hxs
    have hsum := h.add_le_zero hacc hx
    rw [sumAbove, (h.defined_of_le hsum).1, Bool.or_false, List.foldl_cons]
    split
    · next hbot =>
      rw [h.beq_negInf.mp hbot, h.foldl_negInf hys, ite_self]
    · split
      -- what is still to come does not bring the sum back to the bound
      · next hlow => rw [if_pos (h.lt_of_le_of_lt (h.foldl_le hsum hys) hlow)]
      · exact ih hsum hys

end Scalar.FallingSums

namespace Exact

/-- Exact sums only fall. -/
theorem fallingSums : Scalar.FallingSums Exact where
  defined_of_le h := (ne_nan_of_le h).imp isNaN_eq_false_iff.mpr isNaN_eq_false_iff.mpr
  le_refl hx := Exact.le_refl (isNaN_eq_false_iff.mp hx)
  le_trans := Exact.le_trans
  lt_iff := by simp only [isNaN_eq_false_iff, Exact.lt_iff, implies_true]
  negInf_le {x} hx := by cases x <;> first | rfl | exact absurd rfl (isNaN_eq_false_iff.mp hx)
  eq_negInf_of_le {x} h := by cases x <;> first | rfl | contradiction
  beq_negInf := beq_negInf _
  zero_defined := isNaN_eq_false_iff.mpr nofun
  add_le {x y} hx hy := by
    cases x <;> cases y <;> first | contradiction | rfl | skip
    case real.real x y =>
      rw [zero_eq, le_real] at hx hy
      rw [real_add, le_real]
      linarith

/-- The same numbers with sums that are rounded. -/
@[reducible] noncomputable def roundedSums (round : ℝ → ℝ) : Scalar Exact :=
  { (inferInstance : Scalar Exact) with
    add := fun x y => match x.plus y with
      | real z => real (round z)
      | z => z }

theorem fallingSums_rounded {round : ℝ → ℝ} (hround : ∀ x, round x ≤ x) :
    @Scalar.FallingSums Exact (roundedSums round) := by
  refine @Scalar.FallingSums.mk _ (roundedSums round) fallingSums.defined_of_le fallingSums.le_refl
    fallingSums.le_trans fallingSums.lt_iff fallingSums.negInf_le fallingSums.eq_negInf_of_le
    fallingSums.beq_negInf fallingSums.zero_defined fun {x y} hx hy => ?_
  cases x <;> cases y <;> first | contradiction | rfl | skip
  case real.real x y =>
    have hy : y ≤ 0 := (le_real y 0).mp hy
    exact (le_real _ x).mpr ((hround (x + y)).trans (by linarith))

end Exact

namespace Model

open Scalar

variable {K D : Type} [Scalar K] {m : Model K D} {t : Tree K} {data : List D}

theorem logLikelihood_none (h : FallingSums K) (hterms : ∀ d ∈ data, le (m.term t d) 0 = true) :
    m.logLikelihood t data none = Scalar.sum (data.map (m.term t)) := by
  rw [logLikelihood, countedLikelihood, Option.getD_none, Scalar.sum]
  have hxs : ∀ x ∈ data.map (m.term t), le x 0 = true := List.forall_mem_map.mpr hterms
  cases hmap : data.map (m.term t) with
  | nil => rfl
  | cons x xs => rw [h.sumAbove_cons h.zero_le_zero (hmap ▸ hxs), if_neg (by simp [h.lt_negInf])]

/-- With a bound the log-likelihood is the sum of all terms, or impossible if there are data and the
sum is below the bound. -/
theorem logLikelihood_some (h : FallingSums K) (hterms : ∀ d ∈ data, le (m.term t d) 0 = true)
    (bound : K) : m.logLikelihood t data (some bound) =
      if data ≠ [] ∧ lt (m.logLikelihood t data none) bound = true then negInf
      else m.logLikelihood t data none := by
  rw [logLikelihood_none h hterms, logLikelihood, countedLikelihood, Option.getD_some, Scalar.sum]
  cases data with
  | nil => rfl
  | cons d ds =>
    have hxs : ∀ x ∈ (d :: ds).map (m.term t), le x 0 = true := List.forall_mem_map.mpr hterms
    rw [List.map_cons] at hxs ⊢
    rw [h.sumAbove_cons h.zero_le_zero hxs]
    exact if_congr (by simp) rfl rfl

/-- The likelihood of data whose terms are not positive, added up in whatever way makes such sums
fall. Without a bound it is the sum of all terms from left to right. A bound that is a number leaves
it as it is if the whole sum reaches the bound, and makes it impossible otherwise, unless there are
no data to look at; an undefined bound leaves it as it is. -/
theorem logLikelihood_breakout (h : FallingSums K) (m : Model K D) (t : Tree K) (data : List D)
    (hterms : ∀ d ∈ data, le (m.term t d) 0 = true) :
    m.logLikelihood t data none = (data.map (m.term t)).foldl (· + ·) 0 ∧
      ∀ bound, m.logLikelihood t data (some bound) =
        if le bound (m.logLikelihood t data none) = true ∨ isNaN bound = true ∨ data = [] then
          m.logLikelihood t data none
        else negInf := by
  refine ⟨logLikelihood_none h hterms, fun bound => ?_⟩
  have hdefined : isNaN (m.logLikelihood t data none) = false := by
    rw [logLikelihood_none h hterms]
    exact (h.defined_of_le (h.foldl_le h.zero_le_zero (List.forall_mem_map.mpr hterms))).1
  rw [logLikelihood_some h hterms, ← ite_not]
  refine if_congr ?_ rfl rfl
  rw [h.lt_iff, hdefined]
  cases le bound (m.logLikelihood t data none) <;> cases isNaN bound <;> simp

/-- Terms of -1 and -2 add up to -3: a bound of -5/2 makes the likelihood impossible, one of -3 does
not. With sums rounded down to integers two terms of -1/2 come to -2, and -3/2 is not reached. -/
theorem logLikelihood_breakout_flat :
    let t : Tree Exact := .node "T" "c" .plain none
    let m : Model Exact Exact := stockModel (.fixed 0) .flat none
    ((∀ d ∈ [Exact.real (-1), .real (-2)], le (m.term t d) 0 = true) ∧
      m.logLikelihood t [.real (-1), .real (-2)] none = .real (-3) ∧
      m.logLikelihood t [.real (-1), .real (-2)] (some (.real (-3))) = .real (-3) ∧
      m.logLikelihood t [.real (-1), .real (-2)] (some (.real (-5 / 2))) = .negInf) ∧
    letI := Exact.roundedSums fun x => ⌊x⌋
    let rounded : Model Exact Exact := stockModel (.fixed 0) .flat none
    (∀ d ∈ [Exact.real (-1 / 2), .real (-1 / 2)], le (rounded.term t d) 0 = true) ∧
      rounded.logLikelihood t [.real (-1 / 2), .real (-1 / 2)] none = .real (-2) ∧
      rounded.logLikelihood t [.real (-1 / 2), .real (-1 / 2)] (some (.real (-3 / 2))) = .negInf := by
  intro t m
  constructor
  · have hterms : ∀ d ∈ [Exact.real (-1), .real (-2)], le (m.term t d) 0 = true := by
      simp [m, stockModel, StockLikelihood.term, Exact.zero_eq]
    obtain ⟨hnone, hsome⟩ := logLikelihood_breakout Exact.fallingSums m t _ hterms
    have htotal : m.logLikelihood t [.real (-1), .real (-2)] none = .real (-3) := by
      rw [hnone]
      show Exact.real (0 + -1 + -2) = .real (-3)
      norm_num
    refine ⟨hterms, htotal, ?_, ?_⟩
    · rw [hsome, htotal, if_pos (.inl (by simp))]
    · rw [hsome, htotal, if_neg]
      · rfl
      rintro (h | h | h)
      · norm_num at h
      · cases (Exact.isNaN_iff _).mp h
      · cases h
  · let := Exact.roundedSums fun x => ⌊x⌋
    intro rounded
    have hterms : ∀ d ∈ [Exact.real (-1 / 2), .real (-1 / 2)], le (rounded.term t d) 0 = true := by
      have hhalf : le (Exact.real (-1 / 2)) (.real 0) = true := (Exact.le_real _ _).mpr (by norm_num)
      exact List.forall_mem_cons.mpr ⟨hhalf, List.forall_mem_singleton.mpr hhalf⟩
    obtain ⟨hnone, hsome⟩ := logLikelihood_breakout
      (Exact.fallingSums_rounded fun x => Int.floor_le x) rounded t _ hterms
    have htotal : rounded.logLikelihood t [.real (-1 / 2), .real (-1 / 2)] none = .real (-2) := by
      have hfirst : ⌊(0 + -1 / 2 : ℝ)⌋ = -1 := by norm_num [Int.floor_eq_iff]
      have hsecond : ⌊((-1 : ℤ) + -1 / 2 : ℝ)⌋ = -2 := by norm_num [Int.floor_eq_iff]
      rw [hnone]
      show Exact.real ⌊(⌊(0 + -1 / 2 : ℝ)⌋ + -1 / 2 : ℝ)⌋ = .real (-2)
      rw [hfirst, hsecond]
      norm_num
    refine ⟨hterms, htotal, ?_⟩
    rw [hsome, htotal, if_neg]
    · rfl
    rintro (h | h | h)
    · have := (Exact.le_real _ _).mp h
      norm_num at this
    · cases (Exact.isNaN_iff _).mp h
    · cases h

/-- A bound above zero is not reached by the likelihood of no data, which is zero, and an undefined
one is reached by nothing; both leave the likelihood as it is. -/
theorem logLikelihood_ignores_bound :
    let t : Tree Exact := .node "T" "c" .plain none
    let m : Model Exact Exact := stockModel (.fixed 0) .flat none
    (le 1 (m.logLikelihood t [] none) = false ∧ m.logLikelihood t [] (some 1) = .real 0) ∧
      (∀ d ∈ [Exact.real (-1)], le (m.term t d) 0 = true) ∧
        le nan (m.logLikelihood t [.real (-1)] none) = false ∧
          m.logLikelihood t [.real (-1)] (some nan) = .real (-1) := by
  intro t m
  have hterms : ∀ d ∈ [Exact.real (-1)], le (m.term t d) 0 = true := by
    simp [m, stockModel, StockLikelihood.term, Exact.zero_eq]
  have hone : Scalar.sum ([Exact.real (-1)].map (m.term t)) = .real (-1) := by
    show Exact.real (0 + -1) = .real (-1)
    norm_num
  have htotal := hone ▸ logLikelihood_none Exact.fallingSums hterms
  refine ⟨⟨?_, rfl⟩, hterms, ?_, ?_⟩
  · show le (Exact.real 1) (.real 0) = false
    rw [← Bool.not_eq_true, Exact.le_real]
    norm_num
  · rw [htotal]
    rfl
  · rw [logLikelihood_some Exact.fallingSums hterms, htotal]
    rfl

end Model

end ScopedGrammar
