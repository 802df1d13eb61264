import ScopedGrammar.Proofs.Scalar.Exact
import ScopedGrammar.Scalar.LogSpace

/-!
# Logarithms of probabilities

A probability `p` is kept as `logOf p`, which is the lower infinity for `0`. Products of
probabilities are sums of such logarithms, quotients are differences, and `logSumExp` adds the
probabilities themselves. So a score is computed right if it is `logOf` of the right probability.
-/
namespace ScopedGrammar.Exact

open Scalar

/-- The logarithm of a probability. -/
noncomputable def logOf (p : ℝ) : Exact := if 0 < p then real (Real.log p) else negInf

/-- The probability of which a number is the logarithm; an undefined number is that of none. -/
noncomputable def mass (x : Exact) : ℝ := (Scalar.exp x).toReal

@[simp] theorem mass_real (x : ℝ) : (real x).mass = Real.exp x := rfl

@[simp] theorem mass_negInf : negInf.mass = 0 := rfl

theorem mass_nonneg (x : Exact) : 0 ≤ x.mass := by
  cases x with
  | real x => exact (Real.exp_pos x).le
  | inf | negInf | nan => exact le_rfl

@[simp] theorem logOf_zero : logOf 0 = negInf := if_neg (lt_irrefl 0)

theorem logOf_pos {p : ℝ} (hp : 0 < p) : logOf p = real (Real.log p) := if_pos hp

theorem logOf_eq_negInf_iff {p : ℝ} : logOf p = negInf ↔ p ≤ 0 := by
  unfold logOf
  split_ifs with h
  · simpa using h
  · simpa using not_lt.mp h

@[simp] theorem negInf_lt_logOf {p : ℝ} : Scalar.lt negInf (logOf p) = true ↔ 0 < p := by
  unfold logOf
  split_ifs with h <;> simp [h]

theorem exp_logOf {p : ℝ} (hp : 0 ≤ p) : Scalar.exp (logOf p) = real p := by
  rcases hp.eq_or_lt with rfl | hp
  · simp
  · simp [logOf_pos hp, Real.exp_log hp]

@[simp] theorem safeLog_real (p : ℝ) : safeLog (real p) = logOf p := by
  by_cases hp : 0 < p
  · simp [safeLog, logOf, zero_eq, hp, log_real]
  · simp [safeLog, logOf, zero_eq, hp]

theorem log_real_eq_logOf {p : ℝ} (hp : 0 < p) : Scalar.log (real p) = logOf p := by
  rw [log_real hp, logOf_pos hp]

theorem logOf_add {p q : ℝ} (hp : 0 ≤ p) (hq : 0 ≤ q) : logOf p + logOf q = logOf (p * q) := by
  rcases hp.eq_or_lt with rfl | hp
  · rcases hq.eq_or_lt with rfl | hq
    · simp
    · simp [logOf_pos hq]
  · rcases hq.eq_or_lt with rfl | hq
    · simp [logOf_pos hp]
    · rw [logOf_pos hp, logOf_pos hq, logOf_pos (mul_pos hp hq),
        Real.log_mul hp.ne' hq.ne', real_add]

theorem logOf_sub {p q : ℝ} (hp : 0 ≤ p) (hq : 0 < q) : logOf p - logOf q = logOf (p / q) := by
  rcases hp.eq_or_lt with rfl | hp
  · simp [logOf_pos hq]
  · rw [logOf_pos hp, logOf_pos hq, logOf_pos (div_pos hp hq), Real.log_div hp.ne' hq.ne',
      real_sub]

section LogSumExp

theorem larger_logOf {x : Exact} (hx : x = negInf ∨ ∃ r, x = real r) (p : ℝ) :
    (p ≤ 0 ∧ larger x (logOf p) = x) ∨ (0 < p ∧ ∃ r, larger x (logOf p) = real r) := by
  by_cases hp : 0 < p
  · refine .inr ⟨hp, ?_⟩
    rcases hx with rfl | ⟨r, rfl⟩
    · exact ⟨Real.log p, by simp [larger, logOf_pos hp]⟩
    · rw [larger, logOf_pos hp]
      split_ifs
      · exact ⟨_, rfl⟩
      · exact ⟨_, rfl⟩
  · exact .inl ⟨not_lt.mp hp, by simp [larger, logOf, hp]⟩

/-- The largest of some logarithms is that of zero only if all are. -/
theorem largest_logOf (ps : List ℝ) :
    ((∀ p ∈ ps, p ≤ 0) ∧ largest (ps.map logOf) = negInf) ∨
      (∃ p ∈ ps, 0 < p) ∧ ∃ r, largest (ps.map logOf) = real r := by
  have h : ∀ x : Exact, (x = negInf ∨ ∃ r, x = real r) →
      ((∀ p ∈ ps, p ≤ 0) ∧ (ps.map logOf).foldl larger x = x) ∨
        (∃ p ∈ ps, 0 < p) ∧ ∃ r, (ps.map logOf).foldl larger x = real r := by
    induction ps with
    | nil => intro x _; exact .inl ⟨by simp, rfl⟩
    | cons p ps ih =>
      intro x hx
      rcases larger_logOf hx p with ⟨hp, hstep⟩ | ⟨hp, r, hstep⟩
      · rcases ih x hx with ⟨hps, h⟩ | ⟨⟨q, hq, hpos⟩, h⟩
        · exact .inl ⟨by simpa [hp] using hps, by simpa [hstep] using h⟩
        · exact .inr ⟨⟨q, by simp [hq], hpos⟩, by simpa [hstep] using h⟩
      · refine .inr ⟨⟨p, by simp, hp⟩, ?_⟩
        rcases ih (real r) (.inr ⟨r, rfl⟩) with ⟨-, h⟩ | ⟨-, h⟩
        · exact ⟨r, by simpa [hstep] using h⟩
        · simpa [hstep] using h
  exact h negInf (.inl rfl)

theorem exp_logOf_sub (p x : ℝ) (hp : 0 ≤ p) :
    Scalar.exp (logOf p - real x) = real (p * Real.exp (-x)) := by
  rcases hp.eq_or_lt with rfl | hp
  · simp
  · rw [logOf_pos hp, real_sub, exp_real, sub_eq_add_neg, Real.exp_add, Real.exp_log hp]

/-- Adding up in the logarithm adds the probabilities. -/
theorem logSumExp_logOf {ps : List ℝ} (h : ∀ p ∈ ps, 0 ≤ p) :
    logSumExp (ps.map logOf) = logOf ps.sum := by
  unfold logSumExp
  rcases largest_logOf ps with ⟨hle, htop⟩ | ⟨⟨p, hp, hpos⟩, r, htop⟩
  · have hzero : ps.sum = 0 := List.sum_eq_zero fun p hp => le_antisymm (hle p hp) (h p hp)
    simp [htop, hzero]
  · have hsum : 0 < ps.sum := hpos.trans_le (List.single_le_sum h p hp)
    have hscaled : (ps.map logOf).map (fun y => Scalar.exp (y - real r)) =
        ps.map fun p => real (p * Real.exp (-r)) := by
      rw [List.map_map]
      exact List.map_congr_left fun p hp => exp_logOf_sub p r (h p hp)
    simp only [htop, hscaled, sum_map_real]
    rw [List.sum_map_mul_right, List.map_id', logOf_pos hsum,
      log_real (mul_pos hsum (Real.exp_pos _)), Real.log_mul hsum.ne' (Real.exp_ne_zero _),
      Real.log_exp]
    simp

/-- Undefined numbers add up to an impossible one. -/
theorem logSumExp_nan {xs : List Exact} (h : ∀ x ∈ xs, x = nan) : logSumExp xs = negInf := by
  have hbot : xs.foldl larger negInf = negInf := by
    induction xs with
    | nil => rfl
    | cons x xs ih => simp [h x (by simp), larger, ih fun y hy => h y (by simp [hy])]
  simp [logSumExp, largest, hbot]

end LogSumExp

end ScopedGrammar.Exact
