import ScopedGrammar.Chain.Acceptance
import ScopedGrammar.Proofs.Random.Expectation
import ScopedGrammar.Proofs.Scalar.LogMass

/-!
# What acceptance lets through

The chance of acceptance depends on the tempered log-posteriors of two states and on how likely
either is proposed from the other. Weighted by the state that it leaves, what is proposed and
accepted is the lesser of what is proposed there and back. This is so also where a state is
impossible or a proposal cannot be reversed.
-/
namespace ScopedGrammar

open Exact

/-- The probability that a log-ratio leads to acceptance. -/
noncomputable def acceptChance (ratio : Exact) : ℝ := Rand.chanceBelow (Scalar.exp ratio)

theorem acceptChance_real (r : ℝ) : acceptChance (real r) = min (Real.exp r) 1 := by
  rw [acceptChance, exp_real, Rand.chanceBelow, max_eq_right]
  exact le_min (Real.exp_pos r).le zero_le_one

@[simp] theorem acceptChance_negInf : acceptChance negInf = 0 := by
  simp [acceptChance, Rand.chanceBelow]

theorem acceptChance_of_le {ratio : Exact} (h : Scalar.le 0 ratio = true) :
    acceptChance ratio = 1 := by
  rcases nonneg_or_inf_of_le h with ⟨r, hr, rfl⟩ | rfl
  · rw [acceptChance_real, min_eq_right (Real.one_le_exp hr)]
  · rfl

/-- A log-posterior by which states can be compared. -/
def Comparable (a : Exact) : Prop := (∃ r, a = real r) ∨ a = negInf

/-- What goes from one state to another, given the tempered log-posteriors of both and the
probabilities that the one is proposed from the other. -/
noncomputable def flow (a b : Exact) (p q : ℝ) : ℝ :=
  a.mass * (p * acceptChance (acceptanceLogRatio a b (logOf p - logOf q) 1))

theorem acceptanceLogRatio_real (a b f : ℝ) :
    acceptanceLogRatio (real a) (real b) (real f) 1 = real (b - a - f) := by
  have hinf : ¬ ((real f == inf) = true) := by simp
  simp [acceptanceLogRatio, one_eq, hinf, real_div]

/-- What is proposed but cannot be reversed is rejected. -/
theorem acceptanceLogRatio_inf (a b : Exact) : acceptanceLogRatio a b inf 1 = negInf := by
  simp [acceptanceLogRatio]

theorem acceptanceLogRatio_to_negInf (a f : ℝ) :
    acceptanceLogRatio (real a) negInf (real f) 1 = negInf := by
  simp [acceptanceLogRatio]

/-- The flow is the lesser of what is proposed in either direction. -/
theorem flow_eq_min {a b : Exact} {p q : ℝ} (ha : Comparable a) (hb : Comparable b) (hp : 0 ≤ p)
    (hq : 0 ≤ q) : flow a b p q = min (a.mass * p) (b.mass * q) := by
  rw [flow]
  rcases hp.eq_or_lt with rfl | hp
  · simpa using mul_nonneg (mass_nonneg b) hq
  rcases hq.eq_or_lt with rfl | hq
  · rw [logOf_zero, logOf_pos hp, real_sub_negInf, acceptanceLogRatio_inf]
    simpa using mul_nonneg (mass_nonneg a) hp.le
  rw [logOf_pos hp, logOf_pos hq, real_sub]
  rcases ha with ⟨a, rfl⟩ | rfl
  · rcases hb with ⟨b, rfl⟩ | rfl
    · have hratio : Real.exp a * p * Real.exp (b - a - (Real.log p - Real.log q)) = Real.exp b * q := by
        rw [Real.exp_sub, Real.exp_sub, Real.exp_sub, Real.exp_log hp, Real.exp_log hq]
        field_simp
      rw [acceptanceLogRatio_real, acceptChance_real, mass_real, mass_real, ← mul_assoc,
        mul_min_of_nonneg _ _ (mul_pos (Real.exp_pos a) hp).le, hratio, mul_one, min_comm]
    · rw [acceptanceLogRatio_to_negInf]
      simpa using (mul_pos (Real.exp_pos a) hp).le
  · simpa using mul_nonneg (mass_nonneg b) hq.le

end ScopedGrammar
