import Mathlib.Topology.Algebra.InfiniteSum.Real
import ScopedGrammar.Proofs.Random.Reading

/-!
# Total probability

The probabilities of all that a random computation may come to sum up to `1`. If the outcomes are
told apart by a family of events, of which there may be infinitely many, the probabilities of these
events sum up to that of coming to a result at all.
-/
namespace ScopedGrammar

namespace Rand

variable {α ι : Type}

theorem sum_share {ws : List Exact} (h : ws ≠ []) : ∑ i, share ws i = 1 := by
  by_cases hoffer : offer ws = .proper
  · obtain ⟨-, hpos⟩ := of_offer_proper hoffer
    simp only [share_of_proper hoffer, ← Finset.sum_div, Fin.getElem_fin]
    rw [Fin.sum_univ_fun_getElem ws Exact.toReal, div_self hpos.ne']
  · have hlength : (ws.length : ℝ) ≠ 0 := Nat.cast_ne_zero.mpr (by simpa using h)
    simp [share, hoffer, hlength]

theorem mean_add (x : Rand Exact α) (φ ψ : α → ℝ) :
    (x.mean fun a => φ a + ψ a) = x.mean φ + x.mean ψ := by
  induction x with
  | done a => rfl
  | weighted ws _ next ih => simp only [mean, ih, mul_add, Finset.sum_add_distrib]
  | uniform _ n _ next ih => simp only [mean, ih, mul_add, Finset.sum_add_distrib]
  | chance _ p next ih => simp only [mean, ih]; ring

/-- The expected value of a constant. -/
@[simp] theorem mean_const (x : Rand Exact α) (c : ℝ) : (x.mean fun _ => c) = c := by
  induction x with
  | done a => rfl
  | weighted ws h next ih => simp only [mean, ih, ← Finset.sum_mul, sum_share h, one_mul]
  | uniform how n h next ih =>
    have hn : (n : ℝ) ≠ 0 := Nat.cast_ne_zero.mpr (Nat.pos_iff_ne_zero.mp h)
    simp [mean, ih, hn]
  | chance how p next ih => simp only [mean, ih]; ring

theorem prob_add_prob_not (x : Rand Exact α) (E : α → Prop) :
    x.prob E + x.prob (fun a => ¬ E a) = 1 := by
  rw [prob, prob, ← mean_add, ← mean_const x 1]
  refine mean_congr fun a _ => ?_
  by_cases h : E a <;> simp [h]

theorem prob_le_one (x : Rand Exact α) (E : α → Prop) : x.prob E ≤ 1 := by
  have htotal := x.prob_add_prob_not E
  have hnonneg := x.prob_nonneg fun a => ¬ E a
  linarith

/-- The expected values of infinitely many functions may be summed up outcome by outcome. -/
theorem hasSum_mean {x : Rand Exact α} {φ : ι → α → ℝ} {ψ : α → ℝ}
    (h : ∀ a, x.Yields a → HasSum (fun i => φ i a) (ψ a)) :
    HasSum (fun i => x.mean (φ i)) (x.mean ψ) := by
  induction x with
  | done a => exact h a rfl
  | weighted ws _ next ih =>
    exact hasSum_sum fun i _ => (ih i fun a ha => h a ⟨i, ha⟩).mul_left (share ws i)
  | uniform _ n _ next ih =>
    exact hasSum_sum fun i _ => (ih i fun a ha => h a ⟨i, ha⟩).mul_left (1 / n : ℝ)
  | chance _ p next ih =>
    exact ((ih true fun a ha => h a ⟨true, ha⟩).mul_left (chanceBelow p)).add
      ((ih false fun a ha => h a ⟨false, ha⟩).mul_left (1 - chanceBelow p))

end Rand

namespace Sampler

variable {α ι : Type} {x : Sampler Exact α} {s : NameSupply}

theorem prob_le_one (x : Sampler Exact α) (s : NameSupply) (E : α → Prop) : x.prob s E ≤ 1 :=
  Rand.prob_le_one _ _

theorem mean_const (x : Sampler Exact α) (s : NameSupply) (c : ℝ) :
    (x.mean s fun _ _ => c) = x.prob s (fun _ => True) * c := by
  simpa using x.mean_ite_const s (fun _ => True) c

/-- If each result falls under exactly one of some events, their probabilities sum up to that of a
success. -/
theorem hasSum_prob {E : ι → α → Prop} (h : ∀ a s', x.Yields s (.ok a) s' → ∃! i, E i a) :
    HasSum (fun i => x.prob s (E i)) (x.prob s fun _ => True) := by
  classical
  refine Rand.hasSum_mean fun r hr => ?_
  obtain ⟨r, s'⟩ := r
  cases r with
  | error e => simp
  | ok a =>
    obtain ⟨i, hi, hunique⟩ := h a s' hr
    have hsingle := hasSum_single (f := fun i => if E i a then (1 : ℝ) else 0) i fun j hj =>
      if_neg fun hE => hj (hunique j hE)
    simpa [hi] using hsingle

/-- What is certain happens on every stream of words. -/
theorem exists_run_eq_ok (h : (x.prob s fun _ => True) = 1) (words : Words) :
    ∃ a s', ((x s).runExactly words).1 = (.ok a, s') := by
  by_contra hno
  have hfailed : ¬ ∃ a, ((x s).runExactly words).1.1 = .ok a ∧ True := by
    rintro ⟨a, ha, -⟩
    exact hno ⟨a, _, Prod.ext ha rfl⟩
  have hpos : 0 < (x s).prob fun r => ¬ ∃ a, r.1 = .ok a ∧ True :=
    Rand.prob_runExactly_pos hfailed
  have htotal := (x s).prob_add_prob_not fun r => ∃ a, r.1 = .ok a ∧ True
  rw [prob] at h
  linarith

end Sampler

end ScopedGrammar
