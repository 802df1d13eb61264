import ScopedGrammar.Proofs.Scalar.LogMass

/-!
# Rated probabilities

A score rates a probability if it is the logarithm of a bound on it. Under a condition the bound is
the probability itself. Scores of alternatives are added by `logSumExp`, and a score after a choice
is added to that of the choice, so what a kernel says of itself is rated part by part.
-/
namespace ScopedGrammar.Exact

open Scalar

/-- The number is the logarithm of a bound on a probability, exact under a condition. -/
def Rates (exact : Prop) (x : Exact) (p : ℝ) : Prop :=
  ∃ q, 0 ≤ q ∧ x = logOf q ∧ p ≤ q ∧ (exact → p = q)

/-- The numbers are the logarithms of parts of a bound on a probability. -/
def RatesSum (exact : Prop) (xs : List Exact) (p : ℝ) : Prop :=
  ∃ qs : List ℝ, (∀ q ∈ qs, 0 ≤ q) ∧ xs = qs.map logOf ∧ p ≤ qs.sum ∧ (exact → p = qs.sum)

variable {exact : Prop} {x : Exact} {xs : List Exact} {p p' c : ℝ}

theorem rates_logOf (hp : 0 ≤ p) : Rates exact (logOf p) p := ⟨p, hp, rfl, le_rfl, fun _ => rfl⟩

theorem Rates.ne_negInf (h : Rates exact x p) (hp : 0 < p) : ∃ r, x = real r := by
  obtain ⟨q, -, rfl, hpq, -⟩ := h
  exact ⟨Real.log q, logOf_pos (hp.trans_le hpq)⟩

theorem Rates.real_or_negInf (h : Rates exact x p) : (∃ r, x = real r) ∨ x = negInf := by
  obtain ⟨q, hq, rfl, -, -⟩ := h
  rcases hq.eq_or_lt with rfl | hq
  · exact .inr logOf_zero
  · exact .inl ⟨Real.log q, logOf_pos hq⟩

theorem Rates.eq_logOf (h : Rates exact x p) (hexact : exact) : x = logOf p := by
  obtain ⟨q, -, rfl, -, heq⟩ := h
  rw [heq hexact]

theorem Rates.exp_eq (h : Rates exact x p) (hexact : exact) : Scalar.exp x = real p := by
  obtain ⟨q, hq, rfl, -, heq⟩ := h
  rw [exp_logOf hq, heq hexact]

theorem Rates.of_le (h : Rates exact x p) {exact' : Prop} (hle : p' ≤ p)
    (hno : exact' → exact ∧ p' = p) : Rates exact' x p' := by
  obtain ⟨q, hq, hx, hpq, heq⟩ := h
  refine ⟨q, hq, hx, hle.trans hpq, fun hexact => ?_⟩
  obtain ⟨hexact, rfl⟩ := hno hexact
  exact heq hexact

theorem Rates.after (h : Rates exact x p) (hc : 0 ≤ c) : Rates exact (logOf c + x) (c * p) := by
  obtain ⟨q, hq, rfl, hpq, heq⟩ := h
  refine ⟨c * q, mul_nonneg hc hq, logOf_add hc hq, mul_le_mul_of_nonneg_left hpq hc, fun h => ?_⟩
  rw [heq h]

theorem ratesSum_nil : RatesSum exact [] 0 := ⟨[], by simp, rfl, le_rfl, fun _ => rfl⟩

theorem RatesSum.cons (h : Rates exact x p) (hs : RatesSum exact xs p') :
    RatesSum exact (x :: xs) (p + p') := by
  obtain ⟨q, hq, rfl, hpq, heq⟩ := h
  obtain ⟨qs, hqs, rfl, hsum, heqs⟩ := hs
  refine ⟨q :: qs, by simpa [hq] using hqs, rfl, ?_, fun h => ?_⟩
  · rw [List.sum_cons]
    exact add_le_add hpq hsum
  · rw [List.sum_cons, heq h, heqs h]

theorem RatesSum.skip (hs : RatesSum exact xs p') (hp : p = 0) : RatesSum exact xs (p + p') := by
  rwa [hp, zero_add]

theorem RatesSum.append {ys : List Exact} (h : RatesSum exact xs p) (h' : RatesSum exact ys p') :
    RatesSum exact (xs ++ ys) (p + p') := by
  obtain ⟨qs, hqs, rfl, hsum, heq⟩ := h
  obtain ⟨rs, hrs, rfl, hsum', heq'⟩ := h'
  refine ⟨qs ++ rs, fun q hq => ?_, List.map_append.symm, ?_, fun h => ?_⟩
  · exact (List.mem_append.mp hq).elim (hqs q) (hrs q)
  · rw [List.sum_append]
    exact add_le_add hsum hsum'
  · rw [List.sum_append, heq h, heq' h]

theorem ratesSum_const {α : Type} {as : List α} (hc : 0 ≤ c) (hp : p ≤ as.length * c)
    (heq : exact → p = as.length * c) : RatesSum exact (as.map fun _ => logOf c) p := by
  refine ⟨as.map fun _ => c, by simp [hc], by simp, ?_, fun h => ?_⟩
  · simpa using hp
  · simpa using heq h

theorem ratesSum_flatMap {α : Type} {f : α → List Exact} {v : α → ℝ} {as : List α}
    (h : ∀ a ∈ as, RatesSum exact (f a) (v a)) : RatesSum exact (as.flatMap f) (as.map v).sum := by
  induction as with
  | nil => exact ratesSum_nil
  | cons a as ih =>
    rw [List.flatMap_cons, List.map_cons, List.sum_cons]
    exact (h a List.mem_cons_self).append (ih fun b hb => h b (List.mem_cons_of_mem a hb))

theorem RatesSum.logSumExp (h : RatesSum exact xs p) : Rates exact (logSumExp xs) p := by
  obtain ⟨qs, hqs, rfl, hsum, heq⟩ := h
  exact ⟨qs.sum, List.sum_nonneg hqs, logSumExp_logOf hqs, hsum, heq⟩

/-- Undefined scores are those of something impossible. -/
theorem rates_logSumExp_nan (h : ∀ y ∈ xs, y = nan) : Rates exact (Scalar.logSumExp xs) 0 := by
  rw [logSumExp_nan h, ← logOf_zero]
  exact rates_logOf le_rfl

end ScopedGrammar.Exact
