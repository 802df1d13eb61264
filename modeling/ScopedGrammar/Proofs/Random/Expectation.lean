import Mathlib.Algebra.BigOperators.Field
import Mathlib.Algebra.BigOperators.Fin
import Mathlib.Algebra.Order.BigOperators.Group.Finset
import ScopedGrammar.Proofs.Random.Outcome
import ScopedGrammar.Proofs.Scalar.Exact

/-!
# Expectations

Over the exact numbers a random computation has a distribution: a weighted draw takes an index with
the probability of its share in the total weight, a uniform draw takes each index alike, and a
fraction falls below a bound with the probability that the bound leaves. `mean` is the expected
value of a function of the outcome, and `prob` the probability of an event. Both are finite sums,
so no convergence is involved. A sampler that fails counts for nothing in its own `mean`.
-/
namespace ScopedGrammar

open Exact

theorem of_offer_proper {ws : List Exact} (h : offer ws = .proper) :
    (∀ w ∈ ws, w.Nonneg) ∧ 0 < (ws.map toReal).sum := by
  unfold offer at h
  split_ifs at h with h₁ h₂
  simp only [Bool.or_eq_true, List.any_eq_true, Bool.not_eq_true', not_or, not_exists, not_and,
    Bool.not_eq_false] at h₁
  obtain ⟨⟨-, hle⟩, hne⟩ := h₁
  have hws := (nonneg_of_isFinite_foldl (fun w hw => nonneg_or_inf_of_le (hle w hw))
    (.inl ⟨0, le_rfl, zero_eq⟩) h₂).2
  refine ⟨hws, (sum_toReal_nonneg hws).lt_of_ne' fun hzero => ?_⟩
  exact hne (by simp [sum_eq_real hws, hzero, zero_eq])

/-- Weights are offered as soon as one of them is positive. -/
theorem offer_eq_proper {ws : List Exact} (h : ∀ w ∈ ws, w.Nonneg) (hpos : 0 < (ws.map toReal).sum) :
    offer ws = .proper := by
  have hne : ws ≠ [] := by rintro rfl; simp at hpos
  have hle : ws.any (fun w => !Scalar.le 0 w) = false := by
    simpa using fun w hw => le_of_nonneg (h w hw)
  have hsum : (Scalar.sum ws == 0) = false := by
    simpa [sum_eq_real h, zero_eq, ← Bool.not_eq_true] using hpos.ne'
  have hfinite : Scalar.isFinite (Scalar.sum ws) = true := by simp [sum_eq_real h]
  simp [offer, hne, hle, hsum, hfinite]

theorem offer_eq_nothing {ws : List Exact} (h : ∀ w ∈ ws, w.Nonneg) (hzero : (ws.map toReal).sum = 0) :
    offer ws = .nothing := by
  simp [offer, sum_eq_real h, hzero, zero_eq]

namespace Rand

variable {α β : Type}

/-- The probability of an index in a weighted draw. Weights that offer nothing are never drawn from;
for them each index counts as likely as the other. -/
noncomputable def share (ws : List Exact) (i : Fin ws.length) : ℝ :=
  if offer ws = .proper then (ws[i] / Scalar.sum ws).toReal else 1 / ws.length

/-- The probability that a fraction drawn from the unit interval lies below a bound. -/
noncomputable def chanceBelow : Exact → ℝ
  | real p => max 0 (min p 1)
  | inf => 1
  | negInf | nan => 0

/-- The expected value of a function of the outcome. -/
noncomputable def mean : Rand Exact α → (α → ℝ) → ℝ
  | done a, φ => φ a
  | weighted ws _ next, φ => ∑ i, share ws i * (next i).mean φ
  | uniform _ n _ next, φ => ∑ i, (1 / n : ℝ) * (next i).mean φ
  | chance _ p next, φ =>
      chanceBelow p * (next true).mean φ + (1 - chanceBelow p) * (next false).mean φ

open Classical in
/-- The probability of an event. -/
noncomputable def prob (x : Rand Exact α) (E : α → Prop) : ℝ := x.mean fun a => if E a then 1 else 0

theorem share_of_proper {ws : List Exact} (h : offer ws = .proper) (i : Fin ws.length) :
    share ws i = ws[i].toReal / (ws.map toReal).sum := by
  obtain ⟨hws, hpos⟩ := of_offer_proper h
  obtain ⟨r, -, hr⟩ := hws ws[i] (List.getElem_mem _)
  rw [share, if_pos h, sum_eq_real hws, hr, real_div hpos.ne', toReal_real, toReal_real]

theorem share_nonneg (ws : List Exact) (i : Fin ws.length) : 0 ≤ share ws i := by
  by_cases h : offer ws = .proper
  · rw [share_of_proper h]
    have ⟨hws, hpos⟩ := of_offer_proper h
    exact div_nonneg (hws _ (List.getElem_mem _)).toReal_nonneg hpos.le
  · rw [share, if_neg h]
    positivity

theorem chanceBelow_nonneg (p : Exact) : 0 ≤ chanceBelow p := by
  cases p <;> simp [chanceBelow]

theorem chanceBelow_le_one (p : Exact) : chanceBelow p ≤ 1 := by
  cases p <;> simp [chanceBelow]

@[simp] theorem mean_done (a : α) (φ : α → ℝ) : (done a).mean φ = φ a := rfl

@[simp] theorem mean_bind (x : Rand Exact α) (f : α → Rand Exact β) (φ : β → ℝ) :
    (x.bind f).mean φ = x.mean fun a => (f a).mean φ := by
  induction x with
  | done a => rfl
  | weighted ws h next ih => simp only [bind, mean, ih]
  | uniform how n h next ih => simp only [bind, mean, ih]
  | chance how p next ih => simp only [bind, mean, ih]

theorem mean_congr {x : Rand Exact α} {φ ψ : α → ℝ} (h : ∀ a, x.Yields a → φ a = ψ a) :
    x.mean φ = x.mean ψ := by
  induction x with
  | done a => exact h a rfl
  | weighted ws _ next ih =>
    exact Finset.sum_congr rfl fun i _ => by rw [ih i fun a ha => h a ⟨i, ha⟩]
  | uniform _ n _ next ih =>
    exact Finset.sum_congr rfl fun i _ => by rw [ih i fun a ha => h a ⟨i, ha⟩]
  | chance _ p next ih =>
    simp only [mean, ih true fun a ha => h a ⟨true, ha⟩, ih false fun a ha => h a ⟨false, ha⟩]

theorem mean_nonneg {x : Rand Exact α} {φ : α → ℝ} (h : ∀ a, 0 ≤ φ a) : 0 ≤ x.mean φ := by
  induction x with
  | done a => exact h a
  | weighted ws _ next ih => exact Finset.sum_nonneg fun i _ => mul_nonneg (share_nonneg ws i) (ih i)
  | uniform _ n _ next ih => exact Finset.sum_nonneg fun i _ => mul_nonneg (by positivity) (ih i)
  | chance _ p next ih =>
    exact add_nonneg (mul_nonneg (chanceBelow_nonneg p) (ih true))
      (mul_nonneg (sub_nonneg.mpr (chanceBelow_le_one p)) (ih false))

theorem mean_mul_left (x : Rand Exact α) (c : ℝ) (φ : α → ℝ) :
    (x.mean fun a => c * φ a) = c * x.mean φ := by
  induction x with
  | done a => rfl
  | weighted ws _ next ih =>
    simp only [mean, ih, Finset.mul_sum]
    exact Finset.sum_congr rfl fun i _ => by ring
  | uniform _ n _ next ih =>
    simp only [mean, ih, Finset.mul_sum]
    exact Finset.sum_congr rfl fun i _ => by ring
  | chance _ p next ih => simp only [mean, ih]; ring

@[simp] theorem mean_zero (x : Rand Exact α) : (x.mean fun _ => 0) = 0 := by
  simpa using x.mean_mul_left 0 fun _ => 0

theorem prob_nonneg (x : Rand Exact α) (E : α → Prop) : 0 ≤ x.prob E :=
  mean_nonneg fun a => by split_ifs <;> norm_num

end Rand

namespace Sampler

variable {α β : Type}

/-- The expected value of a function of the result and the supply of names left, where a failure
counts zero. -/
noncomputable def mean (x : Sampler Exact α) (s : NameSupply) (φ : α → NameSupply → ℝ) : ℝ :=
  Rand.mean (x s) fun
    | (.ok a, s') => φ a s'
    | (.error _, _) => 0

/-- The probability that a sampler succeeds with a result for which the event holds. -/
noncomputable def prob (x : Sampler Exact α) (s : NameSupply) (E : α → Prop) : ℝ :=
  Rand.prob (x s) fun r => ∃ a, r.1 = .ok a ∧ E a

open Classical in
theorem prob_eq_mean (x : Sampler Exact α) (s : NameSupply) (E : α → Prop) :
    x.prob s E = x.mean s fun a _ => if E a then 1 else 0 := by
  refine congrArg (Rand.mean (x s)) (funext fun ⟨r, s'⟩ => ?_)
  cases r <;> simp

@[simp] theorem mean_pure (a : α) (s : NameSupply) (φ : α → NameSupply → ℝ) :
    (pure a : Sampler Exact α).mean s φ = φ a s := rfl

@[simp] theorem mean_throw (e : SampleError) (s : NameSupply) (φ : α → NameSupply → ℝ) :
    (throw e : Sampler Exact α).mean s φ = 0 := rfl

@[simp] theorem mean_bind (x : Sampler Exact α) (f : α → Sampler Exact β) (s : NameSupply)
    (φ : β → NameSupply → ℝ) :
    (x >>= f).mean s φ = x.mean s fun a s' => (f a).mean s' φ := by
  rw [mean, bind_apply, Rand.mean_bind]
  refine congrArg (Rand.mean (x s)) (funext fun ⟨r, s'⟩ => ?_)
  cases r <;> rfl

@[simp] theorem mean_ofNaming (x : Naming α) (s : NameSupply) (φ : α → NameSupply → ℝ) :
    (ofNaming x : Sampler Exact α).mean s φ = φ (x s).1 (x s).2 := rfl

@[simp] theorem mean_getOrFail (e : SampleError) (x : Option α) (s : NameSupply)
    (φ : α → NameSupply → ℝ) :
    (getOrFail e x : Sampler Exact α).mean s φ = x.elim 0 fun a => φ a s := by
  cases x <;> rfl

theorem mean_ofNamingExcept (x : ExceptT SampleError Naming α) (s : NameSupply)
    (φ : α → NameSupply → ℝ) :
    (ofNamingExcept x : Sampler Exact α).mean s φ =
      match x s with
      | (.ok a, s') => φ a s'
      | (.error _, _) => 0 := rfl

theorem mean_congr {x : Sampler Exact α} {s : NameSupply} {φ ψ : α → NameSupply → ℝ}
    (h : ∀ a s', x.Yields s (.ok a) s' → φ a s' = ψ a s') : x.mean s φ = x.mean s ψ := by
  refine Rand.mean_congr fun ⟨r, s'⟩ hr => ?_
  cases r with
  | error e => rfl
  | ok a => exact h a s' hr

theorem mean_mul_left (x : Sampler Exact α) (s : NameSupply) (c : ℝ) (φ : α → NameSupply → ℝ) :
    (x.mean s fun a s' => c * φ a s') = c * x.mean s φ := by
  rw [mean, mean, ← Rand.mean_mul_left]
  refine congrArg (Rand.mean (x s)) (funext fun ⟨r, s'⟩ => ?_)
  cases r <;> simp

@[simp] theorem mean_zero (x : Sampler Exact α) (s : NameSupply) :
    (x.mean s fun _ _ => 0) = 0 := by
  simpa using x.mean_mul_left s 0 fun _ _ => 0

open Classical in
@[simp] theorem prob_pure (a : α) (s : NameSupply) (E : α → Prop) :
    (pure a : Sampler Exact α).prob s E = if E a then 1 else 0 := by
  rw [prob_eq_mean, mean_pure]

@[simp] theorem prob_throw (e : SampleError) (s : NameSupply) (E : α → Prop) :
    (throw e : Sampler Exact α).prob s E = 0 := by
  rw [prob_eq_mean, mean_throw]

theorem prob_bind (x : Sampler Exact α) (f : α → Sampler Exact β) (s : NameSupply)
    (E : β → Prop) : (x >>= f).prob s E = x.mean s fun a s' => (f a).prob s' E := by
  simp only [prob_eq_mean, mean_bind]

theorem prob_bind_pure (x : Sampler Exact α) (f : α → β) (s : NameSupply) (E : β → Prop) :
    (x >>= fun a => pure (f a)).prob s E = x.prob s fun a => E (f a) := by
  rw [prob_bind, prob_eq_mean]
  exact mean_congr fun a s' _ => prob_pure (f a) s' E

open Classical in
theorem prob_congr {x : Sampler Exact α} {s : NameSupply} {E F : α → Prop}
    (h : ∀ a s', x.Yields s (.ok a) s' → (E a ↔ F a)) : x.prob s E = x.prob s F := by
  rw [prob_eq_mean, prob_eq_mean]
  exact mean_congr fun a s' ha => if_congr (h a s' ha) rfl rfl

theorem prob_eq_zero {x : Sampler Exact α} {s : NameSupply} {E : α → Prop}
    (h : ∀ a s', x.Yields s (.ok a) s' → ¬ E a) : x.prob s E = 0 := by
  rw [prob_eq_mean]
  exact (mean_congr fun a s' ha => if_neg (h a s' ha)).trans (x.mean_zero s)

theorem exists_of_prob_pos {x : Sampler Exact α} {s : NameSupply} {E : α → Prop}
    (h : 0 < x.prob s E) : ∃ a s', x.Yields s (.ok a) s' ∧ E a := by
  by_contra hnone
  exact h.ne' (prob_eq_zero fun a s' ha hE => hnone ⟨a, s', ha, hE⟩)

theorem prob_nonneg (x : Sampler Exact α) (s : NameSupply) (E : α → Prop) : 0 ≤ x.prob s E :=
  Rand.prob_nonneg _ _

open Classical in
theorem prob_and (x : Sampler Exact α) (s : NameSupply) (P : Prop) (E : α → Prop) :
    (x.prob s fun a => P ∧ E a) = if P then x.prob s E else 0 := by
  by_cases hP : P
  · simp [hP]
  · rw [if_neg hP]
    exact prob_eq_zero fun _ _ _ h => hP h.1

open Classical in
theorem mean_ite_const (x : Sampler Exact α) (s : NameSupply) (E : α → Prop) (c : ℝ) :
    (x.mean s fun a _ => if E a then c else 0) = x.prob s E * c := by
  rw [prob_eq_mean, mul_comm, ← mean_mul_left]
  simp only [mul_ite, mul_one, mul_zero]

end Sampler

section Choices

variable {α : Type}

theorem mean_weightedIndex {ws : List Exact} (hws : ∀ w ∈ ws, w.Nonneg) (s : NameSupply)
    (φ : Option (Fin ws.length) → NameSupply → ℝ) :
    (weightedIndex ws).mean s φ =
      if 0 < (ws.map toReal).sum then
        ∑ i : Fin ws.length, ws[i].toReal / (ws.map toReal).sum * φ (some i) s
      else φ none s := by
  unfold weightedIndex
  split
  next h =>
    have hzero : ¬ 0 < (ws.map toReal).sum := fun hpos => by simp [offer_eq_proper hws hpos] at h
    rw [if_neg hzero, Sampler.mean_pure]
  next h =>
    rcases (sum_toReal_nonneg hws).eq_or_lt with hzero | hpos
    · simp [offer_eq_nothing hws hzero.symm] at h
    · simp [offer_eq_proper hws hpos] at h
  next h =>
    rw [if_pos (of_offer_proper h).2]
    change ∑ i, Rand.share ws i * φ (some i) s = _
    exact Finset.sum_congr rfl fun i _ => by rw [Rand.share_of_proper h]

/-- A choice by weight takes each element with its share of the total weight. -/
theorem mean_weightedChoice {weight : α → Exact} {xs : List α} (hw : ∀ x ∈ xs, (weight x).Nonneg)
    (s : NameSupply) (φ : Option α → NameSupply → ℝ) :
    (weightedChoice weight xs).mean s φ =
      if 0 < (xs.map fun x => (weight x).toReal).sum then
        (xs.map fun x =>
          (weight x).toReal / (xs.map fun x => (weight x).toReal).sum * φ (some x) s).sum
      else φ none s := by
  have htotal : (xs.map weight).map toReal = xs.map fun x => (weight x).toReal := List.map_map
  rw [weightedChoice, Sampler.mean_bind, mean_weightedIndex (by simpa using hw), htotal]
  refine if_congr Iff.rfl ?_ rfl
  rw [← Fin.sum_univ_fun_getElem xs fun x =>
    (weight x).toReal / (xs.map fun x => (weight x).toReal).sum * φ (some x) s,
    ← Fin.sum_congr' _ (List.length_map weight)]
  exact Finset.sum_congr rfl fun i _ => by simp

theorem mean_uniformChoice (xs : List α) (s : NameSupply) (φ : Option α → NameSupply → ℝ) :
    (uniformChoice xs : Sampler Exact _).mean s φ =
      if xs = [] then φ none s else (xs.map fun x => φ (some x) s).sum / xs.length := by
  unfold uniformChoice
  split
  next h =>
    rw [if_neg (List.length_pos_iff.mp h), Sampler.mean_bind,
      ← Fin.sum_univ_fun_getElem xs fun x => φ (some x) s, Finset.sum_div]
    change ∑ i : Fin xs.length, 1 / (xs.length : ℝ) * φ (some (xs.get i)) s = _
    exact Finset.sum_congr rfl fun i _ => by rw [one_div_mul_eq_div]; rfl
  next h =>
    rw [if_pos (List.eq_nil_of_length_eq_zero (by omega)), Sampler.mean_pure]

/-- The probability after a uniform choice is the average over the members of the list, if nothing
comes of having no choice. -/
theorem prob_uniformChoice {β : Type} {xs : List α} {f : Option α → Sampler Exact β}
    {s : NameSupply} {E : β → Prop} (hnone : (f none).prob s E = 0) :
    (uniformChoice xs >>= f).prob s E =
      (xs.map fun x => (f (some x)).prob s E).sum / xs.length := by
  rw [Sampler.prob_bind, mean_uniformChoice]
  split_ifs with h
  · rw [hnone, h]
    simp
  · rfl

theorem prob_uniformChoice_getOrFail {β : Type} (xs : List α) (e : SampleError)
    (f : α → Sampler Exact β) (s : NameSupply) (E : β → Prop) :
    (uniformChoice xs >>= fun x => Sampler.getOrFail e x >>= f).prob s E =
      (xs.map fun x => (f x).prob s E).sum / xs.length := by
  refine prob_uniformChoice ?_
  change (throw e >>= f : Sampler Exact β).prob s E = 0
  rw [Sampler.prob_bind, Sampler.mean_throw]

end Choices

end ScopedGrammar
