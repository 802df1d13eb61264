import ScopedGrammar.Proofs.Scalar.Exact
import ScopedGrammar.Scalar.LogSpace

/-!
# Rounded arithmetic

Whether a score is finite does not depend on how numbers are rounded, as long as nothing overflows.
The laws below hold of exact numbers and of binary floating point. A logarithm of a finite number is
small, so sums of logarithms stay finite if there are not too many of them; nothing is said about
sums of weights, which may overflow. The score of something that may be done is then a sum of
logarithms, and that of something impossible the lower infinity.
-/
namespace ScopedGrammar.Scalar

variable {K : Type} [Scalar K]

/-- A positive finite number. -/
def IsWeight (x : K) : Prop := lt 0 x = true ∧ isFinite x = true

/-- What sums and differences make of the logarithms of at most `n` weights. -/
inductive LogSum : ℕ → K → Prop
  | log {x : K} (weight : IsWeight x) : LogSum 1 (log x)
  | neg {n : ℕ} {x : K} (h : LogSum n x) : LogSum n (-x)
  | add {m n : ℕ} {x y : K} (hx : LogSum m x) (hy : LogSum n y) : LogSum (m + n) (x + y)
  | sub {m n : ℕ} {x y : K} (hx : LogSum m x) (hy : LogSum n y) : LogSum (m + n) (x - y)
  | mono {m n : ℕ} {x : K} (h : LogSum m x) (hle : m ≤ n) : LogSum n x

/-- Numbers that may be rounded, as those of binary floating point are. With 53 bits of precision
these are its laws for a limit of `2 ^ 53`: the logarithm of a finite number is below `2 ^ 10`, so a
sum of `n` of them is at most `n * 2 ^ 10`, which needs no rounding. -/
structure Rounded (K : Type) [Scalar K] (limit : ℕ) : Prop where
  lt_irrefl : ∀ x : K, lt x x = false
  lt_trans : ∀ {x y z : K}, lt x y = true → lt y z = true → lt x z = true
  le_of_lt : ∀ {x y : K}, lt x y = true → le x y = true
  le_refl : ∀ {x : K}, isFinite x = true → le x x = true
  negInf_le_zero : le (negInf : K) 0 = true
  negInf_lt : ∀ {x : K}, isFinite x = true → lt negInf x = true
  beq_negInf : ((negInf : K) == negInf) = true
  lt_nan : ∀ {x y : K}, isNaN y = true → lt x y = false
  nan_add : ∀ {x y : K}, isNaN x = true → isNaN (x + y) = true
  nan_sub : ∀ {x y : K}, isNaN x = true → isNaN (x - y) = true
  negInf_sub_negInf : isNaN ((negInf : K) - negInf) = true
  add_negInf : ∀ {x : K}, isFinite x = true → x + negInf = negInf
  negInf_sub : ∀ {x : K}, isFinite x = true → negInf - x = negInf
  sub_le_zero : ∀ {x y : K}, isFinite x = true → isFinite y = true → lt y x = false →
    le (x - y) 0 = true
  isFinite_zero : isFinite (0 : K) = true
  one_isWeight : IsWeight (1 : K)
  ofNat_isWeight : ∀ {n : ℕ}, 0 < n → n ≤ limit → IsWeight (ofNat n : K)
  /-- Terms that are zero add up to zero. -/
  sum_zero : ∀ {xs : List K}, (∀ x ∈ xs, x = 0) → sum xs = 0
  /-- Terms that are not negative, one of them positive, have a positive sum. -/
  sum_pos : ∀ {xs : List K}, (∀ x ∈ xs, le 0 x = true) → (∃ x ∈ xs, lt 0 x = true) →
    lt 0 (sum xs) = true
  /-- Smaller terms have a finite sum if the larger ones have. -/
  sum_finite_of_le : ∀ {α : Type} {f h : α → K} {as : List α},
    (∀ a ∈ as, le 0 (f a) = true ∧ le (f a) (h a) = true) →
      isFinite (sum (as.map h)) = true → isFinite (sum (as.map f)) = true
  /-- Terms of the unit interval have a finite sum. -/
  sum_finite : ∀ {xs : List K}, (∀ x ∈ xs, le 0 x = true ∧ le x 1 = true) →
    isFinite (sum xs) = true
  exp_mem_unit : ∀ {x : K}, le x 0 = true → le 0 (exp x) = true ∧ le (exp x) 1 = true
  exp_sub_self_pos : ∀ {x : K}, isFinite x = true → lt 0 (exp (x - x)) = true
  /-- Logarithms are too small for a sum of that many to overflow. -/
  logSum_finite : ∀ {n : ℕ} {x : K}, LogSum n x → n ≤ limit → isFinite x = true

/-- The score of what may be possible: made of at most `n` logarithms if it is. -/
def Scored (n : ℕ) (possible : Prop) (x : K) : Prop :=
  (possible → LogSum n x) ∧ (¬ possible → x = negInf)

/-- Scores of alternatives. Some that are impossible may be left out. -/
inductive ScoredAll {α : Type} (n : ℕ) (possible : α → Prop) : List α → List K → Prop
  | nil : ScoredAll n possible [] []
  | skip {a : α} {as : List α} {xs : List K} (ha : ¬ possible a) (h : ScoredAll n possible as xs) :
      ScoredAll n possible (a :: as) xs
  | cons {a : α} {as : List α} {x : K} {xs : List K} (hx : Scored n (possible a) x)
      (h : ScoredAll n possible as xs) : ScoredAll n possible (a :: as) (x :: xs)

variable {limit m n : ℕ} {x y z : K} {xs : List K} {P Q : Prop}

theorem isFinite_iff : isFinite x = true ↔
    isNaN x = false ∧ (x == inf) = false ∧ (x == negInf) = false := by
  simp [isFinite, isInf]

theorem IsWeight.logSum_safeLog (h : IsWeight x) : LogSum 1 (safeLog x) := by
  rw [safeLog, if_pos h.1]
  exact .log h

namespace Scored

theorem of_logSum (h : LogSum n x) (hP : P) : Scored n P x := ⟨fun _ => h, fun hnot => absurd hP hnot⟩

theorem negInf (hP : ¬ P) : Scored n P (negInf : K) := ⟨fun h => absurd h hP, fun _ => rfl⟩

theorem mono (h : Scored m P x) (hle : m ≤ n) : Scored n P x := ⟨fun hP => (h.1 hP).mono hle, h.2⟩

theorem congr (h : Scored n P x) (hiff : P ↔ Q) : Scored n Q x :=
  ⟨fun hQ => h.1 (hiff.mpr hQ), fun hQ => h.2 (hiff.not.mpr hQ)⟩

theorem logSum_or (h : Scored n P x) : LogSum n x ∨ x = Scalar.negInf :=
  (em P).imp h.1 h.2

end Scored

namespace Rounded

theorem not_isWeight_zero (h : Rounded K limit) : ¬ IsWeight (0 : K) := fun hzero => by
  have hlt := hzero.1
  rw [h.lt_irrefl] at hlt
  cases hlt

/-- A score is above the lower infinity exactly if what it scores is possible. -/
theorem negInf_lt_iff (h : Rounded K limit) (hx : Scored n P x) (hn : n ≤ limit) :
    lt negInf x = true ↔ P := by
  by_cases hP : P
  · exact iff_of_true (h.negInf_lt (h.logSum_finite (hx.1 hP) hn)) hP
  · rw [hx.2 hP, h.lt_irrefl]
    exact iff_of_false Bool.false_ne_true hP

theorem add_scored (h : Rounded K limit) (hx : LogSum m x) (hm : m ≤ limit) (hy : Scored n P y) :
    Scored (m + n) P (x + y) := by
  refine ⟨fun hP => hx.add (hy.1 hP), fun hP => ?_⟩
  rw [hy.2 hP]
  exact h.add_negInf (h.logSum_finite hx hm)

theorem safeLog_zero (h : Rounded K limit) : safeLog (0 : K) = negInf :=
  if_neg (by rw [h.lt_irrefl]; exact Bool.false_ne_true)

section Largest

theorem lt_larger (h : Rounded K limit) (hz : lt x z = false) : lt (larger x y) z = false := by
  unfold larger
  split_ifs with hlt
  · rw [← Bool.not_eq_true] at hz ⊢
    exact fun hyz => hz (h.lt_trans hlt hyz)
  · exact hz

theorem lt_larger_self (h : Rounded K limit) : lt (larger x y) y = false := by
  unfold larger
  split_ifs with hlt
  · exact h.lt_irrefl y
  · exact Bool.eq_false_iff.mpr hlt

theorem foldl_larger (h : Rounded K limit) (x : K) (xs : List K) :
    (∀ y ∈ x :: xs, lt (xs.foldl larger x) y = false) ∧ xs.foldl larger x ∈ x :: xs := by
  suffices hinv : (∀ y, lt x y = false → lt (xs.foldl larger x) y = false) ∧
      (∀ y ∈ xs, lt (xs.foldl larger x) y = false) ∧ xs.foldl larger x ∈ x :: xs from
    ⟨List.forall_mem_cons.mpr ⟨hinv.1 x (h.lt_irrefl x), hinv.2.1⟩, hinv.2.2⟩
  induction xs generalizing x with
  | nil => exact ⟨fun _ hy => hy, by simp, by simp⟩
  | cons y ys ih =>
    obtain ⟨hbelow, hrest, hmem⟩ := ih (larger x y)
    refine ⟨fun z hz => hbelow z (h.lt_larger hz), ?_, ?_⟩
    · exact List.forall_mem_cons.mpr ⟨hbelow y h.lt_larger_self, hrest⟩
    · rcases List.mem_cons.mp hmem with heq | hmem
      · rw [List.foldl_cons, heq, larger]
        split_ifs <;> simp
      · simp [hmem]

end Largest

theorem logSumExp_nan (h : Rounded K limit) (hxs : ∀ x ∈ xs, isNaN x = true) :
    logSumExp xs = negInf := by
  have htop : largest xs = negInf := by
    unfold largest
    induction xs with
    | nil => rfl
    | cons x xs ih =>
      obtain ⟨hx, hxs⟩ := List.forall_mem_cons.mp hxs
      rw [List.foldl_cons, larger, h.lt_nan hx, if_neg Bool.false_ne_true]
      exact ih hxs
  rw [logSumExp, htop]
  exact if_pos h.beq_negInf

theorem exp_sub_mem_unit (h : Rounded K limit) (hx : isFinite x = true ∨ x = negInf)
    (hy : isFinite y = true) (hlt : lt y x = false) :
    le 0 (exp (x - y)) = true ∧ le (exp (x - y)) 1 = true := by
  refine h.exp_mem_unit ?_
  rcases hx with hx | rfl
  · exact h.sub_le_zero hx hy hlt
  · rw [h.negInf_sub hy]
    exact h.negInf_le_zero

/-- The sum of the exponentials that is taken relative to the largest term is a weight. -/
theorem sum_exp_isWeight (h : Rounded K limit) (hxs : ∀ x ∈ xs, isFinite x = true ∨ x = negInf)
    (hy : isFinite y = true) (hmem : y ∈ xs) (hlt : ∀ x ∈ xs, lt y x = false) :
    IsWeight (sum (xs.map fun x => exp (x - y))) := by
  have hunit : ∀ z ∈ xs.map fun x => exp (x - y), le 0 z = true ∧ le z 1 = true := by
    intro z hz
    obtain ⟨x, hx, rfl⟩ := List.mem_map.mp hz
    exact h.exp_sub_mem_unit (hxs x hx) hy (hlt x hx)
  refine ⟨h.sum_pos (fun z hz => (hunit z hz).1) ⟨_, List.mem_map_of_mem hmem, ?_⟩,
    h.sum_finite hunit⟩
  exact h.exp_sub_self_pos hy

/-- A sum of probabilities is possible if one of them is. -/
theorem logSumExp_scored (h : Rounded K limit) (hxs : ∀ x ∈ xs, LogSum n x ∨ x = negInf)
    (hn : n ≤ limit) : Scored (n + 1) (∃ x ∈ xs, LogSum n x) (logSumExp xs) := by
  have hfinite : ∀ x ∈ xs, isFinite x = true ∨ x = negInf :=
    fun x hx => (hxs x hx).imp_left fun hx => h.logSum_finite hx hn
  obtain ⟨hlt, hmem⟩ := h.foldl_larger negInf xs
  change (∀ x ∈ negInf :: xs, lt (largest xs) x = false) at hlt
  change largest xs ∈ negInf :: xs at hmem
  by_cases htop : largest xs = negInf
  · have hnone : ¬ ∃ x ∈ xs, LogSum n x := by
      rintro ⟨x, hx, hsum⟩
      have hbelow := hlt x (List.mem_cons_of_mem _ hx)
      rw [htop, h.negInf_lt (h.logSum_finite hsum hn)] at hbelow
      cases hbelow
    have hvalue : logSumExp xs = negInf := by
      rw [logSumExp, htop]
      exact if_pos h.beq_negInf
    rw [hvalue]
    exact .negInf hnone
  · have hin : largest xs ∈ xs := (List.mem_cons.mp hmem).resolve_left htop
    have hsum : LogSum n (largest xs) := (hxs _ hin).resolve_right htop
    have htopFinite := h.logSum_finite hsum hn
    obtain ⟨-, hinf, hneg⟩ := isFinite_iff.mp htopFinite
    have hvalue : logSumExp xs =
        largest xs + log (sum (xs.map fun x => exp (x - largest xs))) := by
      rw [logSumExp]
      simp [isInf, hinf, hneg]
    rw [hvalue]
    refine .of_logSum (hsum.add (.log ?_)) ⟨_, hin, hsum⟩
    exact h.sum_exp_isWeight hfinite htopFinite hin fun x hx => hlt x (List.mem_cons_of_mem _ hx)

end Rounded

namespace ScoredAll

variable {α : Type} {possible : α → Prop} {as : List α}

theorem logSum_or (h : ScoredAll n possible as xs) : ∀ x ∈ xs, LogSum n x ∨ x = negInf := by
  induction h with
  | nil => simp
  | skip _ _ ih => exact ih
  | cons hx _ ih => exact List.forall_mem_cons.mpr ⟨hx.logSum_or, ih⟩

theorem exists_logSum_iff (hK : Rounded K limit) (h : ScoredAll n possible as xs) (hn : n ≤ limit) :
    (∃ x ∈ xs, LogSum n x) ↔ ∃ a ∈ as, possible a := by
  induction h with
  | nil => simp
  | skip ha _ ih => simp [ih, ha]
  | @cons a as x xs hx _ ih =>
    have hiff : LogSum n x ↔ possible a :=
      ⟨fun hsum => (hK.negInf_lt_iff hx hn).mp (hK.negInf_lt (hK.logSum_finite hsum hn)), hx.1⟩
    simp [ih, hiff]

theorem logSumExp (hK : Rounded K limit) (h : ScoredAll n possible as xs) (hn : n ≤ limit) :
    Scored (n + 1) (∃ a ∈ as, possible a) (Scalar.logSumExp xs) :=
  (hK.logSumExp_scored h.logSum_or hn).congr (h.exists_logSum_iff hK hn)

end ScoredAll

end ScopedGrammar.Scalar

namespace ScopedGrammar.Exact

open Scalar

theorem isFinite_iff {x : Exact} : isFinite x = true ↔ ∃ r, x = real r := by
  cases x with
  | real r => simp
  | inf | negInf | nan => exact iff_of_false Bool.false_ne_true nofun

theorem isWeight_iff {x : Exact} : IsWeight x ↔ x.Positive := by
  constructor
  · rintro ⟨hpos, hfinite⟩
    obtain ⟨r, rfl⟩ := isFinite_iff.mp hfinite
    exact ⟨r, (zero_lt_real r).mp hpos, rfl⟩
  · rintro ⟨r, hr, rfl⟩
    exact ⟨(zero_lt_real r).mpr hr, isFinite_real r⟩

theorem exists_real_of_logSum {n : ℕ} {x : Exact} (h : LogSum n x) : ∃ r, x = real r := by
  induction h with
  | log hx =>
    obtain ⟨r, hr, rfl⟩ := isWeight_iff.mp hx
    exact ⟨_, log_real hr⟩
  | neg _ ih =>
    obtain ⟨r, rfl⟩ := ih
    exact ⟨-r, rfl⟩
  | add _ _ ihx ihy =>
    obtain ⟨r, rfl⟩ := ihx
    obtain ⟨q, rfl⟩ := ihy
    exact ⟨r + q, rfl⟩
  | sub _ _ ihx ihy =>
    obtain ⟨r, rfl⟩ := ihx
    obtain ⟨q, rfl⟩ := ihy
    exact ⟨r - q, real_sub r q⟩
  | mono _ _ ih => exact ih

theorem nonneg_or_inf_foldl {xs : List Exact} (h : ∀ x ∈ xs, x.Nonneg ∨ x = inf) {a : Exact}
    (ha : a.Nonneg ∨ a = inf) : (xs.foldl (· + ·) a).Nonneg ∨ xs.foldl (· + ·) a = inf := by
  induction xs generalizing a with
  | nil => exact ha
  | cons x xs ih =>
    obtain ⟨hx, hxs⟩ := List.forall_mem_cons.mp h
    refine ih hxs ?_
    rcases ha with ⟨r, hr, rfl⟩ | rfl <;> rcases hx with ⟨q, hq, rfl⟩ | rfl
    · exact .inl ⟨r + q, add_nonneg hr hq, rfl⟩
    all_goals exact .inr rfl

/-- A sum without negative terms is positive if one of the terms is. It may be infinite. -/
theorem sum_pos {xs : List Exact} (h : ∀ x ∈ xs, Scalar.le 0 x = true)
    (hpos : ∃ x ∈ xs, lt 0 x = true) : lt 0 (sum xs) = true := by
  have hterms : ∀ x ∈ xs, x.Nonneg ∨ x = inf := fun x hx => nonneg_or_inf_of_le (h x hx)
  have hzero : (0 : Exact).Nonneg := ⟨0, le_rfl, zero_eq⟩
  by_cases hfinite : isFinite (sum xs) = true
  · obtain ⟨-, hall⟩ := nonneg_of_isFinite_foldl hterms (.inl hzero) hfinite
    obtain ⟨x, hx, hlt⟩ := hpos
    rw [sum_eq_real hall, zero_lt_real]
    refine ((hall x hx).zero_lt_iff.mp hlt).trans_le (List.single_le_sum (fun r hr => ?_) _ ?_)
    · obtain ⟨y, hy, rfl⟩ := List.mem_map.mp hr
      exact (hall y hy).toReal_nonneg
    · exact List.mem_map_of_mem hx
  · rcases nonneg_or_inf_foldl hterms (.inl hzero) with ⟨r, -, hr⟩ | hinf
    · exact absurd (isFinite_iff.mpr ⟨r, hr⟩) hfinite
    · rw [sum, hinf]
      rfl

/-- Exact numbers need no rounding, and no sum of them overflows. -/
theorem rounded (limit : ℕ) : Rounded Exact limit where
  lt_irrefl := lt_self_eq_false
  lt_trans {x y z} hxy hyz := by
    cases x <;> cases y <;> cases z <;> first | contradiction | rfl | skip
    case real.real.real x y z =>
      rw [lt_real] at *
      exact hxy.trans hyz
  le_of_lt := Exact.le_of_lt
  le_refl {x} hx := by
    obtain ⟨r, rfl⟩ := isFinite_iff.mp hx
    exact Exact.le_refl nofun
  negInf_le_zero := rfl
  negInf_lt hx := by
    obtain ⟨r, rfl⟩ := isFinite_iff.mp hx
    rfl
  beq_negInf := rfl
  lt_nan {x y} hy := by rw [(isNaN_iff y).mp hy, lt_nan]
  nan_add {x y} hx := (isNaN_iff _).mpr (by rw [(isNaN_iff x).mp hx, nan_add])
  nan_sub {x y} hx := (isNaN_iff _).mpr (by rw [(isNaN_iff x).mp hx, nan_sub])
  negInf_sub_negInf := rfl
  add_negInf hx := by
    obtain ⟨r, rfl⟩ := isFinite_iff.mp hx
    rfl
  negInf_sub hx := by
    obtain ⟨r, rfl⟩ := isFinite_iff.mp hx
    rfl
  sub_le_zero hx hy hlt := by
    obtain ⟨r, rfl⟩ := isFinite_iff.mp hx
    obtain ⟨q, rfl⟩ := isFinite_iff.mp hy
    rw [← Bool.not_eq_true, lt_real, not_lt] at hlt
    rw [real_sub, zero_eq, le_real]
    exact sub_nonpos.mpr hlt
  isFinite_zero := isFinite_real 0
  one_isWeight := isWeight_iff.mpr ⟨1, one_pos, rfl⟩
  ofNat_isWeight hn _ := isWeight_iff.mpr ⟨_, Nat.cast_pos.mpr hn, rfl⟩
  sum_zero {xs} h := by
    rw [List.eq_replicate_of_mem h]
    simpa [zero_eq] using sum_map_real (fun _ => 0) xs
  sum_pos := sum_pos
  sum_finite_of_le {α f h as} hle hfinite := by
    have hterms : ∀ y ∈ as.map h, y.Nonneg ∨ y = inf := List.forall_mem_map.mpr fun a ha =>
      nonneg_or_inf_of_le (Exact.le_trans (hle a ha).1 (hle a ha).2)
    have hall : ∀ x ∈ as.map f, x.Nonneg := List.forall_mem_map.mpr fun a ha => by
      obtain ⟨-, hreal⟩ := nonneg_of_isFinite_foldl hterms (.inl ⟨0, le_rfl, zero_eq⟩) hfinite
      obtain ⟨r, -, hr⟩ := hreal _ (List.mem_map_of_mem ha)
      refine (nonneg_or_inf_of_le (hle a ha).1).resolve_right fun hinf => ?_
      have hbound := (hle a ha).2
      rw [hinf, hr] at hbound
      cases hbound
    exact isFinite_iff.mpr ⟨_, sum_eq_real hall⟩
  sum_finite {xs} h := by
    have hall : ∀ x ∈ xs, x.Nonneg := fun x hx => by
      refine (nonneg_or_inf_of_le (h x hx).1).resolve_right ?_
      rintro rfl
      cases (h inf hx).2
    exact isFinite_iff.mpr ⟨_, sum_eq_real hall⟩
  exp_mem_unit {x} hx := by
    cases x with
    | real r =>
      rw [zero_eq, le_real] at hx
      rw [exp_real, zero_eq, one_eq, le_real, le_real]
      exact ⟨(Real.exp_pos r).le, Real.exp_le_one_iff.mpr hx⟩
    | negInf => simp [zero_eq, one_eq]
    | inf | nan => cases hx
  exp_sub_self_pos hx := by
    obtain ⟨r, rfl⟩ := isFinite_iff.mp hx
    simp
  logSum_finite h _ := isFinite_iff.mpr (exists_real_of_logSum h)

end ScopedGrammar.Exact
