import ScopedGrammar.Proofs.Random.Expectation

/-!
# Reading words exactly

A stream of words also makes a random computation over the exact numbers run. Each draw takes the
words that it takes over binary floating point, and reads them as the same fractions, so an index
is drawn where the fraction of the total weight falls among the exact partial sums. Such a run only
comes to outcomes of positive probability: no index of weight zero is ever drawn.
-/
namespace ScopedGrammar

open Exact

namespace Words

/-- The index whose share of the total weight a point falls into, where the weights before the list
add up to `acc`. The last index takes what lies above every partial sum but its own. -/
noncomputable def indexAt (point acc : ℝ) : List ℝ → ℕ
  | w :: v :: ws => if acc + w ≤ point then indexAt point (acc + w) (v :: ws) + 1 else 0
  | _ => 0

/-- The index that a word draws, from a fraction of 52 bits of the total weight. -/
noncomputable def locateExactly (weights : List Exact) (w : UInt64) : ℕ :=
  let ws := weights.map toReal
  indexAt ((w >>> 12).toNat / 2 ^ 52 * ws.sum) 0 ws

/-- A fraction in `[0, 1)` of 53 bits. -/
noncomputable def exactFraction (w : UInt64) : ℝ := (w >>> 11).toNat / 2 ^ 53

open Classical in
/-- Decide a trial; certainty costs no word. -/
noncomputable def decideExactly (how : Trial) (p : Exact) (s : Words) : Bool × Words :=
  match how with
  | .fraction => (Scalar.lt (real (exactFraction s.next.1)) p, s.next.2)
  | .bias =>
      if Scalar.le 1 p then (true, s)
      else (decide (s.next.1.toNat < ⌊p.toReal * 2 ^ 64⌋₊), s.next.2)

/-- An index that is drawn has a positive weight. -/
theorem indexAt_spec {point acc : ℝ} {ws : List ℝ} (hacc : acc ≤ point) (hpoint : point < acc + ws.sum) :
    ∃ w, ws[indexAt point acc ws]? = some w ∧ 0 < w := by
  induction ws generalizing acc with
  | nil =>
    rw [List.sum_nil, add_zero] at hpoint
    exact absurd hacc (not_le.mpr hpoint)
  | cons w ws ih =>
    rw [List.sum_cons] at hpoint
    cases ws with
    | nil =>
      rw [List.sum_nil, add_zero] at hpoint
      exact ⟨w, rfl, by linarith⟩
    | cons v ws =>
      rw [indexAt]
      split_ifs with hle
      · obtain ⟨u, hu, hpos⟩ := ih hle (by linarith)
        exact ⟨u, by simpa using hu, hpos⟩
      · exact ⟨w, rfl, by linarith⟩

theorem shiftRight_div_lt_one (w : UInt64) {k : ℕ} (hk : k ≤ 64) :
    ((w.toNat >>> k : ℕ) : ℝ) / 2 ^ (64 - k) < 1 := by
  have hlt : w.toNat >>> k < 2 ^ (64 - k) := by
    rw [Nat.shiftRight_eq_div_pow, Nat.div_lt_iff_lt_mul (by positivity), ← Nat.pow_add,
      Nat.sub_add_cancel hk]
    exact w.toNat_lt
  rw [div_lt_one (by positivity)]
  exact_mod_cast hlt

theorem exactFraction_lt_one (w : UInt64) : exactFraction w < 1 := by
  have h := shiftRight_div_lt_one w (k := 11) (by omega)
  simpa [exactFraction, UInt64.toNat_shiftRight] using h

/-- A word draws an index of positive weight. -/
theorem locateExactly_spec {weights : List Exact} (h : offer weights = .proper) (w : UInt64) :
    ∃ v, weights[locateExactly weights w]? = some v ∧ 0 < v.toReal := by
  obtain ⟨-, hpos⟩ := of_offer_proper h
  have hfraction : ((w >>> 12).toNat : ℝ) / 2 ^ 52 < 1 := by
    have h := shiftRight_div_lt_one w (k := 12) (by omega)
    simpa [UInt64.toNat_shiftRight] using h
  obtain ⟨r, hr, hrpos⟩ := @indexAt_spec ((w >>> 12).toNat / 2 ^ 52 * (weights.map toReal).sum) 0
    (weights.map toReal) (by positivity) (by rw [zero_add]; nlinarith)
  obtain ⟨v, hv, rfl⟩ := Option.map_eq_some_iff.mp (List.getElem?_map ▸ hr)
  exact ⟨v, hv, hrpos⟩

open Classical in
/-- A trial comes out in a way that has a positive probability. -/
theorem decideExactly_pos (how : Trial) (p : Exact) (s : Words) :
    0 < if (decideExactly how p s).1 then Rand.chanceBelow p else 1 - Rand.chanceBelow p := by
  cases how with
  | fraction =>
    rw [decideExactly]
    have hlow : 0 ≤ exactFraction s.next.1 := by
      unfold exactFraction
      positivity
    have hhigh := exactFraction_lt_one s.next.1
    cases p with
    | real p =>
      simp only [lt_real, Rand.chanceBelow]
      split_ifs with h
      · exact lt_max_of_lt_right (lt_min (by linarith) one_pos)
      · exact sub_pos.mpr (max_lt one_pos (min_lt_of_left_lt (by linarith)))
    | inf => simp [Rand.chanceBelow, Scalar.lt, Exact.below]
    | negInf => simp [Rand.chanceBelow]
    | nan => simp [Rand.chanceBelow]
  | bias =>
    rw [decideExactly]
    split_ifs with hcertain hlt hlt
    · cases p with
      | real p =>
        have hp : 1 ≤ p := by simpa [one_eq] using hcertain
        simp [Rand.chanceBelow, hp]
      | inf => simp [Rand.chanceBelow]
      | negInf => simp [one_eq] at hcertain
      | nan => simp [Scalar.le, Exact.below, same] at hcertain
    · exact absurd rfl hlt
    -- a word below the floor shows that the floor is not zero, so the probability is not either
    · have hfloor : 0 < ⌊p.toReal * 2 ^ 64⌋₊ := Nat.zero_lt_of_lt (of_decide_eq_true hlt)
      have hp : 0 < p.toReal := by
        have := Nat.pos_of_floor_pos hfloor
        nlinarith
      cases p with
      | real p => exact lt_max_of_lt_right (lt_min hp one_pos)
      | _ => simp [toReal] at hp
    · cases p with
      | real p =>
        have hp : p < 1 := by simpa [one_eq] using hcertain
        exact sub_pos.mpr (max_lt one_pos (min_lt_of_left_lt hp))
      | inf => simp [Scalar.le, one_eq, Exact.below] at hcertain
      | negInf => simp [Rand.chanceBelow]
      | nan => simp [Rand.chanceBelow]

end Words

namespace Rand

variable {α β : Type}

/-- Run a computation over the exact numbers on a stream of words. -/
noncomputable def runExactly : Rand Exact α → Words → α × Words
  | .done a, s => (a, s)
  | .weighted ws h next, s =>
      have : 0 < ws.length := List.length_pos_iff.mpr h
      (next ⟨min (Words.locateExactly ws s.next.1) (ws.length - 1), by omega⟩).runExactly s.next.2
  | .uniform how n h next, s =>
      let (i, s) := Words.below (Words.width how) n Words.period s
      (next ⟨i % n, Nat.mod_lt i h⟩).runExactly s
  | .chance how p next, s =>
      let (b, s) := Words.decideExactly how p s
      (next b).runExactly s

/-- A run goes on with the words that are left. -/
theorem runExactly_bind (x : Rand Exact α) (f : α → Rand Exact β) (ws : Words) :
    (x.bind f).runExactly ws = (f (x.runExactly ws).1).runExactly (x.runExactly ws).2 := by
  induction x generalizing ws with
  | done a => rfl
  | weighted weights h next ih =>
    rw [bind, runExactly, runExactly]
    exact ih _ _
  | uniform how n h next ih =>
    rw [bind, runExactly, runExactly]
    generalize Words.below (Words.width how) n Words.period ws = drawn
    exact ih _ _
  | chance how p next ih =>
    rw [bind, runExactly, runExactly]
    generalize Words.decideExactly how p ws = decided
    exact ih _ _

/-- A run on random words ends in an outcome. -/
theorem yields_runExactly (x : Rand Exact α) (ws : Words) : x.Yields (x.runExactly ws).1 := by
  induction x generalizing ws with
  | done a => rfl
  | weighted weights h next ih =>
    rw [runExactly]
    exact ⟨_, ih _ _⟩
  | uniform how n h next ih =>
    rw [runExactly]
    generalize Words.below (Words.width how) n Words.period ws = drawn
    exact ⟨_, ih _ _⟩
  | chance how p next ih =>
    rw [runExactly]
    generalize Words.decideExactly how p ws = decided
    exact ⟨_, ih _ _⟩

theorem share_pos_of_locate {ws : List Exact} (h : ws ≠ []) (w : UInt64)
    (hlt : min (Words.locateExactly ws w) (ws.length - 1) < ws.length) :
    0 < share ws ⟨min (Words.locateExactly ws w) (ws.length - 1), hlt⟩ := by
  by_cases hoffer : offer ws = .proper
  · obtain ⟨v, hv, hpos⟩ := Words.locateExactly_spec hoffer w
    obtain ⟨hin, rfl⟩ := List.getElem?_eq_some_iff.mp hv
    obtain ⟨-, htotal⟩ := of_offer_proper hoffer
    rw [share_of_proper hoffer]
    refine div_pos ?_ htotal
    simpa [Nat.min_eq_left (Nat.le_sub_one_of_lt hin)] using hpos
  · have hlength : (0 : ℝ) < ws.length := Nat.cast_pos.mpr (List.length_pos_iff.mpr h)
    rw [share, if_neg hoffer]
    exact one_div_pos.mpr hlength

/-- A run on random words ends in an outcome of positive probability. -/
theorem prob_runExactly_pos {x : Rand Exact α} {ws : Words} {E : α → Prop}
    (h : E (x.runExactly ws).1) : 0 < x.prob E := by
  classical
  unfold prob
  have hnonneg : ∀ a, (0 : ℝ) ≤ if E a then 1 else 0 := fun a => by split_ifs <;> norm_num
  -- the branch that was taken is one of those the probability is summed over
  induction x generalizing ws with
  | done a =>
    rw [mean, if_pos (show E a from h)]
    exact one_pos
  | weighted weights hne next ih =>
    rw [runExactly] at h
    have hmean := mul_pos (share_pos_of_locate hne ws.next.1 (by
      have := List.length_pos_iff.mpr hne
      omega)) (ih _ h)
    refine hmean.trans_le (Finset.single_le_sum (f := fun i => share weights i * (next i).mean _)
      (fun i _ => mul_nonneg (share_nonneg weights i) (mean_nonneg hnonneg)) (Finset.mem_univ _))
  | uniform how n hn next ih =>
    rw [runExactly] at h
    generalize Words.below (Words.width how) n Words.period ws = drawn at h
    have hcast : (0 : ℝ) < n := Nat.cast_pos.mpr hn
    have hmean := mul_pos (one_div_pos.mpr hcast) (ih _ h)
    refine hmean.trans_le (Finset.single_le_sum (f := fun i => (1 / n : ℝ) * (next i).mean _)
      (fun i _ => mul_nonneg (one_div_pos.mpr hcast).le (mean_nonneg hnonneg)) (Finset.mem_univ _))
  | chance how p next ih =>
    have hdecided := Words.decideExactly_pos how p ws
    rw [runExactly] at h
    generalize Words.decideExactly how p ws = decided at h hdecided
    obtain ⟨b, rest⟩ := decided
    have hmean := mul_pos hdecided (ih b h)
    have htrue := mul_nonneg (chanceBelow_nonneg p) (mean_nonneg (x := next true) hnonneg)
    have hfalse := mul_nonneg (sub_nonneg.mpr (chanceBelow_le_one p))
      (mean_nonneg (x := next false) hnonneg)
    rw [mean]
    cases b
    · exact add_pos_of_nonneg_of_pos htrue hmean
    · exact add_pos_of_pos_of_nonneg hmean hfalse

end Rand

end ScopedGrammar
