import ScopedGrammar.Proofs.Random.Reading

/-!
# Possible outcomes

An outcome over the exact numbers is possible if its probability is positive. Outcomes that some way
through the draws leads to need not be possible: a draw below zero never succeeds. Every run on
random words ends in a possible outcome.
-/
namespace ScopedGrammar.Rand

variable {α β : Type}

theorem mul_pos_iff_of_nonneg {a b : ℝ} (ha : 0 ≤ a) (hb : 0 ≤ b) : 0 < a * b ↔ 0 < a ∧ 0 < b :=
  ⟨fun h => ⟨pos_of_mul_pos_left h hb, pos_of_mul_pos_right h ha⟩, fun ⟨ha, hb⟩ => mul_pos ha hb⟩

/-- The outcome has a positive probability. -/
def Possible (x : Rand Exact α) (a : α) : Prop := 0 < x.prob (· = a)

@[simp] theorem prob_done_pos {a : α} {E : α → Prop} :
    0 < (done a : Rand Exact α).prob E ↔ E a := by
  by_cases h : E a <;> simp [prob, h]

theorem prob_weighted_pos {ws : List Exact} {h : ws ≠ []} {next : Fin ws.length → Rand Exact α}
    {E : α → Prop} :
    0 < (weighted ws h next).prob E ↔ ∃ i, 0 < share ws i ∧ 0 < (next i).prob E := by
  have hnext := fun i => prob_nonneg (next i) E
  change 0 < ∑ i, share ws i * (next i).prob E ↔ _
  rw [Finset.sum_pos_iff_of_nonneg fun i _ => mul_nonneg (share_nonneg ws i) (hnext i)]
  simp [mul_pos_iff_of_nonneg, share_nonneg, hnext]

theorem prob_uniform_pos {how : Reduction} {n : ℕ} {h : 0 < n} {next : Fin n → Rand Exact α}
    {E : α → Prop} : 0 < (uniform how n h next).prob E ↔ ∃ i, 0 < (next i).prob E := by
  have hshare : (0 : ℝ) < 1 / n := one_div_pos.mpr (Nat.cast_pos.mpr h)
  change 0 < ∑ i, (1 / n : ℝ) * (next i).prob E ↔ _
  rw [Finset.sum_pos_iff_of_nonneg fun i _ => mul_nonneg hshare.le (prob_nonneg (next i) E)]
  simp only [Finset.mem_univ, true_and, mul_pos_iff_of_pos_left hshare]

theorem prob_chance_pos {how : Trial} {p : Exact} {next : Bool → Rand Exact α} {E : α → Prop} :
    0 < (chance how p next).prob E ↔ (0 < chanceBelow p ∧ 0 < (next true).prob E) ∨
      (chanceBelow p < 1 ∧ 0 < (next false).prob E) := by
  have hlow := chanceBelow_nonneg p
  have hhigh := sub_nonneg.mpr (chanceBelow_le_one p)
  have htrue := prob_nonneg (next true) E
  have hfalse := prob_nonneg (next false) E
  change 0 < chanceBelow p * (next true).prob E + (1 - chanceBelow p) * (next false).prob E ↔ _
  rw [← sub_pos (b := chanceBelow p), ← mul_pos_iff_of_nonneg hlow htrue,
    ← mul_pos_iff_of_nonneg hhigh hfalse]
  refine ⟨fun h => ?_, fun h => ?_⟩
  · by_contra! hnot
    linarith
  · have hleft := mul_nonneg hlow htrue
    have hright := mul_nonneg hhigh hfalse
    rcases h with h | h <;> linarith

/-- What follows a computation is possible if it is possible behind a possible outcome. -/
theorem prob_bind_pos {x : Rand Exact α} {f : α → Rand Exact β} {E : β → Prop} :
    0 < (x.bind f).prob E ↔ ∃ a, x.Possible a ∧ 0 < (f a).prob E := by
  unfold Possible
  induction x with
  | done a => simp
  | weighted ws h next ih =>
    rw [bind, prob_weighted_pos]
    simp only [ih, prob_weighted_pos]
    grind
  | uniform how n h next ih =>
    rw [bind, prob_uniform_pos]
    simp only [ih, prob_uniform_pos]
    grind
  | chance how p next ih =>
    rw [bind, prob_chance_pos]
    simp only [ih, prob_chance_pos]
    grind

@[simp] theorem possible_done {a b : α} : (done a : Rand Exact α).Possible b ↔ a = b := prob_done_pos

theorem possible_bind {x : Rand Exact α} {f : α → Rand Exact β} {b : β} :
    (x.bind f).Possible b ↔ ∃ a, x.Possible a ∧ (f a).Possible b := prob_bind_pos

/-- Some way through the draws leads to a possible outcome. -/
theorem Possible.yields {x : Rand Exact α} {a : α} (h : x.Possible a) : x.Yields a := by
  by_contra hnot
  refine h.ne' (Eq.trans (mean_congr fun b hb => if_neg ?_) x.mean_zero)
  rintro rfl
  exact hnot hb

theorem possible_runExactly (x : Rand Exact α) (ws : Words) : x.Possible (x.runExactly ws).1 :=
  prob_runExactly_pos rfl

theorem exists_possible (x : Rand Exact α) : ∃ a, x.Possible a :=
  ⟨_, possible_runExactly x (.ofList [] 0)⟩

end ScopedGrammar.Rand
