import ScopedGrammar.Proofs.Chain.Balance
import ScopedGrammar.Proofs.Chain.Rounds
import ScopedGrammar.Proofs.Chain.Score
import ScopedGrammar.Proofs.Move.Proposal
import ScopedGrammar.Proofs.Move.Totals

/-!
# Chains that cannot move

If every attempt to move the tree of a chain fails, then the chain stays where it is, and its steps
count rejected proposals. A chain that deletes is stuck in a tree without an argument that can take
the place of its node.
-/
namespace ScopedGrammar.Chain

section Stuck

variable {K D : Type} [Scalar K]

/-- Every attempt to move a chain fails, for a cause that a fresh draw may avoid. -/
def Stuck (c : Chain K D) : Prop :=
  ∃ cause, c.problem.proposer.proposeOnce c.problem.grammar c.current.tree = pure (.failed cause)

theorem Stuck.congr {c c' : Chain K D} (h : c.Stuck) (hproblem : c'.problem = c.problem)
    (hcurrent : c'.current = c.current) : c'.Stuck := by
  obtain ⟨cause, hfails⟩ := h
  exact ⟨cause, by rw [hproblem, hcurrent, hfails]⟩

/-- A step counts a rejected proposal. -/
theorem Stuck.exists_step_apply (stage : Stage K (Chain K D)) (h : stage.subject.Stuck) :
    ∃ stage', (step : Walk K (Chain K D) Bool) stage = .done (.ok false, stage') ∧
      stage'.subject = stage.subject.countProposal.remember false := by
  obtain ⟨cause, hfails⟩ := h
  refine ⟨⟨stage.subject.countProposal.remember false, stage.names, stage.tally,
    .proposalFailed cause :: stage.records⟩, ?_, rfl⟩
  rw [step_apply, hfails]
  rfl

/-- A round that is no restart is such a step. -/
theorem Stuck.exists_round_apply (ctl : Control) (stage : Stage K (Chain K D))
    (h : stage.subject.Stuck)
    (hdue : overdue ctl.restart stage.subject.trackImprovement = false) :
    ∃ stage', round ctl stage = .done (.step (.ok false), stage') ∧
      stage'.subject = { stage.subject.trackImprovement.countProposal.remember false with
        samples := stage.subject.samples + 1 } := by
  obtain ⟨hproblem, hcurrent⟩ := trackImprovement_eq stage.subject
  obtain ⟨stepped, hstep, hsubject⟩ := Stuck.exists_step_apply
    { stage with subject := stage.subject.trackImprovement } (h.congr hproblem hcurrent)
  refine ⟨countSample ctl.print stepped, ?_, ?_⟩
  · rw [round_eq_step ctl stage hdue, hstep]
    rfl
  · rw [subject_countSample, hsubject, ← samples_trackImprovement stage.subject]
    rfl

theorem yields_ofTree {σ : Type} {p : Problem K D} {t : Tree K} {score : Score K}
    (hlasting : p.model.allowance = none)
    (hscore : p.model.logPosterior p.grammar t p.data = .ok score) (stage : Stage K σ) :
    Rand.Yields ((ofTree p t : Walk K σ _) stage) (.ok (fresh p ⟨t, score⟩),
      { stage with tally := (p.model.assess p.grammar t p.data stage.tally).2 }) := by
  rw [ofTree_apply hlasting hscore, Rand.yields_done]
  rfl

end Stuck

open Exact ScopedGrammar.Tree

variable {D : Type} {c : Chain Exact D}

/-- Deletion does not get away from a tree without an argument that can take the place of its node.
-/
theorem stuck_delete (hkernel : c.problem.proposer.kernel = .delete)
    (hsites : c.problem.proposer.sites.Nonneg)
    (hnone : ¬ ∃ p m, c.current.tree.get? p = some m ∧ Deletion.promotableSlots m ≠ []) :
    c.Stuck := by
  refine ⟨.proposalFailed, funext fun names => ?_⟩
  rw [Proposer.proposeOnce_apply, Proposer.proposeTree, hkernel, Kernel.propose,
    Deletion.propose_of_none hsites hnone]
  rfl

section Terms

/-- A tree with the score that it has in the problem about terms. -/
noncomputable def countingSample (t : Tree Exact) : Sample Exact :=
  ⟨t, countingTerms.model.scoreWithPrior t [2] 0⟩

theorem posterior_countingSample (t : Tree Exact) :
    (countingSample t).score.posterior = real (-(2 * t.countNodes : ℕ)) := by
  simp [countingSample, Model.scoreWithPrior, zero_eq, Model.logLikelihood,
    Model.countedLikelihood, countingTerms, sumAbove]

/-- The problem about terms, walked on by one kernel. -/
noncomputable def countingTermsBy (kernel : Kernel Exact) : Problem Exact ℕ :=
  { countingTerms with proposer := ⟨kernel, .uniform, 5⟩ }

theorem exists_ofTree_countingTermsBy (kernel : Kernel Exact) (t : Tree Exact) (names : NameSupply) :
    ∃ tally, Rand.Yields
      ((ofTree (countingTermsBy kernel) t : Walk Exact Unit _) ⟨(), names, ⟨0, 0⟩, []⟩)
      (.ok (fresh (countingTermsBy kernel) (countingSample t)), ⟨(), names, tally, []⟩) := by
  have hscore : (countingTermsBy kernel).model.logPosterior (countingTermsBy kernel).grammar t
      (countingTermsBy kernel).data = .ok (countingSample t).score := (logPosterior_countingTerms t).1
  exact ⟨(countingTerms.model.assess countingTerms.grammar t [2] ⟨0, 0⟩).2, yields_ofTree rfl hscore _⟩

theorem stuck_constantTerm {c : Chain Exact ℕ} (hproposer : c.problem.proposer = ⟨.delete, .uniform, 5⟩)
    (htree : c.current.tree = Grammar.constantTerm) : c.Stuck := by
  refine stuck_delete (by rw [hproposer]) (by rw [hproposer]; exact trivial) ?_
  rintro ⟨p, m, hm, hslots⟩
  rw [htree] at hm
  cases p with
  | nil =>
    cases hm
    exact hslots rfl
  | cons i p => cases hm

end Terms

end ScopedGrammar.Chain
