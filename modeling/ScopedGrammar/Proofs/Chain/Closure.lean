import ScopedGrammar.Proofs.Chain.Invariant
import ScopedGrammar.Proofs.Move.Proposal

/-!
# Chains stay on derivable trees

A chain that starts from a derivable tree stays on derivable trees of the same nonterminal, whatever
it accepts, rejects or restarts from, and so does every sample that it reports. Such trees can
always be scored in the grammar, and none of them is impossible there.
-/
namespace ScopedGrammar

open Exact

namespace Grammar

variable {g : Grammar Exact} {s : NameSupply} {x : Tree Exact} {nt : String}

theorem Derivable.exists_logProbability (h : g.Derivable s x) (hg : g.Proper) :
    ∃ l, g.logProbability x = .ok (real l) := by
  obtain ⟨-, hscore⟩ := h.weighted.logProbabilityIn_eq hg
  exact ⟨_, hscore⟩

/-- A tree that the grammar scores: it is derivable, and not impossible. -/
structure Scored (g : Grammar Exact) (nt : String) (t : Tree Exact) : Prop where
  derivable : ∃ names, g.Derivable names t
  nonterminal_eq : t.nonterminal = nt
  scored : ∃ l, g.logProbability t = .ok (real l)

end Grammar

namespace Chain

variable {D : Type} {P : Problem Exact D} {nt : String} {c c' : Chain Exact D} {s s' : NameSupply}

/-- A chain works on a problem and stands on a derivable tree of a nonterminal. -/
structure On (P : Problem Exact D) (nt : String) (c : Chain Exact D) (names : NameSupply) :
    Prop where
  problem_eq : c.problem = P
  derivable : P.grammar.Derivable names c.current.tree
  nonterminal_eq : c.current.tree.nonterminal = nt

theorem On.mono (h : On P nt c s) (hle : s.issued ≤ s'.issued) : On P nt c s' :=
  ⟨h.problem_eq, h.derivable.mono hle, h.nonterminal_eq⟩

theorem On.congr (h : On P nt c s) (hproblem : c'.problem = c.problem)
    (htree : c'.current.tree = c.current.tree) : On P nt c' s :=
  ⟨hproblem.trans h.problem_eq, htree ▸ h.derivable, htree ▸ h.nonterminal_eq⟩

theorem On.scored (h : On P nt c s) (hg : P.grammar.Proper) :
    P.grammar.Scored nt c.current.tree :=
  ⟨⟨s, h.derivable⟩, h.nonterminal_eq, h.derivable.exists_logProbability hg⟩

/-- Moves and restarts go to derivable trees of the same nonterminal. -/
theorem on_invariant (hplain : P.grammar.PlainNames) : Invariant (On P nt) where
  congr h hproblem hcurrent := h.congr hproblem (congrArg Sample.tree hcurrent)
  mono h hle := h.mono hle
  move := by
    intro c s h
    rw [h.problem_eq]
    refine (Proposer.leads_proposeOnce hplain h.derivable).imp
      fun attempt s' _ _ hmoved t fb hattempt score _ => ?_
    obtain ⟨ht, hnt, -⟩ := hmoved t fb hattempt
    exact ⟨rfl, ht, hnt.trans h.nonterminal_eq⟩
  fresh := by
    intro c s h
    rw [h.problem_eq]
    refine (Grammar.leads_generateRetrying hplain _).imp
      fun t s' _ _ hfresh score _ => ?_
    exact ⟨rfl, hfresh.1, hfresh.2.trans h.nonterminal_eq⟩

/-- A run reports trees that the grammar scores, and stops on such a tree. -/
theorem scored_of_yields_run (hsound : P.proposer.Sound P.grammar) {ctl : Control}
    {stage stage' : Stage Exact (Chain Exact D)}
    (hI : On P nt stage.subject stage.names) {report : Report (Sample Exact)}
    (h : Rand.Yields (run ctl stage) (report, stage')) :
    P.grammar.Scored nt stage'.subject.current.tree ∧
      ∀ a ∈ report.reported, P.grammar.Scored nt a.tree := by
  obtain ⟨hI', hreported⟩ := (on_invariant hsound.plain).of_yields_run hI h
  refine ⟨hI'.scored hsound.proper, fun a ha => ?_⟩
  obtain ⟨c, s, hc, rfl⟩ := hreported a ha
  exact hc.scored hsound.proper

/-- On no stream of words does an attempt to move a derivable tree fail, and a tree that it moves to
is derivable from the same nonterminal, has a score that is not impossible, and a log-ratio that is
neither undefined nor the lower infinity. So a chain that starts from the tree, however long it runs
and whatever it reports, stays on trees that the grammar scores. -/
theorem moves_stay_derivable (P : Problem Exact D) (hdist : P.grammar.DistinctSignatures)
    (hplain : P.grammar.PlainNames) (hpos : P.grammar.PositiveWeights)
    (hkernel : P.proposer.kernel.WellWeighted) (hsites : P.proposer.sites.Nonneg)
    {x : Tree Exact} (hx : P.grammar.Derivable s x) :
    (∀ words : Words, ∃ attempt s',
      ((P.proposer.proposeOnce P.grammar x s).runExactly words).1 = (.ok attempt, s') ∧
        s.issued ≤ s'.issued ∧ ∀ t fb, attempt = .moved t fb →
          P.grammar.Derivable s' t ∧ t.nonterminal = x.nonterminal ∧
            (∃ l, P.proposer.logProbability P.grammar x t = .ok (real l)) ∧
              fb ≠ nan ∧ fb ≠ negInf) ∧
    ∀ (c : Chain Exact D) (tally : Tally) (records : List (Record Exact)), c.problem = P →
      c.current.tree = x → ∀ (ctl : Control) (words : Words),
        let ran := ((run ctl ⟨c, s, tally, records⟩).runExactly words).1
        P.grammar.Scored x.nonterminal ran.2.subject.current.tree ∧
          ∀ a ∈ ran.1.reported, P.grammar.Scored x.nonterminal a.tree := by
  have hg : P.grammar.Proper := ⟨hdist, hplain.noReservedNames, hpos⟩
  have hsound : P.proposer.Sound P.grammar := ⟨hg, hplain, hkernel, hsites⟩
  constructor
  · intro words
    obtain ⟨attempt, s', hrun, hcomes⟩ := hsound.comes hx words
    exact ⟨attempt, s', hrun, hcomes.issued_le, hcomes.moved⟩
  · intro c tally records hproblem htree ctl words
    have hon : On P x.nonterminal c s := ⟨hproblem, htree ▸ hx, htree ▸ rfl⟩
    have hstage : On P x.nonterminal (Stage.mk c s tally records).subject
        (Stage.mk c s tally records).names := hon
    exact scored_of_yields_run hsound hstage
      (Rand.yields_runExactly (run ctl ⟨c, s, tally, records⟩) words)

/-- The function that returns its argument is moved by insertion and regeneration. -/
theorem moves_stay_derivable_terms :
    let P : Problem Exact ℝ := ⟨Grammar.terms, ⟨fun g t => g.logProbability t, fun _ d => real d, none⟩,
      [0], ⟨.mixture [(real 1, .insert), (real 2, .regeneration)], .leaves (real 3), 5⟩⟩
    P.grammar.DistinctSignatures ∧ P.grammar.PlainNames ∧ P.grammar.PositiveWeights ∧
      P.proposer.kernel.WellWeighted ∧ P.proposer.sites.Nonneg ∧
      P.grammar.Derivable ⟨1⟩ Grammar.identityTerm ∧
      ∃ attempt s', ((P.proposer.proposeOnce P.grammar Grammar.identityTerm ⟨1⟩).runExactly
        (.ofList [3, 1] 7)).1 = (.ok attempt, s') := by
  intro P
  have hkernel : P.proposer.kernel.WellWeighted := by
    refine .mixture ?_ (by norm_num) ?_
    · rintro c (_ | ⟨_, _ | ⟨_, ⟨⟩⟩⟩)
      · exact ⟨1, by norm_num, rfl⟩
      · exact ⟨2, by norm_num, rfl⟩
    · rintro c (_ | ⟨_, _ | ⟨_, ⟨⟩⟩⟩)
      · exact .insert
      · exact .regeneration
  have hsites : P.proposer.sites.Nonneg := ⟨3, by norm_num, rfl⟩
  obtain ⟨hmoves, -⟩ := moves_stay_derivable P Grammar.distinctSignatures_terms
    Grammar.plainNames_terms Grammar.positiveWeights_terms hkernel hsites
    Grammar.derivable_identityTerm
  obtain ⟨attempt, s', hrun, -⟩ := hmoves (.ofList [3, 1] 7)
  exact ⟨Grammar.distinctSignatures_terms, Grammar.plainNames_terms, Grammar.positiveWeights_terms,
    hkernel, hsites, Grammar.derivable_identityTerm, attempt, s', hrun⟩

end Chain

end ScopedGrammar
