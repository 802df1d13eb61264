import ScopedGrammar.Proofs.Chain.Stuck
import ScopedGrammar.Proofs.Move.Ceiling

/-!
# Chains that may go on

Whether a run fails may depend on the draws. If some draws lead any chain of a kind through a step
to a chain of that kind again, then some draws lead it through a whole run without restarts. A chain
that is stuck goes on by rejecting what it could not propose. A chain that regenerates may propose
any tree, and accept it.
-/
namespace ScopedGrammar

namespace Grammar

variable {M : Matching} {t : Tree Exact}

theorem eq_constantTerm (h : t.VariantOver M constantTerm) : t = constantTerm := by
  obtain ⟨nt, name, kind, args⟩ := t
  have hhead := Tree.VariantOver.head h
  obtain rfl : nt = "T" := hhead.nonterminal_eq
  have hkind := hhead.kind
  have hargs := hhead.isSome_eq
  cases kind <;> cases args <;> first | contradiction | skip
  case plain.none =>
    obtain rfl : name = "c" := hkind
    rfl

theorem eq_pairTerm (h : t.VariantOver M pairTerm) : t = pairTerm := by
  obtain ⟨nt, name, kind, args⟩ := t
  have hhead := Tree.VariantOver.head h
  obtain rfl : nt = "T" := hhead.nonterminal_eq
  have hkind := hhead.kind
  have hargs := hhead.isSome_eq
  cases kind <;> cases args <;> first | contradiction | skip
  case plain.some as =>
    obtain rfl : name = "app" := hkind
    rcases Tree.VariantOver.args h with _ | ⟨⟨ha⟩, _ | ⟨⟨hb⟩, _ | _⟩⟩
    rw [eq_constantTerm ha, eq_constantTerm hb]
    rfl

/-- A term that needs no names: it may be derived whatever names were issued, and it has no variant
but itself. -/
structure NamelessTerm (t : Tree Exact) : Prop where
  generable : ∀ names, terms.Generable names [] t
  nonterminal_eq : t.nonterminal = "T"
  depth_le : t.depth ≤ (terms : Grammar Exact).maxDepth
  eq_of_variant : ∀ s : Tree Exact, s.Variant t → s = t

theorem namelessTerm_constantTerm : NamelessTerm constantTerm :=
  ⟨generable_constantTerm, rfl, by decide, fun _ => eq_constantTerm⟩

theorem namelessTerm_pairTerm : NamelessTerm pairTerm :=
  ⟨generable_pairTerm, rfl, by decide, fun _ => eq_pairTerm⟩

theorem NamelessTerm.exists_yields_generateRetrying (ht : NamelessTerm t) (names : NameSupply)
    (attempts : ℕ) : ∃ names', ((terms : Grammar Exact).generateRetrying "T" (attempts + 2)).Yields
      names (.ok t) names' := by
  obtain ⟨l, -, hprob⟩ := prob_generateIn distinctSignatures_terms noReservedNames_terms
    positiveWeights_terms (.nil : Scope.WellNamed _ names) (by simp) (ht.generable names)
  rw [if_pos ht.depth_le, ht.nonterminal_eq] at hprob
  obtain ⟨t', names', hyields, hvar⟩ := Sampler.exists_of_prob_pos (hprob ▸ Real.exp_pos l)
  obtain rfl := ht.eq_of_variant t' hvar
  exact ⟨names', (Sampler.yields_tryCatch ..).mpr (.inl ⟨_, rfl, hyields⟩)⟩

end Grammar

namespace Chain

variable {K D : Type} [Scalar K]

/-- Chains of a kind may always go on: some draws lead a round that is no restart through a step to
a chain of the kind again. -/
def GoesOn (I : Chain K D → Prop) : Prop :=
  ∀ (ctl : Control) (stage : Stage K (Chain K D)), I stage.subject →
    overdue ctl.restart stage.subject.trackImprovement = false →
    ∃ accepted stage', Rand.Yields (round ctl stage) (.step (.ok accepted), stage') ∧
      I stage'.subject

theorem GoesOn.exists_round {I : Chain K D → Prop} (h : GoesOn I) (ctl : Control)
    (hnever : ctl.restart = 0) (stage : Stage K (Chain K D)) (hI : I stage.subject) :
    ∃ accepted stage', Rand.Yields (round ctl stage) (.step (.ok accepted), stage') ∧
      I stage'.subject :=
  h ctl stage hI (by rw [overdue, hnever]; rfl)

/-- Without restarts some draws lead through any number of rounds, of which none fails. -/
theorem GoesOn.exists_rounds {I : Chain K D → Prop} (h : GoesOn I) (ctl : Control)
    (hnever : ctl.restart = 0) (n : ℕ) (stage : Stage K (Chain K D)) (hI : I stage.subject) :
    ∃ rs stage', Rand.Yields (rounds ctl n stage) (rs, stage') ∧ failure? rs = none ∧
      I stage'.subject := by
  induction n generalizing stage with
  | zero => exact ⟨[], stage, rfl, rfl, hI⟩
  | succ n ih =>
    obtain ⟨accepted, between, hround, hbetween⟩ := h.exists_round ctl hnever stage hI
    obtain ⟨rs, stage', hrounds, hnone, hI'⟩ := ih between hbetween
    refine ⟨⟨ctl.restart, .step (.ok accepted), between.subject⟩ :: rs, stage', ?_, ?_, hI'⟩
    · rw [rounds, Rand.yields_bind]
      exact ⟨_, hround, (Rand.yields_bind ..).mpr ⟨_, hrounds, rfl⟩⟩
    · rwa [failure?_of_none rfl]

theorem goesOn_stuck : GoesOn (Stuck : Chain K D → Prop) := by
  intro ctl stage hstuck hdue
  obtain ⟨stage', hround, hsubject⟩ := hstuck.exists_round_apply ctl stage hdue
  obtain ⟨hproblem, hcurrent⟩ := trackImprovement_eq stage.subject
  refine ⟨false, stage', hround ▸ rfl, hstuck.congr ?_ ?_⟩
  · rw [hsubject]
    exact hproblem
  · rw [hsubject]
    exact hcurrent

section Terms

/-- A chain about terms that regenerates, and whose tree needs no names. -/
structure Moving (c : Chain Exact ℕ) : Prop where
  grammar_eq : c.problem.grammar = Grammar.terms
  model_eq : c.problem.model = countingTerms.model
  proposer_eq : c.problem.proposer = ⟨.regeneration, .uniform, 5⟩
  nameless : Grammar.NamelessTerm c.current.tree

namespace Moving

variable {c c' : Chain Exact ℕ} {y : Tree Exact}

theorem congr (h : Moving c) (hproblem : c'.problem = c.problem)
    (hnameless : Grammar.NamelessTerm c'.current.tree) : Moving c' :=
  ⟨hproblem ▸ h.grammar_eq, hproblem ▸ h.model_eq, hproblem ▸ h.proposer_eq, hnameless⟩

theorem exists_scoreOf (h : Moving c) (t : Tree Exact) (stage : Stage Exact (Chain Exact ℕ)) :
    ∃ score tally, (c.scoreOf t : Walk Exact (Chain Exact ℕ) (Score Exact)) stage =
      .done (.ok score, { stage with tally }) := by
  by_cases halike : t.alike c.current.tree = true
  · refine ⟨c.current.score, stage.tally, ?_⟩
    rw [scoreOf, if_pos halike]
    rfl
  · have hscore : c.problem.model.logPosterior c.problem.grammar t c.problem.data =
        .ok (countingTerms.model.scoreWithPrior t c.problem.data 0) := by
      rw [h.model_eq]
      rfl
    exact ⟨_, _, scoreOf_apply (by rw [h.model_eq]; rfl) halike hscore stage⟩

/-- Any term that needs no names may be proposed. -/
theorem exists_proposal (h : Moving c) (hy : Grammar.NamelessTerm y) (names : NameSupply) :
    ∃ fb s', (c.problem.proposer.proposeOnce c.problem.grammar c.current.tree).Yields names
      (.ok (.moved y fb)) s' := by
  have hplain : (Grammar.terms : Grammar Exact).PlainNames := Grammar.plainNames_terms
  have hproper : (Grammar.terms : Grammar Exact).Proper :=
    ⟨Grammar.distinctSignatures_terms, hplain.noReservedNames, Grammar.positiveWeights_terms⟩
  rw [h.proposer_eq, h.grammar_eq]
  obtain ⟨t, fb, s', hmoved, -, hvar⟩ := Proposer.exists_moved
    (p := ⟨.regeneration, .uniform, 5⟩) hproper rfl trivial
    ((h.nameless.generable names).derivable hplain) ((hy.generable names).derivable hplain)
    (hy.generable names).complete hy.depth_le
    (hy.nonterminal_eq.trans h.nameless.nonterminal_eq.symm)
  obtain rfl := hy.eq_of_variant t hvar
  exact ⟨fb, s', hmoved⟩

/-- A step may go to any such term. -/
theorem exists_step (stage : Stage Exact (Chain Exact ℕ)) (h : Moving stage.subject)
    (hy : Grammar.NamelessTerm y) : ∃ score stage',
      Rand.Yields ((step : Walk Exact (Chain Exact ℕ) Bool) stage) (.ok true, stage') ∧
        stage'.subject = stage.subject.countProposal.decide true ⟨y, score⟩ := by
  obtain ⟨fb, s', hmoved⟩ := h.exists_proposal hy stage.names
  have hcounted : Moving stage.subject.countProposal := h.congr rfl h.nameless
  obtain ⟨score, tally, hscore⟩ := hcounted.exists_scoreOf y
    { stage with subject := stage.subject.countProposal, names := s' }
  obtain ⟨stage', hstep, hsubject⟩ := exists_step_of_scored stage hmoved hscore
  exact ⟨score, stage', hstep, hsubject⟩

end Moving

/-- Every sample of the chain is an accepted step to the constant, and so many steps more were
accepted. -/
structure Accepting (k : ℕ) (c : Chain Exact ℕ) : Prop extends Moving c where
  acceptances_eq : c.acceptances = c.samples + k
  tree_eq : 0 < c.samples → c.current.tree = Grammar.constantTerm

theorem accepting_fresh :
    Accepting 0 (fresh (countingTermsBy .regeneration) (countingSample Grammar.pairTerm)) :=
  ⟨⟨rfl, rfl, rfl, Grammar.namelessTerm_pairTerm⟩, rfl, fun hpos => absurd hpos (lt_irrefl 0)⟩

theorem goesOn_accepting (k : ℕ) : GoesOn (Accepting k) := by
  intro ctl stage h hdue
  obtain ⟨hproblem, hcurrent⟩ := trackImprovement_eq stage.subject
  have htracked : Moving stage.subject.trackImprovement :=
    h.toMoving.congr hproblem (hcurrent ▸ h.nameless)
  obtain ⟨score, stepped, hstep, hsubject⟩ := Moving.exists_step
    { stage with subject := stage.subject.trackImprovement } htracked
    Grammar.namelessTerm_constantTerm
  have hacceptances : stage.subject.trackImprovement.acceptances = stage.subject.acceptances := by
    unfold trackImprovement
    split <;> rfl
  refine ⟨true, countSample ctl.print stepped, ?_, ?_⟩
  · rw [round_eq_step ctl stage hdue, Rand.yields_bind]
    exact ⟨_, hstep, rfl⟩
  · rw [subject_countSample, hsubject]
    refine ⟨h.toMoving.congr hproblem Grammar.namelessTerm_constantTerm, ?_, fun _ => rfl⟩
    change stage.subject.trackImprovement.acceptances + 1 =
      stage.subject.trackImprovement.samples + 1 + k
    rw [hacceptances, samples_trackImprovement, h.acceptances_eq, Nat.add_right_comm]

/-- If all chains of a group have samples, they have all come to the constant. -/
theorem Accepting.at_constant {g : ChainGroup Exact ℕ} (h : ∀ c ∈ g, Accepting 0 c)
    (hsamples : 0 ∉ g.samples) : ∀ c ∈ g, c.acceptances = c.samples ∧
      c.current.tree = Grammar.constantTerm := by
  intro c hc
  have hne : c.samples ≠ 0 := fun hzero => hsamples (hzero ▸ List.mem_map_of_mem hc)
  exact ⟨(h c hc).acceptances_eq, (h c hc).tree_eq (Nat.pos_of_ne_zero hne)⟩

end Terms

end Chain

end ScopedGrammar
