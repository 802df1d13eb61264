import ScopedGrammar.Proofs.Chain.Ensures

/-!
# The parts of a step

A step proposes, scores and settles. Scoring changes neither the chain nor the names; settling
accepts the candidate or keeps the current sample, and changes nothing else that a later step looks
at.
-/
namespace ScopedGrammar.Chain

variable {K D : Type} [Scalar K]

/-- The end of a step: what cannot be compared is noted, and the candidate is accepted or not. -/
def settle (c : Chain K D) (candidate : Sample K) (fb : K) : Walk K (Chain K D) Bool := do
  let here := c.current.score.atTemperatures c.temperatures
  let there := candidate.score.atTemperatures c.temperatures
  if Scalar.isNaN here || Scalar.isNaN there || Scalar.isInf fb then
    Walk.record (.pathological here there fb)
  let ratio := acceptanceLogRatio here there fb c.temperatures.acceptance
  let below ← Walk.ofRand (fractionBelow (Scalar.exp ratio))
  let accepted := acceptedBy ratio below
  Walk.record (.decided accepted candidate)
  Walk.update (decide accepted candidate)
  pure accepted

/-- The rest of a step, once the proposer has made an attempt from the current tree. -/
def judge (c : Chain K D) : Attempt K → Walk K (Chain K D) Bool
  | .failed cause => do
      Walk.record (.proposalFailed cause)
      Walk.update (remember false)
      pure false
  | .moved t fb => do
      let score ← c.scoreOf t
      c.settle ⟨t, score⟩ fb

/-- One more proposal is made. -/
def countProposal (c : Chain K D) : Chain K D := { c with proposals := c.proposals + 1 }

theorem step_eq : (step : Walk K (Chain K D) Bool) = (do
    Walk.update countProposal
    let c ← Walk.subject
    let attempt ← Walk.ofSampler (c.problem.proposer.proposeOnce c.problem.grammar c.current.tree)
    c.judge attempt) := rfl

theorem step_apply (stage : Stage K (Chain K D)) : (step : Walk K (Chain K D) Bool) stage =
    (Walk.ofSampler (stage.subject.problem.proposer.proposeOnce stage.subject.problem.grammar
      stage.subject.current.tree) >>= stage.subject.countProposal.judge :
        Walk K (Chain K D) Bool) { stage with subject := stage.subject.countProposal } := rfl

omit [Scalar K] in
theorem decide_eq (accepted : Bool) (candidate : Sample K) (c : Chain K D) :
    (c.decide accepted candidate).problem = c.problem ∧
      (c.decide accepted candidate).current = if accepted then candidate else c.current := by
  cases accepted <;> exact ⟨rfl, rfl⟩

theorem trackImprovement_eq (c : Chain K D) :
    c.trackImprovement.problem = c.problem ∧ c.trackImprovement.current = c.current := by
  unfold trackImprovement
  split <;> exact ⟨rfl, rfl⟩

/-- What a chain takes for the score of a tree: its own score if the tree is alike to its current
one, and else what its model comes to. -/
def Takes (c : Chain K D) (t : Tree K) (score : Score K) : Prop :=
  (t.alike c.current.tree = true ∧ score = c.current.score) ∨
    c.problem.model.Gives c.problem.grammar t c.problem.data score

section Ensures

variable {I : Chain K D → NameSupply → Prop} {stage : Stage K (Chain K D)}

theorem ensures_scoreOf (c : Chain K D) (t : Tree K) (hI : I stage.subject stage.names) :
    (c.scoreOf t).Ensures I stage fun score stage' =>
      stage'.subject = stage.subject ∧ stage'.names = stage.names ∧ c.Takes t score := by
  unfold scoreOf
  split
  · next halike => exact .pure hI ⟨rfl, rfl, .inl ⟨halike, rfl⟩⟩
  · exact (Walk.Ensures.assess hI).imp fun score stage' _ h => ⟨h.1, h.2.1, .inr h.2.2⟩

/-- Settling keeps an invariant that survives either decision. -/
theorem ensures_settle (c : Chain K D) (candidate : Sample K) (fb : K)
    (hI : I stage.subject stage.names)
    (hdecide : ∀ accepted, I (stage.subject.decide accepted candidate) stage.names) :
    (c.settle candidate fb).Ensures I stage fun _ _ => True := by
  have hend : ∀ (r : K) (stage' : Stage K (Chain K D)), stage'.subject = stage.subject →
      stage'.names = stage.names →
      (do
        let below ← Walk.ofRand (fractionBelow (Scalar.exp r))
        Walk.record (.decided (acceptedBy r below) candidate)
        Walk.update (decide (acceptedBy r below) candidate)
        pure (acceptedBy r below) : Walk K (Chain K D) Bool).Ensures I stage' fun _ _ => True := by
    intro r stage₁ hsubject₁ hnames₁
    have hI₁ : I stage₁.subject stage₁.names := by rwa [hsubject₁, hnames₁]
    refine (Walk.Ensures.ofRand hI₁).bind fun below stage₂ hI₂ h₂ => ?_
    refine (Walk.Ensures.record hI₂).bind fun _ stage₃ hI₃ h₃ => ?_
    have hdecided : I (stage₃.subject.decide (acceptedBy r below) candidate) stage₃.names := by
      rw [h₃.1, h₃.2, h₂, hsubject₁, hnames₁]
      exact hdecide _
    exact (Walk.Ensures.update hdecided).bind fun _ stage hI _ => .pure hI trivial
  unfold settle
  dsimp only
  split
  · exact (Walk.Ensures.record hI).bind fun _ stage' _ h => hend _ stage' h.1 h.2
  · exact hend _ stage rfl rfl

/-- Whatever an attempt came to, the rest of the step keeps an invariant that survives its decision
and its being remembered. -/
theorem ensures_judge (c : Chain K D) (attempt : Attempt K) (hI : I stage.subject stage.names)
    (hstay : I (stage.subject.remember false) stage.names)
    (hdecide : ∀ t fb, attempt = .moved t fb → ∀ score, c.Takes t score → ∀ accepted,
      I (stage.subject.decide accepted ⟨t, score⟩) stage.names) :
    (c.judge attempt).Ensures I stage fun _ _ => True := by
  cases attempt with
  | failed cause =>
    refine (Walk.Ensures.record hI).bind fun _ stage₁ hI₁ h₁ => ?_
    have hstay₁ : I (stage₁.subject.remember false) stage₁.names := by rwa [h₁.1, h₁.2]
    exact (Walk.Ensures.update hstay₁).bind fun _ stage hI _ => .pure hI trivial
  | moved t fb =>
    refine (ensures_scoreOf c t hI).bind fun score stage₁ hI₁ h₁ => ?_
    refine ensures_settle c ⟨t, score⟩ fb hI₁ fun accepted => ?_
    obtain ⟨hsubject, hnames, hscore⟩ := h₁
    rw [hsubject, hnames]
    exact hdecide t fb rfl score hscore accepted

end Ensures

/-- A draw may always accept. -/
theorem exists_settle (c : Chain K D) (candidate : Sample K) (fb : K)
    (stage : Stage K (Chain K D)) : ∃ stage', Rand.Yields (c.settle candidate fb stage)
      (.ok true, stage') ∧ stage'.subject = stage.subject.decide true candidate := by
  have haccept : ∀ (r : K) (stage₁ : Stage K (Chain K D)), stage₁.subject = stage.subject →
      ∃ stage', Rand.Yields ((do
        let below ← Walk.ofRand (fractionBelow (Scalar.exp r))
        Walk.record (.decided (acceptedBy r below) candidate)
        Walk.update (decide (acceptedBy r below) candidate)
        pure (acceptedBy r below) : Walk K (Chain K D) Bool) stage₁) (.ok true, stage') ∧
          stage'.subject = stage.subject.decide true candidate := by
    intro r stage₁ hsubject
    have htrue : acceptedBy r true = true := Bool.or_true _
    refine ⟨⟨stage₁.subject.decide true candidate, stage₁.names, stage₁.tally,
      .decided true candidate :: stage₁.records⟩, ⟨true, ?_⟩, by rw [hsubject]⟩
    change (Except.ok (acceptedBy r true), (⟨stage₁.subject.decide (acceptedBy r true) candidate,
      stage₁.names, stage₁.tally, .decided (acceptedBy r true) candidate :: stage₁.records⟩ :
        Stage K (Chain K D))) = _
    rw [htrue]
  unfold settle
  dsimp only
  split
  · exact haccept _ _ rfl
  · exact haccept _ stage rfl

/-- A step may go to a tree that is proposed and has a score. -/
theorem exists_step_of_scored (stage : Stage K (Chain K D)) {t : Tree K} {fb : K} {s' : NameSupply}
    {score : Score K} {tally : Tally}
    (hmoved : (stage.subject.problem.proposer.proposeOnce stage.subject.problem.grammar
      stage.subject.current.tree).Yields stage.names (.ok (.moved t fb)) s')
    (hscore : (stage.subject.countProposal.scoreOf t : Walk K (Chain K D) (Score K))
      { stage with subject := stage.subject.countProposal, names := s' } =
        .done (.ok score, { stage with subject := stage.subject.countProposal, names := s', tally })) :
    ∃ stage', Rand.Yields ((step : Walk K (Chain K D) Bool) stage) (.ok true, stage') ∧
      stage'.subject = stage.subject.countProposal.decide true ⟨t, score⟩ := by
  obtain ⟨stage', hsettle, hsubject⟩ := exists_settle stage.subject.countProposal ⟨t, score⟩ fb
    { stage with subject := stage.subject.countProposal, names := s', tally }
  refine ⟨stage', ?_, hsubject⟩
  rw [step_apply, Walk.ofSampler_bind_apply, Rand.yields_bind]
  refine ⟨_, hmoved, ?_⟩
  dsimp only
  rw [judge, Walk.bind_apply, hscore]
  exact hsettle

/-- If the tree is alike to the current one, the step takes the score over. -/
theorem exists_step_of_moved (stage : Stage K (Chain K D)) {t : Tree K} {fb : K} {s' : NameSupply}
    (hmoved : (stage.subject.problem.proposer.proposeOnce stage.subject.problem.grammar
      stage.subject.current.tree).Yields stage.names (.ok (.moved t fb)) s')
    (halike : t.alike stage.subject.current.tree = true) :
    ∃ stage', Rand.Yields ((step : Walk K (Chain K D) Bool) stage) (.ok true, stage') ∧
      stage'.subject.problem = stage.subject.problem ∧
        stage'.subject.current = ⟨t, stage.subject.current.score⟩ := by
  have hscore : (stage.subject.countProposal.scoreOf t : Walk K (Chain K D) (Score K)) =
      pure stage.subject.current.score := if_pos halike
  obtain ⟨stage', hstep, hsubject⟩ := exists_step_of_scored stage hmoved
    (congrFun hscore { stage with subject := stage.subject.countProposal, names := s' })
  obtain ⟨hproblem, hcurrent⟩ := decide_eq true ⟨t, stage.subject.current.score⟩
    stage.subject.countProposal
  exact ⟨stage', hstep, hsubject ▸ hproblem, hsubject ▸ hcurrent⟩

end ScopedGrammar.Chain
