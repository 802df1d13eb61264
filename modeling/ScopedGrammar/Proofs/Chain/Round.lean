import ScopedGrammar.Proofs.Chain.Step

/-!
# Rounds

A chain takes a sample in one round: it steps, or it tries to restart. A round is told here together
with what it came to, and everything that it may do to the chain is said once. Of the decisions on
proposals the records keep an account.
-/
namespace ScopedGrammar

/-- The decision on a proposal; a move that was not found counts as rejected. -/
def Record.decision? {K : Type} : Record K → Option Bool
  | proposalFailed _ => some false
  | decided accepted _ => some accepted
  | pathological _ _ _ | restarting _ | restartFailed _ | progress _ _ _ | swap _ _ _ => none

/-- The decisions on proposals that the records tell of, the latest first. -/
def Stage.decisions {K σ : Type} (stage : Stage K σ) : List Bool :=
  stage.records.filterMap Record.decision?

namespace Walk

variable {K σ α β : Type}

/-- A walk in two parts fails in the first, or goes on from its result. -/
theorem yields_bind {x : Walk K σ α} {f : α → Walk K σ β} {stage stage' : Stage K σ}
    {r : Except SampleError β} : Rand.Yields ((x >>= f) stage) (r, stage') ↔
      (∃ e, r = .error e ∧ Rand.Yields (x stage) (.error e, stage')) ∨
        ∃ a between, Rand.Yields (x stage) (.ok a, between) ∧
          Rand.Yields (f a between) (r, stage') := by
  rw [bind_apply, Rand.yields_bind]
  constructor
  · rintro ⟨⟨e | a, between⟩, hx, hrest⟩
    · have heq : (Except.error e, between) = (r, stage') := hrest
      cases heq
      exact .inl ⟨e, rfl, hx⟩
    · exact .inr ⟨a, between, hx, hrest⟩
  · rintro (⟨e, rfl, hx⟩ | ⟨a, between, hx, hrest⟩)
    · exact ⟨_, hx, rfl⟩
    · exact ⟨_, hx, hrest⟩

theorem of_yields_ofSampler {x : Sampler K α} {stage stage' : Stage K σ} {r : Except SampleError α}
    (h : Rand.Yields ((ofSampler x : Walk K σ α) stage) (r, stage')) :
    ∃ names, x.Yields stage.names r names ∧ stage' = { stage with names } := by
  obtain ⟨⟨a, names⟩, hx, heq⟩ := (Rand.yields_bind ..).mp h
  cases heq
  exact ⟨names, hx, rfl⟩

theorem of_yields_assess [Scalar K] {D : Type} {m : Model K D} {g : Grammar K} {t : Tree K}
    {data : List D} {stage stage' : Stage K σ} {r : Except SampleError (Score K)}
    (h : Rand.Yields ((assess m g t data : Walk K σ _) stage) (r, stage')) :
    ∃ tally, stage' = { stage with tally } := by
  rw [assess_apply, Rand.yields_done] at h
  cases h
  exact ⟨_, rfl⟩

end Walk

namespace Chain

variable {K D : Type} [Scalar K]

section Parts

variable {c : Chain K D} {stage stage' : Stage K (Chain K D)}

/-- Settling decides on the candidate and records the decision. -/
theorem of_yields_settle {candidate : Sample K} {fb : K} {r : Except SampleError Bool}
    (h : Rand.Yields ((c.settle candidate fb) stage) (r, stage')) :
    ∃ accepted, r = .ok accepted ∧ stage'.subject = stage.subject.decide accepted candidate ∧
      stage'.decisions = accepted :: stage.decisions := by
  have hend : ∀ (ratio : K) (stage₁ : Stage K (Chain K D)), stage₁.subject = stage.subject →
      stage₁.decisions = stage.decisions →
      Rand.Yields ((do
        let below ← Walk.ofRand (fractionBelow (Scalar.exp ratio))
        Walk.record (.decided (acceptedBy ratio below) candidate)
        Walk.update (decide (acceptedBy ratio below) candidate)
        pure (acceptedBy ratio below) : Walk K (Chain K D) Bool) stage₁) (r, stage') →
      ∃ accepted, r = .ok accepted ∧ stage'.subject = stage.subject.decide accepted candidate ∧
        stage'.decisions = accepted :: stage.decisions := by
    rintro ratio stage₁ hsubject hdecisions ⟨below, heq⟩
    have heq' : (Except.ok (acceptedBy ratio below), (⟨stage₁.subject.decide (acceptedBy ratio below)
        candidate, stage₁.names, stage₁.tally, .decided (acceptedBy ratio below) candidate ::
          stage₁.records⟩ : Stage K (Chain K D))) = (r, stage') := heq
    cases heq'
    exact ⟨_, rfl, by rw [hsubject], congrArg (_ :: ·) hdecisions⟩
  unfold settle at h
  dsimp only at h
  split at h
  · exact hend _ { stage with records := .pathological _ _ _ :: stage.records } rfl rfl h
  · exact hend _ stage rfl rfl h

theorem of_yields_scoreOf {t : Tree K} {r : Except SampleError (Score K)}
    (h : Rand.Yields ((c.scoreOf t) stage) (r, stage')) : ∃ tally, stage' = { stage with tally } := by
  unfold scoreOf at h
  split at h
  · cases h
    exact ⟨stage.tally, rfl⟩
  · exact Walk.of_yields_assess h

/-- A step counts a proposal. It fails before the decision, which is not recorded then, or it
decides: a move that is not found is rejected. -/
theorem of_yields_step {r : Except SampleError Bool}
    (h : Rand.Yields ((step : Walk K (Chain K D) Bool) stage) (r, stage')) :
    (∃ e, r = .error e ∧ stage'.subject = stage.subject.countProposal ∧
      stage'.decisions = stage.decisions) ∨
    ∃ accepted candidate, r = .ok accepted ∧
      stage'.subject = stage.subject.countProposal.decide accepted candidate ∧
        stage'.decisions = accepted :: stage.decisions := by
  rw [step_apply, Walk.yields_bind] at h
  rcases h with ⟨e, rfl, hfailed⟩ | ⟨attempt, between, hattempt, hjudge⟩
  · obtain ⟨names, -, rfl⟩ := Walk.of_yields_ofSampler hfailed
    exact .inl ⟨e, rfl, rfl, rfl⟩
  obtain ⟨names, -, rfl⟩ := Walk.of_yields_ofSampler hattempt
  cases attempt with
  | failed cause =>
    have heq : (Except.ok false, (⟨stage.subject.countProposal.remember false, names, stage.tally,
      .proposalFailed cause :: stage.records⟩ : Stage K (Chain K D))) = (r, stage') := hjudge
    cases heq
    exact .inr ⟨false, stage.subject.current, rfl, rfl, rfl⟩
  | moved t fb =>
    rcases Walk.yields_bind.mp hjudge with ⟨e, rfl, hscore⟩ | ⟨score, scored, hscore, hsettle⟩
    · obtain ⟨tally, rfl⟩ := of_yields_scoreOf hscore
      exact .inl ⟨e, rfl, rfl, rfl⟩
    · obtain ⟨tally, rfl⟩ := of_yields_scoreOf hscore
      obtain ⟨accepted, rfl, hsubject, hdecisions⟩ := of_yields_settle hsettle
      exact .inr ⟨accepted, _, rfl, hsubject, hdecisions⟩

/-- A restart that fails leaves the chain alone. One that succeeds makes the fresh sample the best
one so far. -/
theorem of_yields_restart {r : Except SampleError Unit}
    (h : Rand.Yields ((restart : Walk K (Chain K D) Unit) stage) (r, stage')) :
    stage'.decisions = stage.decisions ∧
      ((∃ e, r = .error e ∧ stage'.subject = stage.subject) ∨
        ∃ fresh : Sample K, r = .ok () ∧ stage'.subject = { stage.subject with
          current := fresh, best := fresh.score.posterior, stepsSinceImprovement := 0 }) := by
  rcases Walk.yields_bind.mp h with ⟨e, -, hsubject⟩ | ⟨c, between, hsubject, hrest⟩
  · cases hsubject
  cases hsubject
  rcases Walk.yields_bind.mp hrest with ⟨e, rfl, hfailed⟩ | ⟨t, made, hmade, hrest⟩
  · obtain ⟨names, -, rfl⟩ := Walk.of_yields_ofSampler hfailed
    exact ⟨rfl, .inl ⟨e, rfl, rfl⟩⟩
  obtain ⟨names, -, rfl⟩ := Walk.of_yields_ofSampler hmade
  rcases Walk.yields_bind.mp hrest with ⟨e, rfl, hfailed⟩ | ⟨score, scored, hscored, hrest⟩
  · obtain ⟨tally, rfl⟩ := Walk.of_yields_assess hfailed
    exact ⟨rfl, .inl ⟨e, rfl, rfl⟩⟩
  · obtain ⟨tally, rfl⟩ := Walk.of_yields_assess hscored
    cases hrest
    exact ⟨rfl, .inr ⟨⟨t, score⟩, rfl, rfl⟩⟩

/-- New data change nothing but the data themselves, and the score and the tally if the current tree
is scored anew. -/
theorem of_yields_setData {data : List D} {recompute : Bool} {r : Except SampleError Unit}
    (h : Rand.Yields ((setData data recompute : Walk K (Chain K D) Unit) stage) (r, stage')) :
    ∃ score tally, stage' = { stage with
      subject := { stage.subject with
        problem := { stage.subject.problem with data }
        current := ⟨stage.subject.current.tree, score⟩ }
      tally } := by
  rcases Walk.yields_bind.mp h with ⟨e, -, heq⟩ | ⟨u, between, hupdate, hrest⟩
  · cases heq
  cases hupdate
  cases recompute with
  | false =>
    cases hrest
    exact ⟨_, _, rfl⟩
  | true =>
    rcases Walk.yields_bind.mp hrest with ⟨e, -, heq⟩ | ⟨c, between, hsubject, hrest⟩
    · cases heq
    cases hsubject
    rcases Walk.yields_bind.mp hrest with ⟨e, -, hfailed⟩ | ⟨score, scored, hscored, heq⟩
    · obtain ⟨tally, rfl⟩ := Walk.of_yields_assess hfailed
      exact ⟨_, _, rfl⟩
    · obtain ⟨tally, rfl⟩ := Walk.of_yields_assess hscored
      cases heq
      exact ⟨_, _, rfl⟩

end Parts

/-- A chain that nothing has been done with. -/
def fresh (p : Problem K D) (sample : Sample K) : Chain K D :=
  ⟨p, sample, .unit, Scalar.negInf, 0, 0, 0, 0, .empty historySize⟩

/-- A chain that is made, from a tree or from the prior, is a fresh one. -/
theorem exists_eq_fresh {σ : Type} {p : Problem K D} {make : Walk K σ (Chain K D)}
    (hmake : make = ofPrior p ∨ ∃ t, make = ofTree p t) {start made : Stage K σ} {c : Chain K D}
    (h : Rand.Yields (make start) (.ok c, made)) : ∃ sample, c = fresh p sample := by
  have hofTree : ∀ t (start : Stage K σ), Rand.Yields ((ofTree p t : Walk K σ _) start) (.ok c, made) →
      ∃ sample, c = fresh p sample := by
    intro t start h
    rcases Walk.yields_bind.mp h with ⟨e, heq, -⟩ | ⟨score, scored, -, heq⟩
    · cases heq
    · cases heq
      exact ⟨⟨t, score⟩, rfl⟩
  rcases hmake with rfl | ⟨t, rfl⟩
  · rcases Walk.yields_bind.mp h with ⟨e, heq, -⟩ | ⟨t, drawn, -, hrest⟩
    · cases heq
    · exact hofTree t drawn hrest
  · exact hofTree t start h

/-- What a round came to: a step that decided or failed, or a restart. -/
inductive Event where
  | step (outcome : Except SampleError Bool)
  | restart (outcome : Except SampleError Unit)

namespace Event

/-- The failure that ends a walk. One that a restart may recover from does not. -/
def failure? : Event → Option SampleError
  | step (.error e) => some e
  | restart (.error e) => if e.isRecoverable then none else some e
  | step (.ok _) | restart (.ok _) => none

/-- The decision of a step. -/
def decision? : Event → Option Bool
  | step (.ok accepted) => some accepted
  | step (.error _) | restart _ => none

def isRestart : Event → Bool
  | step _ => false
  | restart _ => true

end Event

/-- After too long without improvement it is time to restart. -/
def overdue (patience : ℕ) (c : Chain K D) : Bool :=
  0 < patience && patience < c.stepsSinceImprovement

/-- Begin to count anew after a restart that failed. -/
def keepCurrent (e : SampleError) (stage : Stage K (Chain K D)) : Stage K (Chain K D) :=
  { stage with
    subject := { stage.subject with stepsSinceImprovement := 0 }
    records := .restartFailed e :: stage.records }

/-- Count the sample, and record the progress if it is time to. -/
def countSample (print : ℕ) (stage : Stage K (Chain K D)) : Stage K (Chain K D) :=
  let c := { stage.subject with samples := stage.subject.samples + 1 }
  { stage with
    subject := c
    records := if 0 < print && c.samples % print == 0 then
        .progress c.samples c.acceptanceRate c.current :: stage.records
      else stage.records }

/-- Take a sample and tell what it came to. -/
def round (ctl : Control) : SafeWalk K (Chain K D) Event := fun stage =>
  let stage := { stage with subject := stage.subject.trackImprovement }
  if overdue ctl.restart stage.subject then
    ((restart : Walk K (Chain K D) Unit)
      { stage with records := .restarting ctl.restart :: stage.records }).bind fun (outcome, stage) =>
        .done (.restart outcome,
          match outcome with
          | .ok () => countSample ctl.print stage
          | .error e =>
              if e.isRecoverable then countSample ctl.print (keepCurrent e stage) else stage)
  else
    ((step : Walk K (Chain K D) Bool) stage).bind fun (outcome, stage) =>
      .done (.step outcome,
        match outcome with
        | .ok _ => countSample ctl.print stage
        | .error _ => stage)

/-- The end of a round. -/
def finishRound (print : ℕ) : Walk K (Chain K D) Unit := do
  Walk.update fun c => { c with samples := c.samples + 1 }
  let c ← Walk.subject
  if 0 < print && c.samples % print == 0 then
    Walk.record (.progress c.samples c.acceptanceRate c.current)

theorem finishRound_apply (print : ℕ) (stage : Stage K (Chain K D)) :
    (finishRound print : Walk K (Chain K D) Unit) stage =
      .done (.ok (), countSample print stage) := by
  have hrun : (finishRound print : Walk K (Chain K D) Unit) stage =
      (if 0 < print && (stage.subject.samples + 1) % print == 0 then
        Walk.record (.progress (stage.subject.samples + 1) stage.subject.acceptanceRate
          stage.subject.current)
      else pure () : Walk K (Chain K D) Unit)
        { stage with subject := { stage.subject with samples := stage.subject.samples + 1 } } := rfl
  rw [hrun]
  unfold countSample
  dsimp only
  split
  · rfl
  · rfl

theorem takeSample_eq (ctl : Control) (stage : Stage K (Chain K D)) :
    (takeSample ctl : Walk K (Chain K D) Unit) stage =
      (if overdue ctl.restart stage.subject.trackImprovement then
        tryRestart ctl.restart >>= fun _ => finishRound ctl.print
      else step >>= fun _ => finishRound ctl.print : Walk K (Chain K D) Unit)
        { stage with subject := stage.subject.trackImprovement } := rfl

/-- A restart is recorded, tried, and made up for if it failed recoverably. -/
theorem tryRestart_apply (after : ℕ) (stage : Stage K (Chain K D)) :
    (tryRestart after : Walk K (Chain K D) Unit) stage =
      ((restart : Walk K (Chain K D) Unit)
        { stage with records := .restarting after :: stage.records }).bind fun (outcome, stage') =>
          .done (match outcome with
            | .ok () => (.ok (), stage')
            | .error e =>
                if e.isRecoverable then (.ok (), keepCurrent e stage') else (.error e, stage')) := by
  have hrun : (tryRestart after : Walk K (Chain K D) Unit) stage =
      (tryCatch restart fun e =>
        if e.isRecoverable then do
          Walk.record (.restartFailed e)
          Walk.update fun c => { c with stepsSinceImprovement := 0 }
        else throw e : Walk K (Chain K D) Unit)
          { stage with records := .restarting after :: stage.records } := rfl
  rw [hrun, Walk.tryCatch_apply]
  refine congrArg (Rand.bind _) (funext fun (outcome, stage') => ?_)
  cases outcome with
  | ok u => rfl
  | error e =>
    dsimp only
    split
    · rfl
    · rfl

/-- To take a sample is to go through a round and not to tell. -/
theorem takeSample_apply (ctl : Control) (stage : Stage K (Chain K D)) :
    (takeSample ctl : Walk K (Chain K D) Unit) stage = (round ctl stage).bind fun (event, stage') =>
      .done (match event.failure? with | none => .ok () | some e => .error e, stage') := by
  rw [takeSample_eq, round]
  dsimp only
  split
  · rw [Walk.bind_apply, tryRestart_apply, Rand.bind_assoc, Rand.bind_assoc]
    refine congrArg (Rand.bind _) (funext fun (outcome, stage') => ?_)
    cases outcome with
    | ok u => exact finishRound_apply ctl.print stage'
    | error e =>
      rw [Rand.done_bind, Rand.done_bind]
      dsimp only [Event.failure?]
      cases e.isRecoverable with
      | true => exact finishRound_apply ctl.print _
      | false => rfl
  · rw [Walk.bind_apply, Rand.bind_assoc]
    refine congrArg (Rand.bind _) (funext fun (outcome, stage') => ?_)
    cases outcome with
    | ok accepted => exact finishRound_apply ctl.print stage'
    | error e => rfl

/-- Everything that a round may do to a chain, where a restart comes after so many steps without
improvement. -/
inductive Passes (patience : ℕ) (c : Chain K D) : Event → Chain K D → Prop
  | stepped (hdue : overdue patience c.trackImprovement = false) (accepted : Bool)
      (candidate : Sample K) : Passes patience c (.step (.ok accepted))
        { c.trackImprovement.countProposal.decide accepted candidate with samples := c.samples + 1 }
  | stepFailed (hdue : overdue patience c.trackImprovement = false) (e : SampleError) :
      Passes patience c (.step (.error e)) c.trackImprovement.countProposal
  | restarted (hdue : overdue patience c.trackImprovement = true) (fresh : Sample K) :
      Passes patience c (.restart (.ok ()))
        { c.trackImprovement with
          current := fresh, best := fresh.score.posterior, stepsSinceImprovement := 0
          samples := c.samples + 1 }
  | kept (hdue : overdue patience c.trackImprovement = true) (e : SampleError)
      (hrecoverable : e.isRecoverable = true) : Passes patience c (.restart (.error e))
        { c.trackImprovement with stepsSinceImprovement := 0, samples := c.samples + 1 }
  | brokeOff (hdue : overdue patience c.trackImprovement = true) (e : SampleError)
      (hrecoverable : e.isRecoverable = false) :
      Passes patience c (.restart (.error e)) c.trackImprovement

theorem samples_trackImprovement (c : Chain K D) : c.trackImprovement.samples = c.samples := by
  unfold trackImprovement
  split <;> rfl

theorem subject_countSample (print : ℕ) (stage : Stage K (Chain K D)) :
    (countSample print stage).subject =
      { stage.subject with samples := stage.subject.samples + 1 } := rfl

theorem decisions_countSample (print : ℕ) (stage : Stage K (Chain K D)) :
    (countSample print stage).decisions = stage.decisions := by
  unfold countSample Stage.decisions
  dsimp only
  split <;> rfl

omit [Scalar K] in
theorem samples_decide (c : Chain K D) (accepted : Bool) (candidate : Sample K) :
    (c.decide accepted candidate).samples = c.samples := by
  cases accepted <;> rfl

/-- A round does to the chain what it tells, and a decision that it tells of is recorded. -/
theorem passes_of_yields_round {ctl : Control} {stage stage' : Stage K (Chain K D)} {event : Event}
    (h : Rand.Yields (round ctl stage) (event, stage')) :
    Passes ctl.restart stage.subject event stage'.subject ∧
      stage'.decisions = event.decision?.toList ++ stage.decisions := by
  have hsamples := samples_trackImprovement stage.subject
  unfold round at h
  dsimp only at h
  split at h
  · next hdue =>
    obtain ⟨⟨outcome, tried⟩, hrestart, heq⟩ := (Rand.yields_bind ..).mp h
    -- a restart that fails leaves the chain where it is, and ends the run unless it is recoverable
    obtain ⟨hdecisions, ⟨e, rfl, hsubject⟩ | ⟨fresh, rfl, hsubject⟩⟩ := of_yields_restart hrestart
    · cases hrecoverable : e.isRecoverable with
      | true =>
        rw [Rand.yields_done] at heq
        dsimp only at heq
        rw [hrecoverable, if_pos rfl] at heq
        cases heq
        refine ⟨?_, (decisions_countSample ..).trans hdecisions⟩
        rw [subject_countSample, keepCurrent, hsubject, hsamples]
        exact .kept hdue e hrecoverable
      | false =>
        rw [Rand.yields_done] at heq
        dsimp only at heq
        rw [hrecoverable, if_neg Bool.false_ne_true] at heq
        cases heq
        rw [hsubject]
        exact ⟨.brokeOff hdue e hrecoverable, hdecisions⟩
    · cases heq
      refine ⟨?_, (decisions_countSample ..).trans hdecisions⟩
      rw [subject_countSample, hsubject, hsamples]
      exact .restarted hdue fresh
  · next hdue =>
    have hdue : overdue ctl.restart stage.subject.trackImprovement = false := Bool.eq_false_iff.mpr hdue
    obtain ⟨⟨outcome, tried⟩, hstep, heq⟩ := (Rand.yields_bind ..).mp h
    rcases of_yields_step hstep with ⟨e, rfl, hsubject, hdecisions⟩ |
      ⟨accepted, candidate, rfl, hsubject, hdecisions⟩
    · cases heq
      rw [hsubject]
      exact ⟨.stepFailed hdue e, hdecisions⟩
    · cases heq
      refine ⟨?_, (decisions_countSample ..).trans hdecisions⟩
      rw [subject_countSample, hsubject, samples_decide]
      exact hsamples ▸ .stepped hdue accepted candidate

/-- A round that is no restart is a step, and a sample unless the step fails. -/
theorem round_eq_step (ctl : Control) (stage : Stage K (Chain K D))
    (hdue : overdue ctl.restart stage.subject.trackImprovement = false) :
    round ctl stage = ((step : Walk K (Chain K D) Bool)
      { stage with subject := stage.subject.trackImprovement }).bind fun (outcome, tried) =>
        .done (.step outcome,
          match outcome with
          | .ok _ => countSample ctl.print tried
          | .error _ => tried) := by
  unfold round
  dsimp only
  rw [if_neg (by rw [hdue]; exact Bool.false_ne_true)]

/-- A round that is no restart may go to any tree that is proposed and has a score. -/
theorem exists_round_of_scored (ctl : Control) (stage : Stage K (Chain K D)) {t : Tree K} {fb : K}
    {s' : NameSupply} {score : Score K} {tally : Tally}
    (hdue : overdue ctl.restart stage.subject.trackImprovement = false)
    (hmoved : (stage.subject.problem.proposer.proposeOnce stage.subject.problem.grammar
      stage.subject.current.tree).Yields stage.names (.ok (.moved t fb)) s')
    (hscore : (stage.subject.trackImprovement.countProposal.scoreOf t : Walk K (Chain K D) (Score K))
      { stage with subject := stage.subject.trackImprovement.countProposal, names := s' } =
        .done (.ok score, { stage with
          subject := stage.subject.trackImprovement.countProposal, names := s', tally })) :
    ∃ stage', Rand.Yields (round ctl stage) (.step (.ok true), stage') ∧
      stage'.subject = { stage.subject.trackImprovement.countProposal.decide true ⟨t, score⟩ with
        samples := stage.subject.samples + 1 } := by
  obtain ⟨hproblem, hcurrent⟩ := trackImprovement_eq stage.subject
  obtain ⟨stepped, hstep, hsubject⟩ := exists_step_of_scored
    { stage with subject := stage.subject.trackImprovement } (by rwa [hproblem, hcurrent]) hscore
  refine ⟨countSample ctl.print stepped, ?_, ?_⟩
  · rw [round_eq_step ctl stage hdue, Rand.yields_bind]
    exact ⟨_, hstep, rfl⟩
  · rw [subject_countSample, hsubject, ← samples_trackImprovement stage.subject]
    rfl

end Chain

end ScopedGrammar
