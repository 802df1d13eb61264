import ScopedGrammar.Proofs.Chain.Calls
import ScopedGrammar.Proofs.Chain.Onward
import ScopedGrammar.Proofs.Retained.Window

/-!
# Accounts

A chain keeps accounts of its proposals. As long as no call on it fails they agree with the
decisions that are on record, whatever it is called on to do. A run of a limited number of steps
goes through as many rounds; each of them is a sample, and each that is no restart a proposal.
-/
namespace ScopedGrammar

namespace Chain

variable {K D : Type} {c c' : Chain K D} {decisions : List Bool}

/-- What the accounts of a chain come to after some decisions on proposals, the latest first. -/
structure Accounts (decisions : List Bool) (c : Chain K D) : Prop where
  proposals_eq : c.proposals = decisions.length
  acceptances_eq : c.acceptances = decisions.count true
  history_eq : c.history = .ofLatest historySize decisions

namespace Accounts

theorem congr (h : Accounts decisions c) (hproposals : c'.proposals = c.proposals)
    (hacceptances : c'.acceptances = c.acceptances) (hhistory : c'.history = c.history) :
    Accounts decisions c' :=
  ⟨hproposals.trans h.proposals_eq, hacceptances.trans h.acceptances_eq, hhistory.trans h.history_eq⟩

theorem acceptances_le (h : Accounts decisions c) : c.acceptances ≤ c.proposals := by
  rw [h.acceptances_eq, h.proposals_eq]
  exact List.count_le_length

theorem decide (h : Accounts decisions c) (accepted : Bool) (candidate : Sample K) :
    Accounts (accepted :: decisions) (c.countProposal.decide accepted candidate) := by
  have hhistory : ∀ b, c.history.add b = .ofLatest historySize (b :: decisions) := fun b => by
    rw [h.history_eq, Window.add_ofLatest (by decide)]
  cases accepted with
  | true =>
    refine ⟨congrArg (· + 1) h.proposals_eq, ?_, hhistory true⟩
    rw [List.count_cons_self, ← h.acceptances_eq]
    rfl
  | false =>
    refine ⟨congrArg (· + 1) h.proposals_eq, ?_, hhistory false⟩
    rw [List.count_cons_of_ne (by decide), ← h.acceptances_eq]
    rfl

variable [Scalar K]

theorem fresh (p : Problem K D) (sample : Sample K) : Accounts [] (Chain.fresh p sample) :=
  ⟨rfl, rfl, rfl⟩

theorem trackImprovement (h : Accounts decisions c) : Accounts decisions c.trackImprovement := by
  unfold Chain.trackImprovement
  split
  · exact h.congr rfl rfl rfl
  · exact h.congr rfl rfl rfl

theorem passes {patience : ℕ} {event : Event} (h : Accounts decisions c)
    (hpasses : Passes patience c event c') (hnone : event.failure? = none) :
    Accounts (event.decision?.toList ++ decisions) c' := by
  cases hpasses with
  | stepped hdue accepted candidate =>
    exact (h.trackImprovement.decide accepted candidate).congr rfl rfl rfl
  | stepFailed hdue e => cases hnone
  | restarted hdue fresh => exact h.trackImprovement.congr rfl rfl rfl
  | kept hdue e hrecoverable => exact h.trackImprovement.congr rfl rfl rfl
  | brokeOff hdue e hrecoverable =>
    rw [Event.failure?, hrecoverable] at hnone
    cases hnone

theorem path {rs : List (Round K D)} (hpath : Path c rs c') (h : Accounts decisions c)
    (hnone : failure? rs = none) :
    Accounts ((rs.filterMap (·.event.decision?)).reverse ++ decisions) c' := by
  induction hpath generalizing decisions with
  | nil c => exact h
  | @cons c c' r rs hpasses hrest ih =>
    have hfirst : r.event.failure? = none := failure?_eq_none_iff.mp hnone r List.mem_cons_self
    rw [failure?_of_none hfirst] at hnone
    have hlater := ih (h.passes hpasses hfirst) hnone
    cases hdecision : r.event.decision? with
    | none => simpa [hdecision] using hlater
    | some accepted => simpa [hdecision] using hlater

end Accounts

section Rounds

variable [Scalar K] {rs : List (Round K D)}

/-- Every round that does not fail is a sample. -/
theorem Path.samples_eq (h : Path c rs c') (hnone : failure? rs = none) :
    c'.samples = c.samples + rs.length := by
  induction h with
  | nil c => rfl
  | @cons c c' r rs hpasses hrest ih =>
    have hfirst : r.event.failure? = none := failure?_eq_none_iff.mp hnone r List.mem_cons_self
    rw [failure?_of_none hfirst] at hnone
    have hcount : r.chain.samples = c.samples + 1 := by
      generalize r.event = event at hpasses hfirst
      generalize r.chain = c' at hpasses
      cases hpasses with
      | stepFailed hdue e => cases hfirst
      | brokeOff hdue e hrecoverable =>
        rw [Event.failure?, hrecoverable] at hfirst
        cases hfirst
      | stepped | restarted | kept => rfl
    rw [ih hnone, hcount, List.length_cons]
    omega

theorem proposals_trackImprovement (c : Chain K D) :
    c.trackImprovement.proposals = c.proposals := by
  unfold trackImprovement
  split <;> rfl

/-- Every round is a restart or counts a proposal. -/
theorem Path.proposals_eq (h : Path c rs c') :
    c'.proposals + rs.countP (·.event.isRestart) = c.proposals + rs.length := by
  induction h with
  | nil c => rfl
  | @cons c c' r rs hpasses hrest ih =>
    have hcount : r.chain.proposals + (if r.event.isRestart then 1 else 0) = c.proposals + 1 := by
      generalize r.event = event at hpasses
      generalize r.chain = c' at hpasses
      cases hpasses with
      | stepped hdue accepted candidate =>
        cases accepted <;> exact congrArg (· + 1) (proposals_trackImprovement c)
      | stepFailed | restarted | kept | brokeOff =>
        exact congrArg (· + 1) (proposals_trackImprovement c)
    rw [List.countP_cons, List.length_cons]
    omega

end Rounds

variable [Scalar K]

/-- What may be done with a chain. -/
inductive Task (K D : Type) where
  | step
  | restart
  | drive (d : Drive)
  | setData (data : List D) (recompute : Bool)
  | setTemperatures (temperatures : Temperatures K)
  /-- Take over the sample of another chain, as in an exchange. -/
  | takeOver (sample : Sample K)

/-- Carry out a task; it fails if the call that it makes does. -/
def Task.carryOut : Task K D → Walk K (Chain K D) Unit
  | step => do let _ ← Chain.step
  | restart => Chain.restart
  | drive d => d.make
  | setData data recompute => Chain.setData data recompute
  | setTemperatures temperatures => Walk.update fun c => { c with temperatures }
  | takeOver sample => Walk.update fun c => { c with current := sample }

/-- The accounts of the chain agree with the decisions that are on record since some were. -/
def Accounted (base : List Bool) (stage : Stage K (Chain K D)) : Prop :=
  ∃ decisions, stage.decisions = decisions ++ base ∧ Accounts decisions stage.subject

section Accounted

variable {base : List Bool} {stage stage' : Stage K (Chain K D)}

omit [Scalar K] in
theorem Accounted.congr (h : Accounted base stage) (hdecisions : stage'.decisions = stage.decisions)
    (hproposals : stage'.subject.proposals = stage.subject.proposals)
    (hacceptances : stage'.subject.acceptances = stage.subject.acceptances)
    (hhistory : stage'.subject.history = stage.subject.history) : Accounted base stage' := by
  obtain ⟨decisions, hrecords, haccounts⟩ := h
  exact ⟨decisions, hdecisions.trans hrecords, haccounts.congr hproposals hacceptances hhistory⟩

theorem Accounted.rounds {ctl : Control} {n : ℕ} {rs : List (Round K D)} (h : Accounted base stage)
    (hyields : Rand.Yields (Chain.rounds ctl n stage) (rs, stage')) (hnone : failure? rs = none) :
    Accounted base stage' := by
  obtain ⟨decisions, hrecords, haccounts⟩ := h
  have hwent := went_of_yields_rounds hyields
  refine ⟨_, ?_, haccounts.path hwent.path hnone⟩
  rw [hwent.decisions_eq, hrecords, List.append_assoc]

/-- A task that does not fail keeps the accounts. -/
theorem Accounted.carryOut {task : Task K D} (h : Accounted base stage)
    (hdone : Rand.Yields (task.carryOut stage) (.ok (), stage')) : Accounted base stage' := by
  cases task with
  | step =>
    obtain ⟨decisions, hrecords, haccounts⟩ := h
    rcases Walk.yields_bind.mp hdone with ⟨e, heq, -⟩ | ⟨accepted, between, hstep, heq⟩
    · cases heq
    cases heq
    rcases of_yields_step hstep with ⟨e, heq, -⟩ | ⟨b, candidate, -, hsubject, hdecisions⟩
    · cases heq
    · refine ⟨b :: decisions, by rw [hdecisions, hrecords]; rfl, ?_⟩
      rw [hsubject]
      exact haccounts.decide b candidate
  | restart =>
    obtain ⟨hdecisions, ⟨e, heq, -⟩ | ⟨fresh, -, hsubject⟩⟩ := of_yields_restart hdone
    · cases heq
    · exact h.congr hdecisions (by rw [hsubject]) (by rw [hsubject]) (by rw [hsubject])
  | drive d =>
    obtain ⟨n, rs, hyields, hnone⟩ := Drive.exists_rounds_of_yields hdone
    exact h.rounds hyields hnone
  | setData data recompute =>
    obtain ⟨score, tally, rfl⟩ := of_yields_setData hdone
    exact h.congr rfl rfl rfl rfl
  | setTemperatures temperatures =>
    cases hdone
    exact h.congr rfl rfl rfl rfl
  | takeOver sample =>
    cases hdone
    exact h.congr rfl rfl rfl rfl

theorem Accounted.forM_carryOut {tasks : List (Task K D)} (h : Accounted base stage)
    (hdone : Rand.Yields ((tasks.forM Task.carryOut : Walk K (Chain K D) Unit) stage)
      (.ok (), stage')) : Accounted base stage' := by
  induction tasks generalizing stage with
  | nil =>
    cases hdone
    exact h
  | cons task tasks ih =>
    rcases Walk.yields_bind.mp hdone with ⟨e, heq, -⟩ | ⟨u, between, htask, hrest⟩
    · cases heq
    · exact ih (h.carryOut htask) hrest

end Accounted

/-- The acceptance rate is the share of the accepted among the latest decisions. -/
theorem Accounts.acceptanceRate_eq {D : Type} {c : Chain Exact D} (h : Accounts decisions c) :
    c.acceptanceRate = if decisions = [] then .nan else
      .real ((decisions.take historySize).count true / min historySize c.proposals) := by
  rw [acceptanceRate, h.history_eq]
  split
  · next hnone =>
    subst hnone
    rfl
  · next hsome =>
    rw [Window.rate_eq (by simpa [Window.ofLatest, historySize] using hsome), h.proposals_eq]
    simp [Window.ofLatest]

/-- A run with a limit on the steps is nothing but so many rounds, whatever larger bound its loop is
given. On a chain that no call has failed on, a run that does not fail ends after just that many.
Each of them is a sample, and each that is no restart a proposal; no more are accepted than
proposed, and the acceptance rate is the share of the accepted among the latest hundred. What it
reports, in order, are the samples of the rounds behind the burn-in whose number the period divides.
-/
theorem run_reports_due {σ D : Type} {P : Problem Exact D} {make : Walk Exact σ (Chain Exact D)}
    (hmake : make = ofPrior P ∨ ∃ t, make = ofTree P t) {start made : Stage Exact σ}
    {c : Chain Exact D} (hmade : Rand.Yields (make start) (.ok c, made))
    {tasks : List (Task Exact D)} {before : Stage Exact (Chain Exact D)}
    (htasks : Rand.Yields ((tasks.forM Task.carryOut : Walk Exact (Chain Exact D) Unit)
      ⟨c, made.names, made.tally, made.records⟩) (.ok (), before))
    {ctl : Control} (hsteps : 0 < ctl.steps) :
    (∀ bound, ctl.steps < bound → ∀ stage : Stage Exact (Chain Exact D),
      (Walk.onPart (·, ctl.start) (fun s _ => s.1) (SafeWalk.collect advance bound []) :
        SafeWalk Exact (Chain Exact D) (Report (Sample Exact))) stage = run ctl stage) ∧
    (∀ stage : Stage Exact (Chain Exact D),
      run ctl stage = (rounds ctl ctl.steps stage).bind fun (rs, after) =>
        .done (⟨due ctl 0 rs, failure? rs⟩, after)) ∧
    ∀ reported after, Rand.Yields (run ctl before) (⟨reported, none⟩, after) →
      ∃ rs, Rand.Yields (rounds ctl ctl.steps before) (rs, after) ∧ rs.length = ctl.steps ∧
        reported = ((rs.zipIdx 1).filterMap fun (r, i) =>
          if ctl.burn < i ∧ (ctl.thin ≤ 1 ∨ ctl.thin ∣ i) then some r.chain.current else none) ∧
        after.subject.samples = before.subject.samples + ctl.steps ∧
        after.subject.proposals + rs.countP (·.event.isRestart) =
          before.subject.proposals + ctl.steps ∧
        (∀ c ∈ before.subject :: rs.map (·.chain), c.acceptances ≤ c.proposals) ∧
        ∃ decisions, after.decisions = decisions ++ made.decisions ∧
          after.subject.proposals = decisions.length ∧
          after.subject.acceptances = decisions.count true ∧
          after.subject.acceptanceRate = if decisions = [] then .nan else
            .real ((decisions.take 100).count true / min 100 after.subject.proposals) := by
  refine ⟨fun bound hbound stage => ?_, run_eq_rounds hsteps, fun reported after hrun => ?_⟩
  · rw [collect_eq_rounds hsteps hbound, run_eq_rounds hsteps]
  rw [run_eq_rounds hsteps, Rand.yields_bind] at hrun
  obtain ⟨⟨rs, ended⟩, hyields, heq⟩ := hrun
  obtain ⟨hreport, rfl⟩ := Prod.mk.inj heq
  obtain ⟨hreported, hnone⟩ := Report.mk.inj hreport
  obtain ⟨sample, rfl⟩ := exists_eq_fresh hmake hmade
  have hbefore : Accounted made.decisions before :=
    Accounted.forM_carryOut ⟨[], rfl, .fresh P sample⟩ htasks
  have hwent := went_of_yields_rounds hyields
  have hlength := hwent.length_eq hnone
  obtain ⟨decisions, hrecords, haccounts⟩ := hbefore.rounds hyields hnone
  refine ⟨rs, hyields, hlength, ?_, ?_, ?_, ?_, decisions, hrecords, haccounts.proposals_eq,
    haccounts.acceptances_eq, haccounts.acceptanceRate_eq⟩
  · rw [← hreported, due_of_none hnone]
    rfl
  · rw [hwent.path.samples_eq hnone, hlength]
  · rw [hwent.path.proposals_eq, hlength]
  · obtain ⟨_, _, hstart⟩ := hbefore
    intro c hc
    rcases List.mem_cons.mp hc with rfl | hc
    · exact hstart.acceptances_le
    -- no round before failed either
    · obtain ⟨r, hr, rfl⟩ := List.mem_map.mp hc
      have hall := failure?_eq_none_iff.mp hnone
      obtain ⟨earlier, later, rfl⟩ := List.append_of_mem hr
      obtain ⟨between, hpath, hpasses⟩ := hwent.path.split
      have hearlier : failure? earlier = none :=
        failure?_eq_none_iff.mpr fun r' hr' => hall r' (List.mem_append_left _ hr')
      exact ((hstart.path hpath hearlier).passes hpasses (hall r hr)).acceptances_le

/-- A chain may step to the pair before it is tempered and set to work on other data. -/
theorem Moving.exists_carryOut {c : Chain Exact ℕ} (h : Moving c) (hsamples : c.samples = 0)
    (hacceptances : c.acceptances = 0) (names : NameSupply) (tally : Tally) : ∃ before,
      Rand.Yields (([.step, .setTemperatures ⟨1, .real 2, 1⟩, .setData [3] false].forM Task.carryOut :
        Walk Exact (Chain Exact ℕ) Unit) ⟨c, names, tally, []⟩) (.ok (), before) ∧
      Accepting 1 before.subject ∧ before.subject.samples = 0 ∧
      before.subject.current.tree = Grammar.pairTerm := by
  obtain ⟨score, stepped, hstep, hsubject⟩ := Moving.exists_step ⟨c, names, tally, []⟩ h
    Grammar.namelessTerm_pairTerm
  refine ⟨{ stepped with subject := { stepped.subject with
    temperatures := ⟨1, .real 2, 1⟩, problem := { stepped.subject.problem with data := [3] } } },
    ?_, ?_, ?_, ?_⟩
  · exact Walk.yields_bind.mpr (.inr ⟨(), stepped, Walk.yields_bind.mpr
      (.inr ⟨true, stepped, hstep, rfl⟩), rfl⟩)
  · rw [hsubject]
    refine ⟨⟨h.grammar_eq, h.model_eq, h.proposer_eq, Grammar.namelessTerm_pairTerm⟩, ?_,
      fun hpos => absurd hpos hsamples.not_gt⟩
    change c.acceptances + 1 = c.samples + 1
    rw [hacceptances, hsamples]
  · rw [hsubject]
    exact hsamples
  · rw [hsubject]
    rfl

/-- A chain steps from the constant to the pair and is set to work on other data. Then it takes three
more steps, of which the second is reported. All of them propose and are accepted, and they bring
the chain back to the constant. -/
theorem run_reports_due_terms :
    let P := countingTermsBy .regeneration
    let tasks : List (Task Exact ℕ) := [.step, .setTemperatures ⟨1, .real 2, 1⟩, .setData [3] false]
    let ctl : Control := .ofFields 3 1 2 0 0
    ∃ make c made before reported after,
      (make = ofPrior P ∨ ∃ t, make = ofTree P t) ∧
      Rand.Yields ((make : Walk Exact Unit _) ⟨(), ⟨0⟩, ⟨0, 0⟩, []⟩) (.ok c, made) ∧
      Rand.Yields ((tasks.forM Task.carryOut : Walk Exact (Chain Exact ℕ) Unit)
        ⟨c, made.names, made.tally, made.records⟩) (.ok (), before) ∧
      0 < ctl.steps ∧ Rand.Yields (run ctl before) (⟨reported, none⟩, after) ∧
      before.subject.current.tree = Grammar.pairTerm ∧
      after.subject.current.tree = Grammar.constantTerm ∧
      after.subject.samples = before.subject.samples + ctl.steps ∧
      (∃ rs, Rand.Yields (rounds ctl ctl.steps before) (rs, after) ∧
        after.subject.proposals + rs.countP (·.event.isRestart) =
          before.subject.proposals + ctl.steps) ∧
      ∃ decisions, after.decisions = decisions ++ made.decisions ∧
        after.subject.acceptances = decisions.count true ∧ after.subject.acceptances = 4 := by
  intro P tasks ctl
  have hsteps : 0 < ctl.steps := by decide
  have hthree : ctl.steps = 3 := rfl
  have hnever : ctl.restart = 0 := rfl
  -- nothing is to be evaluated any more
  clear_value ctl
  let fresh : Chain Exact ℕ := Chain.fresh P (countingSample Grammar.constantTerm)
  obtain ⟨tally, hmade⟩ : ∃ tally, Rand.Yields ((ofTree P Grammar.constantTerm : Walk Exact Unit _)
      ⟨(), ⟨0⟩, ⟨0, 0⟩, []⟩) (.ok fresh, ⟨(), ⟨0⟩, tally, []⟩) :=
    exists_ofTree_countingTermsBy .regeneration Grammar.constantTerm ⟨0⟩
  have hmoving : Moving fresh := ⟨rfl, rfl, rfl, Grammar.namelessTerm_constantTerm⟩
  have hsamples : fresh.samples = 0 := rfl
  have hacceptances : fresh.acceptances = 0 := rfl
  clear_value fresh P
  obtain ⟨before, hbefore, haccepting, hnone, hpair⟩ :=
    hmoving.exists_carryOut hsamples hacceptances ⟨0⟩ tally
  obtain ⟨rs, after, hrounds, hfailure, hafter⟩ :=
    (goesOn_accepting 1).exists_rounds ctl hnever ctl.steps before haccepting
  have hmake : ofTree P Grammar.constantTerm = (ofPrior P : Walk Exact Unit (Chain Exact ℕ)) ∨
      ∃ t, ofTree P Grammar.constantTerm = (ofTree P t : Walk Exact Unit (Chain Exact ℕ)) :=
    .inr ⟨_, rfl⟩
  obtain ⟨-, hrun, hreports⟩ := run_reports_due hmake hmade hbefore hsteps
  have hyields : Rand.Yields (run ctl before) (⟨due ctl 0 rs, none⟩, after) := by
    rw [hrun, Rand.yields_bind]
    exact ⟨_, hrounds, by rw [Rand.yields_done, hfailure]⟩
  obtain ⟨rs', hrs', -, -, hsamples', hproposals, -, decisions, hdecisions, -, haccepted, -⟩ :=
    hreports _ _ hyields
  have hfour : after.subject.acceptances = 4 := by
    rw [hafter.acceptances_eq, hsamples', hnone, hthree]
  refine ⟨_, _, _, before, _, after, hmake, hmade, hbefore, hsteps, hyields, hpair,
    hafter.tree_eq (by omega), hsamples', ⟨rs', hrs', hproposals⟩, decisions, hdecisions, haccepted,
    hfour⟩

end Chain

end ScopedGrammar
