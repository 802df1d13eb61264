import ScopedGrammar.Proofs.Chain.Calls
import ScopedGrammar.Proofs.Chain.Stuck
import ScopedGrammar.Proofs.Random.Possible

/-!
# Steps that stay defined

A chain moves by its tempered log-posterior, which may be undefined or impossible. A step never
makes this worse: no candidate is accepted whose log-posterior is undefined, or that could not be
reversed, and an impossible one is accepted only where the chain is impossible already. So what is
defined stays defined and what is possible stays possible, for any number of steps and whatever they
come to.
-/
namespace ScopedGrammar

open Exact

/-- A move between states with the given log-posteriors may be accepted. -/
structure Acceptable (here there forwardBackward : Exact) : Prop where
  defined : there ≠ nan
  reversible : forwardBackward ≠ inf
  possible : there = negInf → here = negInf

theorem acceptanceLogRatio_of_not_acceptable {here there fb : Exact}
    (h : ¬ Acceptable here there fb) (temperature : Exact) :
    acceptanceLogRatio here there fb temperature = negInf := by
  unfold acceptanceLogRatio
  by_cases hdefined : there = nan
  · simp [hdefined]
  by_cases hreversible : fb = inf
  · simp [hreversible]
  by_cases hthere : there = negInf
  · have hhere : here ≠ negInf := fun hhere => h ⟨hdefined, hreversible, fun _ => hhere⟩
    simp [hreversible, hthere, hhere]
  · exact absurd ⟨hdefined, hreversible, fun hthere' => absurd hthere' hthere⟩ h

/-- No draw falls below the exponential of the impossible, so only an acceptable move is accepted.
-/
theorem acceptable_of_accepted {here there fb temperature : Exact} {below : Bool}
    (hdraw : (fractionBelow (Scalar.exp (acceptanceLogRatio here there fb temperature)) :
      Rand Exact Bool).Possible below)
    (haccepted : acceptedBy (acceptanceLogRatio here there fb temperature) below = true) :
    Acceptable here there fb := by
  by_contra hnot
  rw [acceptanceLogRatio_of_not_acceptable hnot] at hdraw haccepted
  have hnever : Rand.chanceBelow (Scalar.exp negInf) = 0 := acceptChance_negInf
  have hbelow : below = false := by
    rw [fractionBelow, Rand.Possible, Rand.prob_chance_pos, hnever] at hdraw
    simpa using hdraw
  rw [hbelow, acceptedBy, Bool.or_false, zero_eq, le_negInf] at haccepted
  cases haccepted

namespace Walk

variable {σ α β : Type} {stage stage' : Stage Exact σ}

/-- A walk in two parts fails in the first, or goes on from a possible result. -/
theorem possible_bind {x : Walk Exact σ α} {f : α → Walk Exact σ β} {r : Except SampleError β} :
    Rand.Possible ((x >>= f) stage) (r, stage') ↔
      (∃ e, r = .error e ∧ Rand.Possible (x stage) (.error e, stage')) ∨
        ∃ a between, Rand.Possible (x stage) (.ok a, between) ∧
          Rand.Possible (f a between) (r, stage') := by
  rw [bind_apply, Rand.possible_bind]
  constructor
  · rintro ⟨⟨e | a, between⟩, hx, hrest⟩
    · cases Rand.possible_done.mp hrest
      exact .inl ⟨e, rfl, hx⟩
    · exact .inr ⟨a, between, hx, hrest⟩
  · rintro (⟨e, rfl, hx⟩ | ⟨a, between, hx, hrest⟩)
    · exact ⟨_, hx, Rand.possible_done.mpr rfl⟩
    · exact ⟨_, hx, hrest⟩

theorem of_possible_ofRand {x : Rand Exact α} {r : Except SampleError α}
    (h : Rand.Possible ((ofRand x : Walk Exact σ α) stage) (r, stage')) :
    ∃ a, x.Possible a ∧ r = .ok a ∧ stage' = stage := by
  obtain ⟨a, hx, hrest⟩ := Rand.possible_bind.mp h
  cases Rand.possible_done.mp hrest
  exact ⟨a, hx, rfl, rfl⟩

end Walk

namespace Chain

/-- The log-posterior that a chain moves by. -/
def tempered {K D : Type} [Scalar K] (c : Chain K D) : K :=
  c.current.score.atTemperatures c.temperatures

variable {D : Type} {c : Chain Exact D} {stage stage' : Stage Exact (Chain Exact D)}

theorem temperatures_decide (accepted : Bool) (candidate : Sample Exact) (c : Chain Exact D) :
    (c.decide accepted candidate).temperatures = c.temperatures := by
  cases accepted <;> rfl

/-- Settling accepts only an acceptable candidate. -/
theorem of_possible_settle {candidate : Sample Exact} {fb : Exact} {r : Except SampleError Bool}
    (h : Rand.Possible ((c.settle candidate fb) stage) (r, stage')) :
    ∃ accepted, r = .ok accepted ∧ stage'.subject = stage.subject.decide accepted candidate ∧
      (accepted = true →
        Acceptable c.tempered (candidate.score.atTemperatures c.temperatures) fb) := by
  let ratio := acceptanceLogRatio c.tempered (candidate.score.atTemperatures c.temperatures) fb
    c.temperatures.acceptance
  have hend : ∀ stage₁ : Stage Exact (Chain Exact D), stage₁.subject = stage.subject →
      Rand.Possible ((do
        let below ← Walk.ofRand (fractionBelow (Scalar.exp ratio))
        Walk.record (.decided (acceptedBy ratio below) candidate)
        Walk.update (decide (acceptedBy ratio below) candidate)
        pure (acceptedBy ratio below) : Walk Exact (Chain Exact D) Bool) stage₁) (r, stage') →
      ∃ accepted, r = .ok accepted ∧ stage'.subject = stage.subject.decide accepted candidate ∧
        (accepted = true →
          Acceptable c.tempered (candidate.score.atTemperatures c.temperatures) fb) := by
    intro stage₁ hsubject h₁
    rcases Walk.possible_bind.mp h₁ with ⟨e, -, hdraw⟩ | ⟨below, between, hdraw, hrest⟩
    · obtain ⟨below, -, hok, -⟩ := Walk.of_possible_ofRand hdraw
      cases hok
    · obtain ⟨below', hbelow, heq, rfl⟩ := Walk.of_possible_ofRand hdraw
      cases heq
      cases Rand.possible_done.mp hrest
      exact ⟨_, rfl, congrArg (decide _ candidate) hsubject,
        fun haccepted => acceptable_of_accepted hbelow haccepted⟩
  unfold settle at h
  dsimp only at h
  split at h
  · exact hend { stage with records := .pathological _ _ _ :: stage.records } rfl h
  · exact hend stage rfl h

/-- A step keeps the current sample, as it does when it fails, or goes to an acceptable one. -/
theorem of_possible_step {r : Except SampleError Bool}
    (h : Rand.Possible ((step : Walk Exact (Chain Exact D) Bool) stage) (r, stage')) :
    stage'.subject.temperatures = stage.subject.temperatures ∧
      (stage'.subject.current = stage.subject.current ∨
        r = .ok true ∧ ∃ fb, Acceptable stage.subject.tempered stage'.subject.tempered fb) := by
  rw [step_apply, Walk.possible_bind] at h
  rcases h with ⟨e, rfl, hfailed⟩ | ⟨attempt, between, hattempt, hjudge⟩
  · obtain ⟨names, -, rfl⟩ := Walk.of_yields_ofSampler hfailed.yields
    exact ⟨rfl, .inl rfl⟩
  obtain ⟨names, -, rfl⟩ := Walk.of_yields_ofSampler hattempt.yields
  cases attempt with
  | failed cause =>
    cases Rand.possible_done.mp hjudge
    exact ⟨rfl, .inl rfl⟩
  | moved t fb =>
    rcases Walk.possible_bind.mp hjudge with ⟨e, rfl, hscore⟩ | ⟨score, scored, hscore, hsettle⟩
    · obtain ⟨tally, rfl⟩ := of_yields_scoreOf hscore.yields
      exact ⟨rfl, .inl rfl⟩
    · obtain ⟨tally, rfl⟩ := of_yields_scoreOf hscore.yields
      obtain ⟨accepted, rfl, hsubject, hacceptable⟩ := of_possible_settle hsettle
      have htemperatures : stage'.subject.temperatures = stage.subject.temperatures := by
        rw [hsubject, temperatures_decide]
        rfl
      refine ⟨htemperatures, ?_⟩
      cases accepted with
      | false => exact .inl (hsubject ▸ rfl)
      | true =>
        have hthere : stage'.subject.tempered = score.atTemperatures stage.subject.temperatures := by
          simp only [tempered, hsubject]
          rfl
        exact .inr ⟨rfl, fb, hthere ▸ hacceptable rfl⟩

/-- A chain is no worse off than it was: its log-posterior stays defined, and it stays possible. -/
structure NoWorse (c c' : Chain Exact D) : Prop where
  temperatures_eq : c'.temperatures = c.temperatures
  defined : c.tempered ≠ nan → c'.tempered ≠ nan
  possible : Scalar.lt negInf c.tempered = true → Scalar.lt negInf c'.tempered = true

theorem NoWorse.refl (c : Chain Exact D) : NoWorse c c := ⟨rfl, id, id⟩

theorem NoWorse.trans {c₁ c₂ c₃ : Chain Exact D} (h : NoWorse c₁ c₂) (h' : NoWorse c₂ c₃) :
    NoWorse c₁ c₃ :=
  ⟨h'.temperatures_eq.trans h.temperatures_eq, h'.defined ∘ h.defined, h'.possible ∘ h.possible⟩

theorem negInf_lt_iff (a : Exact) : Scalar.lt negInf a = true ↔ a ≠ nan ∧ a ≠ negInf := by
  cases a <;> simp [Scalar.lt, below]

theorem noWorse_of_possible_step {r : Except SampleError Bool}
    (h : Rand.Possible ((step : Walk Exact (Chain Exact D) Bool) stage) (r, stage')) :
    NoWorse stage.subject stage'.subject := by
  obtain ⟨htemperatures, hcurrent | ⟨-, fb, hacceptable⟩⟩ := of_possible_step h
  · have htempered : stage'.subject.tempered = stage.subject.tempered := by
      rw [tempered, tempered, hcurrent, htemperatures]
    exact ⟨htemperatures, by simp [htempered], by simp [htempered]⟩
  · refine ⟨htemperatures, fun _ => hacceptable.defined, fun hpossible => ?_⟩
    rw [negInf_lt_iff] at hpossible ⊢
    exact ⟨hacceptable.defined, mt hacceptable.possible hpossible.2⟩

/-- Steps leave a chain no worse off, whatever they come to. -/
theorem noWorse_of_possible_steps {n : ℕ}
    (h : Rand.Possible (Walk.callAll (List.replicate n Call.step.make) stage) ((), stage')) :
    NoWorse stage.subject stage'.subject := by
  induction n generalizing stage with
  | zero =>
    cases Rand.possible_done.mp h
    exact .refl _
  | succ n ih =>
    rw [List.replicate_succ, Walk.callAll_cons] at h
    obtain ⟨⟨r, between⟩, hcall, hrest⟩ := Rand.possible_bind.mp h
    refine .trans ?_ (ih hrest)
    rcases Walk.possible_bind.mp hcall with ⟨e, -, hstep⟩ | ⟨accepted, between', hstep, hpure⟩
    · exact noWorse_of_possible_step hstep
    · cases Rand.possible_done.mp hpure
      exact noWorse_of_possible_step hstep

/-- A step proposes, scores what is proposed, and settles. By settling, no candidate is accepted
whose tempered log-posterior is undefined, nor one that could not be gone back from. A step that
fails keeps the current sample. So through any number of steps a tempered log-posterior that is
defined stays defined, and one that is possible stays possible. -/
theorem steps_stay_defined :
    (∀ stage : Stage Exact (Chain Exact D), (step : Walk Exact (Chain Exact D) Bool) stage =
      (Walk.ofSampler (stage.subject.problem.proposer.proposeOnce stage.subject.problem.grammar
        stage.subject.current.tree) >>= fun attempt =>
          match attempt with
          | .failed cause => do
              Walk.record (.proposalFailed cause)
              Walk.update (remember false)
              pure false
          | .moved t fb => do
              let score ← stage.subject.countProposal.scoreOf t
              stage.subject.countProposal.settle ⟨t, score⟩ fb :
        Walk Exact (Chain Exact D) Bool) { stage with subject := stage.subject.countProposal }) ∧
    (∀ (c : Chain Exact D) candidate fb stage r stage',
      Rand.Possible ((c.settle candidate fb) stage) (r, stage') →
        fb = inf ∨ candidate.score.atTemperatures c.temperatures = nan →
          r = .ok false ∧ stage'.subject.current = stage.subject.current) ∧
    (∀ (stage : Stage Exact (Chain Exact D)) e stage',
      Rand.Possible ((step : Walk Exact (Chain Exact D) Bool) stage) (.error e, stage') →
        stage'.subject.current = stage.subject.current) ∧
    ∀ n (stage stage' : Stage Exact (Chain Exact D)),
      Rand.Possible (Walk.callAll (List.replicate n Call.step.make) stage) ((), stage') →
        stage'.subject.temperatures = stage.subject.temperatures ∧
          (stage.subject.tempered ≠ nan → stage'.subject.tempered ≠ nan) ∧
            (Scalar.lt negInf stage.subject.tempered = true →
              Scalar.lt negInf stage'.subject.tempered = true) := by
  refine ⟨fun stage => ?_, fun c candidate fb stage r stage' h hnever => ?_,
    fun stage e stage' h => ?_, fun n stage stage' h => ?_⟩
  · rw [step_apply]
    refine congrFun (congrArg (_ >>= ·) (funext fun attempt => ?_)) _
    cases attempt <;> rfl
  · obtain ⟨accepted, rfl, hsubject, hacceptable⟩ := of_possible_settle h
    cases accepted with
    | false => exact ⟨rfl, hsubject ▸ rfl⟩
    | true =>
      obtain ⟨hdefined, hreversible, -⟩ := hacceptable rfl
      rcases hnever with hfb | hnan
      · exact absurd hfb hreversible
      · exact absurd hnan hdefined
  · obtain ⟨-, hcurrent | ⟨hok, -⟩⟩ := of_possible_step h
    · exact hcurrent
    · cases hok
  · obtain ⟨htemperatures, hdefined, hpossible⟩ := noWorse_of_possible_steps h
    exact ⟨htemperatures, hdefined, hpossible⟩

section Terms

/-- Weights that have no finite sum leave a mixture without a distribution. -/
theorem propose_infinite (g : Grammar Exact) (w : SiteWeights Exact) (t : Tree Exact)
    (kernel : Kernel Exact) (names : NameSupply) :
    Kernel.propose g w t (.mixture [(inf, kernel)]) names =
      .done (.error (.noDistribution .infiniteTotal), names) := by
  rw [Kernel.propose]
  rfl

theorem exists_step_apply_of_infinite (stage : Stage Exact (Chain Exact D)) {kernel : Kernel Exact}
    (hkernel : stage.subject.problem.proposer.kernel = .mixture [(inf, kernel)]) :
    ∃ stage', (step : Walk Exact (Chain Exact D) Bool) stage =
      .done (.error (.noDistribution .infiniteTotal), stage') := by
  refine ⟨{ stage with subject := stage.subject.countProposal }, ?_⟩
  rw [step_apply, Walk.ofSampler_bind_apply, Proposer.proposeOnce_apply, Proposer.proposeTree,
    hkernel, propose_infinite]
  rfl

/-- The function that returns its argument is walked on by regeneration for two steps; a candidate
without a way back is rejected; and a step by a mixture of infinite weight fails. -/
theorem steps_stay_defined_terms :
    let c : Chain Exact ℕ := fresh (countingTermsBy .regeneration) (countingSample Grammar.identityTerm)
    let d : Chain Exact ℕ := fresh (countingTermsBy (.mixture [(inf, .regeneration)])) c.current
    let stage : Stage Exact (Chain Exact ℕ) := ⟨c, ⟨0⟩, ⟨0, 0⟩, []⟩
    c.tempered ≠ nan ∧ Scalar.lt negInf c.tempered = true ∧
      (∃ stage' : Stage Exact (Chain Exact ℕ),
        Rand.Possible (Walk.callAll (List.replicate 2 Call.step.make) stage) ((), stage') ∧
          stage'.subject.tempered ≠ nan ∧ Scalar.lt negInf stage'.subject.tempered = true) ∧
      (∃ r stage', Rand.Possible
        ((c.settle (countingSample Grammar.constantTerm) inf) stage) (r, stage') ∧ r = .ok false ∧
          stage'.subject.current = c.current) ∧
      ∃ e stage', Rand.Possible ((step : Walk Exact (Chain Exact ℕ) Bool) ⟨d, ⟨0⟩, ⟨0, 0⟩, []⟩)
        (.error e, stage') ∧ stage'.subject.current = d.current := by
  intro c d stage
  have htempered : c.tempered = real (-(2 * Grammar.identityTerm.countNodes : ℕ)) :=
    (logPosterior_countingTerms _).2
  have hkernel : d.problem.proposer.kernel = .mixture [(inf, .regeneration)] := rfl
  -- nothing else is to be known of the two chains
  clear_value c d
  have hdefined : c.tempered ≠ nan := by simp [htempered]
  have hpossible : Scalar.lt negInf c.tempered = true := by
    rw [negInf_lt_iff]
    simp [htempered]
  obtain ⟨-, hsettle, hfails, hsteps⟩ := steps_stay_defined (D := ℕ)
  obtain ⟨⟨⟨⟩, stage'⟩, hstage'⟩ :=
    Rand.exists_possible (Walk.callAll (List.replicate 2 Call.step.make) stage)
  obtain ⟨⟨r, settled⟩, hsettled⟩ :=
    Rand.exists_possible ((c.settle (countingSample Grammar.constantTerm) inf) stage)
  obtain ⟨failed, hfailed⟩ :=
    exists_step_apply_of_infinite ⟨d, ⟨0⟩, ⟨0, 0⟩, []⟩ hkernel
  have hfailed : Rand.Possible ((step : Walk Exact (Chain Exact ℕ) Bool) ⟨d, ⟨0⟩, ⟨0, 0⟩, []⟩)
      (.error (.noDistribution .infiniteTotal), failed) := by
    rw [hfailed, Rand.possible_done]
  obtain ⟨-, hdefined', hpossible'⟩ := hsteps 2 stage stage' hstage'
  obtain ⟨hrejected, hcurrent⟩ := hsettle c _ inf stage r settled hsettled (.inl rfl)
  exact ⟨hdefined, hpossible, ⟨stage', hstage', hdefined' hdefined, hpossible' hpossible⟩,
    ⟨r, settled, hsettled, hrejected, hcurrent⟩, ⟨_, failed, hfailed, hfails _ _ _ hfailed⟩⟩

end Terms

end Chain

end ScopedGrammar
