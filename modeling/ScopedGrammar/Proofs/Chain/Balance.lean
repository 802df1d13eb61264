import ScopedGrammar.Proofs.Chain.Acceptance
import ScopedGrammar.Proofs.Chain.Closure
import ScopedGrammar.Proofs.Move.Accuracy
import ScopedGrammar.Proofs.Move.Renamed

/-!
# Detailed balance

Weighted by the exponentials of their tempered log-posteriors, two trees exchange as much in a step
of a chain as in the other direction. The log-ratio of a proposal is that of its exact probabilities
there and back, and it does not depend on the names that the proposed tree happens to have. So what
a step moves is what is proposed in one direction, cut down to what is proposed in the other. A
proposal that fails moves nothing.
-/
namespace ScopedGrammar

open Exact

namespace Walk

variable {σ α β : Type} {stage : Stage Exact σ} {E : σ → Prop}

/-- The probability that a walk leaves a subject of some property behind. -/
noncomputable def probAfter (x : Walk Exact σ α) (stage : Stage Exact σ) (E : σ → Prop) : ℝ :=
  Rand.prob (x stage) fun out => E out.2.subject

theorem probAfter_eq_zero {x : Walk Exact σ α} {Q : α → Stage Exact σ → Prop}
    (h : x.Ensures (fun a _ => ¬ E a) stage Q) : x.probAfter stage E = 0 := by
  classical
  rw [probAfter, Rand.prob, Rand.mean_congr fun out hout => if_neg (h out.1 out.2 hout).1]
  exact (x stage).mean_zero

theorem probAfter_ofSampler_bind {x : Sampler Exact α} {f : α → Walk Exact σ β}
    (hstay : ¬ E stage.subject) : (ofSampler x >>= f : Walk Exact σ β).probAfter stage E =
      x.mean stage.names fun a s' => (f a).probAfter { stage with names := s' } E := by
  rw [probAfter, ofSampler_bind_apply, Rand.prob, Rand.mean_bind]
  refine congrArg (Rand.mean (x stage.names)) (funext fun out => ?_)
  obtain ⟨r, s'⟩ := out
  cases r with
  | ok a => rfl
  | error e => exact if_neg hstay

end Walk

namespace Tree

variable {K : Type} {s t u : Tree K}

theorem alike_comm (s t : Tree K) : s.alike t = t.alike s := by
  rw [alike, alike, Bool.eq_iff_iff, beq_iff_eq, beq_iff_eq, eq_comm]

theorem alike_congr (h : s.alike t = true) : s.alike u = t.alike u := by
  rw [alike, beq_iff_eq] at h
  rw [alike, alike, h]

end Tree

namespace Chain

variable {D : Type} {P : Problem Exact D} {T : Temperatures Exact} {x y : Tree Exact}
  {c : Chain Exact D} {stage : Stage Exact (Chain Exact D)} {names : NameSupply}

/-- The chain stands on a tree that is alike to the given one. -/
def At (y : Tree Exact) (c : Chain Exact D) : Prop := c.current.tree.alike y = true

/-- A candidate is accepted with the probability of its log-ratio. -/
theorem probAfter_settle {candidate : Sample Exact} (fb : Exact) (hfrom : ¬ At y stage.subject)
    (hto : candidate.tree.alike y = true) : (c.settle candidate fb).probAfter stage (At y) =
      acceptChance (acceptanceLogRatio (c.current.score.atTemperatures c.temperatures)
        (candidate.score.atTemperatures c.temperatures) fb c.temperatures.acceptance) := by
  -- something pathological is recorded first, but one draw decides in any case
  have hend : ∀ (r : Exact) (stage' : Stage Exact (Chain Exact D)),
      stage'.subject = stage.subject →
      Walk.probAfter (do
        let below ← Walk.ofRand (fractionBelow (Scalar.exp r))
        Walk.record (.decided (acceptedBy r below) candidate)
        Walk.update (decide (acceptedBy r below) candidate)
        pure (acceptedBy r below) : Walk Exact (Chain Exact D) Bool) stage' (At y) =
          acceptChance r := by
    intro r stage' hsubject
    have hrun : (do
        let below ← Walk.ofRand (fractionBelow (Scalar.exp r))
        Walk.record (.decided (acceptedBy r below) candidate)
        Walk.update (decide (acceptedBy r below) candidate)
        pure (acceptedBy r below) : Walk Exact (Chain Exact D) Bool) stage' =
          .chance .fraction (Scalar.exp r) fun below => .done (.ok (acceptedBy r below),
            ⟨stage'.subject.decide (acceptedBy r below) candidate, stage'.names, stage'.tally,
              .decided (acceptedBy r below) candidate :: stage'.records⟩) := rfl
    have haccept : At y (stage.subject.decide true candidate) := hto
    have hreject : ¬ At y (stage.subject.decide false candidate) := hfrom
    rw [Walk.probAfter, hrun, Rand.prob, Rand.mean, Rand.mean_done, Rand.mean_done]
    dsimp only
    rw [hsubject, acceptedBy, acceptedBy, Bool.or_true, Bool.or_false, if_pos haccept]
    cases hle : Scalar.le 0 r with
    | true =>
      rw [if_pos haccept]
      rw [acceptChance_of_le hle]
      ring
    | false =>
      rw [if_neg hreject, mul_one, mul_zero, add_zero]
      rfl
  unfold settle
  dsimp only
  split
  · exact hend _ _ rfl
  · exact hend _ stage rfl

theorem probAfter_judge_eq_zero {attempt : Attempt Exact} (hfrom : ¬ At y stage.subject)
    (hother : ∀ t fb, attempt = .moved t fb → ¬ t.alike y = true) :
    (c.judge attempt).probAfter stage (At y) = 0 := by
  refine Walk.probAfter_eq_zero (ensures_judge c attempt hfrom hfrom fun t fb ht score _ accepted => ?_)
  cases accepted
  · exact hfrom
  · exact hother t fb ht

/-- What a proposed tree is judged by, if it is not alike to the current one. -/
theorem probAfter_judge {t : Tree Exact} {score : Score Exact} (fb : Exact)
    (hlasting : c.problem.model.allowance = none)
    (hscore : c.problem.model.logPosterior c.problem.grammar t c.problem.data = .ok score)
    (hnew : ¬ t.alike c.current.tree = true) (hfrom : ¬ At y stage.subject)
    (hto : t.alike y = true) : (c.judge (.moved t fb)).probAfter stage (At y) =
      acceptChance (acceptanceLogRatio (c.current.score.atTemperatures c.temperatures)
        (score.atTemperatures c.temperatures) fb c.temperatures.acceptance) := by
  have hassess : (c.judge (.moved t fb) : Walk Exact (Chain Exact D) Bool) stage =
      (c.settle ⟨t, score⟩ fb) { stage with
        tally := (c.problem.model.assess c.problem.grammar t c.problem.data stage.tally).2 } := by
    rw [judge, scoreOf, if_neg hnew, Walk.bind_apply, Walk.assess_apply, Rand.done_bind,
      Model.assess_fst _ hlasting, hscore]
    rfl
  rw [Walk.probAfter, hassess]
  exact probAfter_settle fb hfrom hto

/-- The scores of the trees of a problem can be compared: they are numbers or impossible, and trees
that are alike have the same. -/
structure Consistent (P : Problem Exact D) (T : Temperatures Exact) : Prop where
  lasting : P.model.allowance = none
  scored : ∀ names x, P.grammar.Generable names [] x →
    ∃ score, P.model.logPosterior P.grammar x P.data = .ok score ∧
      Comparable (score.atTemperatures T)
  alike : ∀ names names' x y a b, P.grammar.Generable names [] x → P.grammar.Generable names' [] y →
    x.alike y = true → P.model.logPosterior P.grammar x P.data = .ok a →
      P.model.logPosterior P.grammar y P.data = .ok b → a.atTemperatures T = b.atTemperatures T

theorem Consistent.comparable (h : Consistent P T) (hx : P.grammar.Generable names [] x)
    {a : Score Exact} (ha : P.model.logPosterior P.grammar x P.data = .ok a) :
    Comparable (a.atTemperatures T) := by
  obtain ⟨a', ha', hcomparable⟩ := h.scored names x hx
  obtain rfl : a' = a := Except.ok.inj (ha'.symm.trans ha)
  exact hcomparable

/-- A chain works on a problem at some temperatures and stands on a tree, whose score it knows. -/
structure StandsOn (P : Problem Exact D) (T : Temperatures Exact) (x : Tree Exact)
    (stage : Stage Exact (Chain Exact D)) : Prop where
  problem_eq : stage.subject.problem = P
  temperatures_eq : stage.subject.temperatures = T
  tree_eq : stage.subject.current.tree = x
  score_eq : P.model.logPosterior P.grammar x P.data = .ok stage.subject.current.score
  generable : P.grammar.Generable stage.names [] x

/-- The log-ratio of a tree that is alike to another one is that of the exact probabilities to go to
the other one and back. -/
theorem forwardBackward_of_alike {g : Grammar Exact} {p : Proposer Exact} (hsound : p.Sound g)
    {s s' : NameSupply} {t : Tree Exact} (hx : g.Generable s [] x) (hy : g.Generable names [] y)
    (hxdepth : x.depth ≤ g.maxDepth) (hydepth : y.depth ≤ g.maxDepth) (ht : g.Derivable s' t)
    (halike : t.alike y = true) : p.forwardBackward g x t =
      .ok (logOf ((p.proposeTree g x).prob s fun t => t.Variant y) -
        logOf ((p.proposeTree g y).prob names fun t => t.Variant x)) := by
  have hx' := hx.derivable hsound.plain
  have hy' := hy.derivable hsound.plain
  obtain ⟨ht', hvar⟩ := hy.of_alike hsound.proper.distinct hsound.plain ht halike
  have htdepth : t.depth ≤ g.maxDepth := (Tree.VariantOver.depth_eq hvar).trans_le hydepth
  obtain ⟨lp, hlp, hrates⟩ := hsound.rates hx' ht
  obtain ⟨lp', hlp', hrates'⟩ := hsound.rates hy' hx'
  -- What comes to a variant of the proposed tree comes to one of the tree that it is alike to.
  have hsame : (p.proposeTree g x).prob s (fun z => z.Variant t) =
      (p.proposeTree g x).prob s fun z => z.Variant y :=
    Sampler.prob_congr fun z _ _ => ⟨fun h => h.trans hvar, fun h => h.trans hvar.symm⟩
  have hback : p.logProbability g t x = p.logProbability g y x :=
    Kernel.logProbability_congr hsound.proper.distinct hsound.plain ⟨ht, hy', hvar⟩ p.sites p.kernel
  rw [Proposer.forwardBackward_eq hlp (hback.trans hlp'), hrates.eq_logOf (hx.reaches ht' htdepth),
    hrates'.eq_logOf (hy.reaches hx hxdepth), hsame]

/-- A step comes to a tree if it is proposed and accepted. -/
theorem probAfter_step (hsound : P.proposer.Sound P.grammar) (hP : Consistent P T)
    (hx : StandsOn P T x stage) (hy : P.grammar.Generable names [] y)
    (hxdepth : x.depth ≤ P.grammar.maxDepth) (hydepth : y.depth ≤ P.grammar.maxDepth)
    (hne : ¬ x.alike y = true) {b : Score Exact}
    (hb : P.model.logPosterior P.grammar y P.data = .ok b) :
    (step : Walk Exact (Chain Exact D) Bool).probAfter stage (At y) =
      (P.proposer.proposeTree P.grammar x).prob stage.names (fun t => t.Variant y) *
        acceptChance (acceptanceLogRatio (stage.subject.current.score.atTemperatures T)
          (b.atTemperatures T)
          (logOf ((P.proposer.proposeTree P.grammar x).prob stage.names fun t => t.Variant y) -
            logOf ((P.proposer.proposeTree P.grammar y).prob names fun t => t.Variant x))
          T.acceptance) := by
  classical
  obtain ⟨rfl, rfl, rfl, -, hgen⟩ := hx
  have hx' := hgen.derivable hsound.plain
  have hy' := hy.derivable hsound.plain
  have hkeeps : stage.subject.problem.grammar.Keeps stage.names stage.subject.current.tree
      (stage.subject.problem.proposer.proposeTree stage.subject.problem.grammar
        stage.subject.current.tree) :=
    Kernel.keeps_propose hsound.kernel hsound.proper hsound.plain hsound.sites hx'
  have hstay : ¬ At y stage.subject.countProposal := hne
  have hfailed : ∀ (e : SampleError) (s' : NameSupply),
      (stage.subject.countProposal.judge (.failed e)).probAfter
        { stage with subject := stage.subject.countProposal, names := s' } (At y) = 0 :=
    fun e s' => probAfter_judge_eq_zero hstay (by rintro t fb ⟨⟩)
  rw [Walk.probAfter, step_apply, ← Walk.probAfter, Walk.probAfter_ofSampler_bind hstay,
    Proposer.mean_proposeOnce hfailed,
    ← hkeeps.prob_alike hsound.proper.distinct hsound.plain hy', ← Sampler.mean_ite_const]
  refine Sampler.mean_congr fun t s' ht => ?_
  obtain ⟨-, hderivable, -⟩ := hkeeps.of_ok ht
  by_cases halike : t.alike y = true
  · obtain ⟨htgen, -⟩ := hy.of_alike hsound.proper.distinct hsound.plain hderivable halike
    obtain ⟨a, ha, -⟩ := hP.scored s' t htgen
    have hnew : ¬ t.alike stage.subject.current.tree = true := by
      rwa [Tree.alike_congr halike, Tree.alike_comm]
    rw [if_pos halike, forwardBackward_of_alike hsound hgen hy hxdepth hydepth hderivable halike,
      hkeeps.prob_alike hsound.proper.distinct hsound.plain hy',
      ← hP.alike s' names t y a b htgen hy halike ha hb]
    exact probAfter_judge _ hP.lasting ha hnew hstay halike
  · rw [if_neg halike]
    split
    · exact probAfter_judge_eq_zero hstay fun t' fb' h => by cases h; exact halike
    · rfl

/-- Two trees that are not alike exchange as much in a step of a chain as in the other direction:
the tempered posterior of the one times the probability to step to the other is the same for both. A
step on which no tree is proposed stays where it is. -/
theorem detailed_balance (P : Problem Exact D) (T : Temperatures Exact)
    (hdist : P.grammar.DistinctSignatures) (hplain : P.grammar.PlainNames)
    (hpos : P.grammar.PositiveWeights) (hkernel : P.proposer.kernel.WellWeighted)
    (hsites : P.proposer.sites.Nonneg) (hP : Consistent P T) (hT : T.acceptance = 1)
    {here there : Stage Exact (Chain Exact D)} (hx : StandsOn P T x here)
    (hy : StandsOn P T y there) (hxdepth : x.depth ≤ P.grammar.maxDepth)
    (hydepth : y.depth ≤ P.grammar.maxDepth) (hne : ¬ x.alike y = true) :
    (here.subject.current.score.atTemperatures T).mass *
        Rand.prob (step here) (fun out => out.2.subject.current.tree.alike y = true) =
      (there.subject.current.score.atTemperatures T).mass *
        Rand.prob (step there) (fun out => out.2.subject.current.tree.alike x = true) := by
  have hsound : P.proposer.Sound P.grammar :=
    ⟨⟨hdist, hplain.noReservedNames, hpos⟩, hplain, hkernel, hsites⟩
  have hne' : ¬ y.alike x = true := by rwa [Tree.alike_comm]
  have hxcomparable := hP.comparable hx.generable hx.score_eq
  have hycomparable := hP.comparable hy.generable hy.score_eq
  have hforth := probAfter_step hsound hP hx hy.generable hxdepth hydepth hne hy.score_eq
  have hback := probAfter_step hsound hP hy hx.generable hydepth hxdepth hne' hx.score_eq
  rw [hT] at hforth hback
  have hp := Sampler.prob_nonneg (P.proposer.proposeTree P.grammar x) here.names fun t => t.Variant y
  have hq := Sampler.prob_nonneg (P.proposer.proposeTree P.grammar y) there.names fun t => t.Variant x
  calc (here.subject.current.score.atTemperatures T).mass * Walk.probAfter step here (At y)
      = min ((here.subject.current.score.atTemperatures T).mass *
            (P.proposer.proposeTree P.grammar x).prob here.names fun t => t.Variant y)
          ((there.subject.current.score.atTemperatures T).mass *
            (P.proposer.proposeTree P.grammar y).prob there.names fun t => t.Variant x) := by
        rw [hforth]
        exact flow_eq_min hxcomparable hycomparable hp hq
    _ = (there.subject.current.score.atTemperatures T).mass * Walk.probAfter step there (At x) := by
        rw [hback, min_comm]
        exact (flow_eq_min hycomparable hxcomparable hq hp).symm

section Terms

/-- A problem about terms whose likelihood falls with the number of nodes. -/
noncomputable def countingTerms : Problem Exact ℕ :=
  ⟨Grammar.terms, ⟨fun _ _ => .ok 0, fun t n => -Scalar.ofNat (n * t.countNodes), none⟩, [2],
    ⟨.mixture [(Scalar.ofNat 1, .regeneration), (Scalar.ofNat 2, .copy)], .leaves (Scalar.ofNat 3), 5⟩⟩

theorem logPosterior_countingTerms (t : Tree Exact) :
    let score := countingTerms.model.scoreWithPrior t [2] 0
    countingTerms.model.logPosterior countingTerms.grammar t countingTerms.data = .ok score ∧
      score.atTemperatures .unit = -Scalar.ofNat (2 * t.countNodes) := by
  refine ⟨rfl, ?_⟩
  simp [Model.scoreWithPrior, zero_eq, Score.atTemperatures, Model.logLikelihood,
    Model.countedLikelihood, countingTerms, sumAbove, Temperatures.unit, one_eq, real_div]

theorem consistent_countingTerms : Consistent countingTerms .unit := by
  refine ⟨rfl, fun names x _ => ?_, fun names names' x y a b hx hy halike ha hb => ?_⟩
  · obtain ⟨hscore, hvalue⟩ := logPosterior_countingTerms x
    exact ⟨_, hscore, .inl ⟨_, hvalue⟩⟩
  · obtain ⟨hscore, hvalue⟩ := logPosterior_countingTerms x
    obtain ⟨hscore', hvalue'⟩ := logPosterior_countingTerms y
    obtain rfl := Except.ok.inj (hscore.symm.trans ha)
    obtain rfl := Except.ok.inj (hscore'.symm.trans hb)
    have hvar : x.Variant y := (Tree.alike_iff Grammar.distinctSignatures_terms
      Grammar.plainNames_terms (hx.derivable Grammar.plainNames_terms)
        (hy.derivable Grammar.plainNames_terms)).mp halike
    rw [hvalue, hvalue', Tree.VariantOver.countNodes_eq hvar]

/-- A chain of that problem that stands on a tree. -/
noncomputable def countingStage (names : NameSupply) (x : Tree Exact) :
    Stage Exact (Chain Exact ℕ) :=
  ⟨⟨countingTerms, ⟨x, countingTerms.model.scoreWithPrior x [2] 0⟩, .unit, negInf, 0, 0, 0, 0,
    .empty historySize⟩, names, ⟨1, 1⟩, []⟩

theorem standsOn_countingStage {names : NameSupply} {x : Tree Exact}
    (hx : Grammar.terms.Generable names [] x) :
    StandsOn countingTerms .unit x (countingStage names x) :=
  ⟨rfl, rfl, rfl, (logPosterior_countingTerms x).1, hx⟩

/-- The constant and the function that returns its argument are in balance. -/
theorem detailed_balance_terms :
    let P := countingTerms
    let x : Tree Exact := Grammar.constantTerm
    let y : Tree Exact := Grammar.identityTerm
    P.grammar.DistinctSignatures ∧ P.grammar.PlainNames ∧ P.grammar.PositiveWeights ∧
      P.proposer.kernel.WellWeighted ∧ P.proposer.sites.Nonneg ∧ Consistent P .unit ∧
      (Temperatures.unit : Temperatures Exact).acceptance = 1 ∧
      StandsOn P .unit x (countingStage ⟨0⟩ x) ∧ StandsOn P .unit y (countingStage ⟨1⟩ y) ∧
      x.depth ≤ P.grammar.maxDepth ∧ y.depth ≤ P.grammar.maxDepth ∧ ¬ x.alike y = true ∧
      ((countingStage ⟨0⟩ x).subject.current.score.atTemperatures .unit).mass *
          Rand.prob (step (countingStage ⟨0⟩ x))
            (fun out => out.2.subject.current.tree.alike y = true) =
        ((countingStage ⟨1⟩ y).subject.current.score.atTemperatures .unit).mass *
          Rand.prob (step (countingStage ⟨1⟩ y))
            (fun out => out.2.subject.current.tree.alike x = true) := by
  intro P x y
  have hkernel : P.proposer.kernel.WellWeighted := by
    refine .mixture ?_ (by norm_num) ?_
    · rintro c (_ | ⟨_, _ | ⟨_, ⟨⟩⟩⟩)
      · exact ⟨_, Nat.cast_nonneg 1, rfl⟩
      · exact ⟨_, Nat.cast_nonneg 2, rfl⟩
    · rintro c (_ | ⟨_, _ | ⟨_, ⟨⟩⟩⟩)
      · exact .regeneration
      · exact .copy
  have hsites : P.proposer.sites.Nonneg := ⟨_, Nat.cast_nonneg 3, rfl⟩
  have hxgen : Grammar.terms.Generable ⟨0⟩ [] x :=
    ⟨Grammar.derived_constantTerm _, .node (by simp [x, Grammar.constantTerm])
      (by simp [x, Grammar.constantTerm])⟩
  have hygen : Grammar.terms.Generable ⟨1⟩ [] y :=
    ⟨Grammar.derived_identityTerm, Grammar.complete_identityTerm⟩
  have hxdepth : x.depth ≤ P.grammar.maxDepth := by
    simp [x, Grammar.constantTerm, Tree.depth]
  have hydepth : y.depth ≤ P.grammar.maxDepth := by
    simp [y, P, countingTerms, Grammar.identityTerm, Tree.depth, Tree.heightArgs, Grammar.terms]
  have hne : ¬ x.alike y = true := by
    intro halike
    have hvar : x.Variant y := (Tree.alike_iff Grammar.distinctSignatures_terms
      Grammar.plainNames_terms (hxgen.derivable Grammar.plainNames_terms)
        (hygen.derivable Grammar.plainNames_terms)).mp halike
    exact (Tree.VariantOver.head hvar).kind
  exact ⟨Grammar.distinctSignatures_terms, Grammar.plainNames_terms, Grammar.positiveWeights_terms,
    hkernel, hsites, consistent_countingTerms, rfl, standsOn_countingStage hxgen,
    standsOn_countingStage hygen, hxdepth, hydepth, hne,
    detailed_balance P .unit Grammar.distinctSignatures_terms Grammar.plainNames_terms
      Grammar.positiveWeights_terms hkernel hsites consistent_countingTerms rfl
      (standsOn_countingStage hxgen) (standsOn_countingStage hygen) hxdepth hydepth hne⟩

end Terms

end Chain

end ScopedGrammar
