import ScopedGrammar.Proofs.Chain.Tempering
import ScopedGrammar.Proofs.Grammar.Renamed
import ScopedGrammar.Proofs.Move.Proposal

/-!
# The score of the current tree

A chain keeps its current tree together with a score, and takes the score over to a tree that is
alike. In a grammar of plain names such a tree is a variant of the current one, and a model that
does not see the names of bound variables gives both the same score. So the score is never out of
date, through moves, restarts, whole runs, changes of the data and exchanges between tempered
chains. Where a rule is named like a variable this fails: a step may leave the score of another
tree.
-/
namespace ScopedGrammar

variable {K D : Type} [Scalar K]

/-- A model that goes by the log-probability of the grammar, by likelihoods that do not see the
names of bound variables, and never gives out. -/
structure Model.Nameless (m : Model K D) : Prop where
  prior : ∀ g t, m.logPrior g t = g.logProbability t
  term : ∀ {s t : Tree K}, s.Variant t → m.term s = m.term t
  lasting : m.allowance = none

namespace Model.Nameless

variable {m : Model K D} {g : Grammar K} {names names' : NameSupply} {s t : Tree K}

theorem of_gives (hm : m.Nameless) {data : List D} {score : Score K} (h : m.Gives g t data score) :
    m.logPosterior g t data = .ok score := by
  obtain ⟨made, hscore⟩ := h
  rwa [m.assess_fst hm.lasting] at hscore

theorem exists_logPosterior (hm : m.Nameless) (hdist : g.DistinctSignatures)
    (hres : g.NoReservedNames) (ht : g.Derived names [] t) (data : List D) :
    ∃ score, m.logPosterior g t data = .ok score := by
  obtain ⟨lp, hlp⟩ := ht.exists_logProbabilityIn hdist hres
  refine ⟨m.scoreWithPrior t data lp, ?_⟩
  rw [logPosterior, hm.prior, Grammar.logProbability, hlp]
  rfl

theorem logPosterior_eq_of_variant (hm : m.Nameless) (hdist : g.DistinctSignatures)
    (hres : g.NoReservedNames) (hs : g.Derived names [] s) (ht : g.Derived names' [] t)
    (hvar : s.Variant t) (data : List D) : m.logPosterior g s data = m.logPosterior g t data := by
  have hprior := Grammar.logProbability_eq hdist hres hs ht hvar
  have hscore : m.scoreWithPrior s data = m.scoreWithPrior t data := by
    funext prior
    simp only [scoreWithPrior, logLikelihood, countedLikelihood, hm.term hvar]
  rw [logPosterior, logPosterior, hm.prior, hm.prior, hprior, hscore]

/-- Trees of different log-probabilities have different scores. -/
theorem logProbability_eq (hm : m.Nameless) {data : List D} {score : Score K}
    (hs : m.logPosterior g s data = .ok score) (ht : m.logPosterior g t data = .ok score) :
    g.logProbability s = g.logProbability t := by
  have hprior : ∀ {u : Tree K}, m.logPosterior g u data = .ok score →
      g.logProbability u = .ok score.prior := by
    intro u hu
    rw [logPosterior, hm.prior] at hu
    cases hlp : g.logProbability u with
    | error e =>
      rw [hlp] at hu
      cases hu
    | ok lp =>
      rw [hlp] at hu
      cases hu
      unfold scoreWithPrior
      split <;> rfl
  rw [hprior hs, hprior ht]

theorem logPosterior_eq (hm : m.Nameless) (hdist : g.DistinctSignatures) (hplain : g.PlainNames)
    (hs : g.Derivable names s) (ht : g.Derivable names' t) (halike : s.alike t = true)
    (data : List D) : m.logPosterior g s data = m.logPosterior g t data :=
  hm.logPosterior_eq_of_variant hdist hplain.noReservedNames hs.toDerived ht.toDerived
    ((Tree.alike_iff hdist hplain hs ht).mp halike) data

end Model.Nameless

namespace Chain

/-- The score of the current tree is the one that the model gives it with the data of the chain. -/
def ScoreIsCurrent (c : Chain K D) : Prop :=
  c.problem.model.logPosterior c.problem.grammar c.current.tree c.problem.data = .ok c.current.score

/-- A chain works on a grammar by a model with some data, and its current tree is derivable and has
the score that the model gives it. -/
structure UpToDate (g : Grammar K) (m : Model K D) (data : List D) (c : Chain K D)
    (names : NameSupply) : Prop where
  grammar_eq : c.problem.grammar = g
  model_eq : c.problem.model = m
  data_eq : c.problem.data = data
  derivable : g.Derivable names c.current.tree
  score_eq : m.logPosterior g c.current.tree data = .ok c.current.score

/-- With new data the current tree is scored anew. -/
theorem setData_apply {c : Chain K D} {data : List D} {score : Score K}
    (hlasting : c.problem.model.allowance = none)
    (hscore : c.problem.model.logPosterior c.problem.grammar c.current.tree data = .ok score)
    (names : NameSupply) (tally : Tally) (records : List (Record K)) :
    (setData data true : Walk K (Chain K D) Unit) ⟨c, names, tally, records⟩ =
      .done (.ok (),
        ⟨{ c with problem := { c.problem with data }, current := ⟨c.current.tree, score⟩ }, names,
          (c.problem.model.assess c.problem.grammar c.current.tree data tally).2, records⟩) := by
  have hrun : (setData data true : Walk K (Chain K D) Unit) ⟨c, names, tally, records⟩ =
      (Walk.assess c.problem.model c.problem.grammar c.current.tree data >>= fun score =>
        Walk.update fun c => { c with current := ⟨c.current.tree, score⟩ } :
          Walk K (Chain K D) Unit)
        ⟨{ c with problem := { c.problem with data } }, names, tally, records⟩ := rfl
  rw [hrun, Walk.bind_apply, Walk.assess_apply, Rand.done_bind, Model.assess_fst _ hlasting, hscore]
  rfl

theorem scoreOf_apply {c : Chain K D} {t : Tree K} {score : Score K}
    (hlasting : c.problem.model.allowance = none) (halike : ¬ t.alike c.current.tree = true)
    (hscore : c.problem.model.logPosterior c.problem.grammar t c.problem.data = .ok score)
    (stage : Stage K (Chain K D)) : (c.scoreOf t : Walk K (Chain K D) (Score K)) stage =
      .done (.ok score, { stage with
        tally := (c.problem.model.assess c.problem.grammar t c.problem.data stage.tally).2 }) := by
  rw [scoreOf, if_neg halike, Walk.assess_apply, Model.assess_fst _ hlasting, hscore]
  rfl

section UpToDate

variable {g : Grammar K} {m : Model K D} {data : List D} {c : Chain K D}
  {names : NameSupply}

theorem UpToDate.scoreIsCurrent (h : UpToDate g m data c names) : c.ScoreIsCurrent := by
  rw [ScoreIsCurrent, h.grammar_eq, h.model_eq, h.data_eq]
  exact h.score_eq

variable (hdist : g.DistinctSignatures) (hplain : g.PlainNames) (hm : m.Nameless)
include hdist hplain hm

/-- Moves and restarts keep the score up to date, and samples that change places take their scores
with them. -/
theorem upToDate_invariant : Tempering.Invariant (UpToDate g m data) where
  congr h hproblem hcurrent :=
    ⟨hproblem ▸ h.grammar_eq, hproblem ▸ h.model_eq, hproblem ▸ h.data_eq, hcurrent ▸ h.derivable,
      hcurrent ▸ h.score_eq⟩
  mono h hle := { h with derivable := h.derivable.mono hle }
  exchange h h' := { h with derivable := h'.derivable, score_eq := h'.score_eq }
  move := by
    intro c s h
    rw [h.grammar_eq]
    refine (Proposer.leads_proposeOnce hplain h.derivable).imp
      fun attempt s' _ _ hmoved t fb hattempt score hscore => ?_
    have ht := (hmoved t fb hattempt).derivable
    refine { h with derivable := ht, score_eq := ?_ }
    rcases hscore with ⟨halike, rfl⟩ | hgives
    · exact (hm.logPosterior_eq hdist hplain ht h.derivable halike data).trans h.score_eq
    · rw [h.grammar_eq, h.model_eq, h.data_eq] at hgives
      exact hm.of_gives hgives
  fresh := by
    intro c s h
    rw [h.grammar_eq]
    refine (Grammar.leads_generateRetrying hplain _).imp fun t s' _ _ ht score hgives => ?_
    rw [h.model_eq, h.data_eq] at hgives
    exact { h with derivable := ht.1, score_eq := hm.of_gives hgives }

theorem UpToDate.exists_setData_apply (data' : List D) (stage : Stage K (Chain K D))
    (h : UpToDate g m data stage.subject stage.names) : ∃ stage' : Stage K (Chain K D),
      (setData data' true : Walk K (Chain K D) Unit) stage = .done (.ok (), stage') ∧
        stage'.names = stage.names ∧ UpToDate g m data' stage'.subject stage'.names := by
  obtain ⟨score, hscore⟩ := hm.exists_logPosterior hdist hplain.noReservedNames
    h.derivable.toDerived data'
  obtain ⟨c, names, tally, records⟩ := stage
  obtain ⟨rfl, rfl, -, hderivable, -⟩ := h
  exact ⟨_, setData_apply hm.lasting hscore names tally records, rfl,
    ⟨rfl, rfl, rfl, hderivable, hscore⟩⟩

end UpToDate

section Made

variable {σ : Type} {p : Problem K D} {stage : Stage K σ} {I : σ → NameSupply → Prop}

theorem ofTree_apply {t : Tree K} {score : Score K} (hlasting : p.model.allowance = none)
    (hscore : p.model.logPosterior p.grammar t p.data = .ok score) (stage : Stage K σ) :
    (ofTree p t : Walk K σ (Chain K D)) stage =
      .done (.ok ⟨p, ⟨t, score⟩, .unit, Scalar.negInf, 0, 0, 0, 0, .empty historySize⟩,
        { stage with tally := (p.model.assess p.grammar t p.data stage.tally).2 }) := by
  rw [ofTree, Walk.bind_apply, Walk.assess_apply, Rand.done_bind, Model.assess_fst _ hlasting, hscore]
  rfl

theorem ensures_ofTree {t : Tree K} (hm : p.model.Nameless)
    (ht : p.grammar.Derivable stage.names t) (hI : I stage.subject stage.names) :
    (ofTree p t : Walk K σ _).Ensures I stage
      fun c stage' => UpToDate p.grammar p.model p.data c stage'.names := by
  refine (Walk.Ensures.assess hI).bind fun score stage' hI' hscore => ?_
  obtain ⟨-, hnames, hgives⟩ := hscore
  exact .pure hI' ⟨rfl, rfl, rfl, hnames ▸ ht, hm.of_gives hgives⟩

theorem ensures_ofPrior (hplain : p.grammar.PlainNames) (hm : p.model.Nameless)
    (hI : ∀ s, stage.names.issued ≤ s.issued → I stage.subject s) :
    (ofPrior p : Walk K σ _).Ensures I stage
      fun c stage' => UpToDate p.grammar p.model p.data c stage'.names := by
  refine (Walk.Ensures.ofSampler
    ((Grammar.leads_generateRetrying hplain _).imp fun t s' _ hle ht => And.intro ht hle) hI).bind
    fun t stage' hI' ht => ?_
  exact ensures_ofTree hm ht.2.1.1 hI'

end Made

end Chain

namespace ChainGroup

open Chain

/-- Change the data of the chain at a position. -/
def renew (data : List D) (i : ℕ) : Walk K (ChainGroup K D) Unit := do
  match ← Walk.ofSafe (SafeWalk.onMember i (Walk.attempt (Chain.setData data true))) with
  | some (.error e) => throw e
  | _ => pure ()

theorem setData_eq_forM (data : List D) (stage : Stage K (ChainGroup K D)) :
    (setData data true : Walk K (ChainGroup K D) Unit) stage =
      ((List.range stage.subject.length).forM (renew data) : Walk K (ChainGroup K D) Unit) stage :=
  rfl

theorem renew_of_none {data : List D} {i : ℕ} {stage : Stage K (ChainGroup K D)}
    (hget : stage.subject[i]? = none) :
    (renew data i : Walk K (ChainGroup K D) Unit) stage = .done (.ok (), stage) := by
  have hmember : (Walk.ofSafe (SafeWalk.onMember i (Walk.attempt (Chain.setData data true))) :
      Walk K (ChainGroup K D) _) stage = .done (.ok none, stage) := by
    unfold Walk.ofSafe SafeWalk.onMember
    rw [hget]
    rfl
  rw [renew, Walk.bind_apply, hmember]
  rfl

/-- The chain at a position takes the data, and is put back. -/
theorem renew_of_some {data : List D} {i : ℕ} {stage : Stage K (ChainGroup K D)} {c : Chain K D}
    {inner : Stage K (Chain K D)} (hget : stage.subject[i]? = some c)
    (hset : (Chain.setData data true : Walk K (Chain K D) Unit)
      ⟨c, stage.names, stage.tally, stage.records⟩ = .done (.ok (), inner)) :
    (renew data i : Walk K (ChainGroup K D) Unit) stage = .done (.ok (),
      ⟨stage.subject.set i inner.subject, inner.names, inner.tally, inner.records⟩) := by
  have hmember : (Walk.ofSafe (SafeWalk.onMember i (Walk.attempt (Chain.setData data true))) :
      Walk K (ChainGroup K D) _) stage = .done (.ok (some (.ok ())),
        ⟨stage.subject.set i inner.subject, inner.names, inner.tally, inner.records⟩) := by
    unfold Walk.ofSafe SafeWalk.onMember Walk.attempt
    rw [hget]
    dsimp only
    rw [hset]
    rfl
  rw [renew, Walk.bind_apply, hmember]
  rfl

variable {g : Grammar K} {m : Model K D} {data data' : List D}
  (hdist : g.DistinctSignatures) (hplain : g.PlainNames) (hm : m.Nameless)
include hdist hplain hm

/-- One chain is brought up to date, and the others are left as they are. -/
theorem exists_renew_apply (data' : List D) {i : ℕ} {stage : Stage K (ChainGroup K D)}
    (h : ∀ c, stage.subject[i]? = some c → UpToDate g m data c stage.names) :
    ∃ stage' : Stage K (ChainGroup K D),
      (renew data' i : Walk K (ChainGroup K D) Unit) stage = .done (.ok (), stage') ∧
        stage'.names = stage.names ∧ ∀ j c, stage'.subject[j]? = some c →
          if j = i then UpToDate g m data' c stage'.names else stage.subject[j]? = some c := by
  cases hget : stage.subject[i]? with
  | none =>
    refine ⟨stage, renew_of_none hget, rfl, fun j c hc => ?_⟩
    split
    · next hj => simp [hj, hget] at hc
    · exact hc
  | some a =>
    have hI : UpToDate g m data a stage.names := h a hget
    obtain ⟨inner, hrun, hnames, hnew⟩ := hI.exists_setData_apply hdist hplain hm data'
      ⟨a, stage.names, stage.tally, stage.records⟩
    refine ⟨⟨stage.subject.set i inner.subject, inner.names, inner.tally, inner.records⟩,
      renew_of_some hget hrun, hnames, fun j c hc => ?_⟩
    rw [List.getElem?_set] at hc
    split
    · next hj =>
      subst hj
      rw [if_pos rfl] at hc
      split at hc
      · cases hc
        exact hnew
      · cases hc
    · next hj => rwa [if_neg fun h => hj h.symm] at hc

/-- Every chain is brought up to date in turn. -/
theorem exists_forM_renew_apply {is : List ℕ} (hnodup : is.Nodup)
    {stage : Stage K (ChainGroup K D)}
    (hold : ∀ i ∈ is, ∀ c, stage.subject[i]? = some c → UpToDate g m data c stage.names)
    (hnew : ∀ i ∉ is, ∀ c, stage.subject[i]? = some c → UpToDate g m data' c stage.names) :
    ∃ stage' : Stage K (ChainGroup K D),
      (is.forM (renew data') : Walk K (ChainGroup K D) Unit) stage = .done (.ok (), stage') ∧
        ∀ c ∈ stage'.subject, UpToDate g m data' c stage'.names := by
  induction is generalizing stage with
  | nil =>
    refine ⟨stage, rfl, fun c hc => ?_⟩
    obtain ⟨i, hi⟩ := List.mem_iff_getElem?.mp hc
    exact hnew i List.not_mem_nil c hi
  | cons i is ih =>
    obtain ⟨hi, hnodup⟩ := List.nodup_cons.mp hnodup
    obtain ⟨stage₁, hrun, hnames, hstage₁⟩ :=
      exists_renew_apply hdist hplain hm data' (hold i List.mem_cons_self)
    have hold₁ : ∀ j ∈ is, ∀ c, stage₁.subject[j]? = some c →
        UpToDate g m data c stage₁.names := by
      intro j hj c hc
      have hsame := hstage₁ j c hc
      rw [if_neg fun h : j = i => hi (h ▸ hj)] at hsame
      exact hnames ▸ hold j (List.mem_cons_of_mem i hj) c hsame
    have hnew₁ : ∀ j ∉ is, ∀ c, stage₁.subject[j]? = some c →
        UpToDate g m data' c stage₁.names := by
      intro j hj c hc
      have hchain := hstage₁ j c hc
      split at hchain
      · exact hchain
      · next hne => exact hnames ▸ hnew j (by simp [hne, hj]) c hchain
    obtain ⟨stage', hforM, hall⟩ := ih hnodup hold₁ hnew₁
    refine ⟨stage', ?_, hall⟩
    change (renew data' i >>= fun _ => is.forM (renew data') : Walk K (ChainGroup K D) Unit) stage = _
    rw [Walk.bind_apply, hrun, Rand.done_bind]
    exact hforM

theorem exists_setData_apply (data' : List D) (stage : Stage K (ChainGroup K D))
    (h : ∀ c ∈ stage.subject, UpToDate g m data c stage.names) :
    ∃ stage' : Stage K (ChainGroup K D),
      (setData data' true : Walk K (ChainGroup K D) Unit) stage = .done (.ok (), stage') ∧
        ∀ c ∈ stage'.subject, UpToDate g m data' c stage'.names := by
  rw [setData_eq_forM]
  refine exists_forM_renew_apply hdist hplain hm List.nodup_range
    (fun i _ c hc => h c (List.mem_of_getElem? hc)) fun i hi c hc => ?_
  exact absurd (List.mem_range.mpr (List.getElem?_eq_some_iff.mp hc).1) hi

end ChainGroup

theorem Tempering.ensures_ofTree {σ : Type} {p : Problem K D} {t : Tree K} {stage : Stage K σ}
    (hdist : p.grammar.DistinctSignatures) (hplain : p.grammar.PlainNames) (hm : p.model.Nameless)
    (ht : p.grammar.Derivable stage.names t) (temperatures : List K) (swapEvery : ℕ) :
    (ofTree p t temperatures swapEvery : Walk K σ _).Ensures
      (fun _ s => stage.names.issued ≤ s.issued) stage fun made stage' =>
        made.All (Chain.UpToDate p.grammar p.model p.data) stage'.names := by
  refine ((Chain.upToDate_invariant hdist hplain hm).ensures_startChains
    (fun hle => Chain.ensures_ofTree hm (ht.mono hle) (Nat.le_refl _)) true temperatures
    (Nat.le_refl _)).bind fun chains stage' hle hchains => ?_
  exact .pure hle hchains

end ScopedGrammar
