import ScopedGrammar.Proofs.Chain.Score

/-!
# Calls on chains

Whoever holds a chain, or tempered chains, may call on them in any order and as often as they like:
to take a step, to restart, to go on to the next report or for a whole run, to change the data.
Whatever the calls come to, what each of them keeps is kept by all, and so the score of every
current tree is the one that the model gives it.
-/
namespace ScopedGrammar

variable {K σ D : Type}

namespace Walk

/-- Make calls in turn, whether those before failed or not. -/
def callAll (calls : List (Walk K σ Unit)) : SafeWalk K σ Unit :=
  calls.forM fun x => do let _ ← Walk.attempt x

theorem callAll_cons (x : Walk K σ Unit) (calls : List (Walk K σ Unit)) (stage : Stage K σ) :
    callAll (x :: calls) stage = (x stage).bind fun (_, between) => callAll calls between := by
  change Rand.bind (Rand.bind _ _) _ = _
  rw [Rand.bind_assoc]
  rfl

theorem exists_callAll (calls : List (Walk K σ Unit)) (stage : Stage K σ) :
    ∃ stage', Rand.Yields (callAll calls stage) ((), stage') := by
  obtain ⟨⟨⟨⟩, stage'⟩, h⟩ := Rand.exists_yields (callAll calls stage)
  exact ⟨stage', h⟩

theorem of_yields_callAll {I : σ → NameSupply → Prop} {calls : List (Walk K σ Unit)}
    (hcalls : ∀ x ∈ calls, x.Keeps I) {stage stage' : Stage K σ}
    (hI : I stage.subject stage.names) (h : Rand.Yields (callAll calls stage) ((), stage')) :
    I stage'.subject stage'.names := by
  induction calls generalizing stage with
  | nil =>
    have heq : ((), stage) = ((), stage') := h
    cases heq
    exact hI
  | cons x calls ih =>
    rw [callAll_cons, Rand.yields_bind] at h
    obtain ⟨⟨r, stage₁⟩, hx, hrest⟩ := h
    obtain ⟨hI₁, -⟩ := hcalls x List.mem_cons_self stage hI r _ hx
    exact ih (fun y hy => hcalls y (List.mem_cons_of_mem x hy)) hI₁ hrest

theorem Keeps.discard {α : Type} {I : σ → NameSupply → Prop} {x : Walk K σ α} (h : x.Keeps I) :
    Keeps (do let _ ← x : Walk K σ Unit) I :=
  fun stage hI => (h stage hI).bind fun _ _ hI' _ => .pure hI' trivial

theorem Keeps.ofSafe {α : Type} {I : σ → NameSupply → Prop} {x : SafeWalk K σ α}
    (h : ∀ stage a stage', I stage.subject stage.names → Rand.Yields (x stage) (a, stage') →
      I stage'.subject stage'.names) : Keeps (Walk.ofSafe x : Walk K σ α) I := by
  intro stage hI r stage' hr
  obtain ⟨⟨a, stage''⟩, hx, heq⟩ := (Rand.yields_bind ..).mp hr
  cases heq
  exact ⟨h stage a stage' hI hx, fun _ _ => trivial⟩

theorem Keeps.exists {α ι : Type} {I : ι → σ → NameSupply → Prop} {x : Walk K σ α}
    (h : ∀ i, x.Keeps (I i)) : x.Keeps fun a s => ∃ i, I i a s :=
  fun stage ⟨i, hI⟩ => (h i stage hI).weaken fun _ _ hI' => ⟨i, hI'⟩

end Walk

variable [Scalar K]

namespace Chain

/-- What a chain may be called on to do. -/
inductive Call (K D : Type) where
  | step
  | restart
  /-- Go on to the next report. -/
  | advance (ctl : Control)
  | run (ctl : Control)
  /-- Change the data and score the current tree anew. -/
  | setData (data : List D)
  | setTemperatures (temperatures : Temperatures K)

/-- Make a call; of its answer nothing is kept. -/
def Call.make : Call K D → Walk K (Chain K D) Unit
  | step => do let _ ← Chain.step
  | restart => Chain.restart
  | advance ctl => do
      let _ ← (Walk.onPart (fun c => (c, ctl)) (fun s _ => s.1) Chain.advance :
        Walk K (Chain K D) (Option (Sample K)))
  | run ctl => do let _ ← Walk.ofSafe (Chain.run ctl)
  | setData data => Chain.setData data true
  | setTemperatures temperatures => Walk.update fun c => { c with temperatures }

variable {g : Grammar K} {m : Model K D}

/-- Every call keeps the score up to date, with some data. -/
theorem Call.keeps_make (hdist : g.DistinctSignatures) (hplain : g.PlainNames) (hm : m.Nameless)
    (call : Call K D) : call.make.Keeps fun c s => ∃ data, UpToDate g m data c s := by
  have hinv : ∀ data, Invariant (UpToDate g m data) := fun data =>
    (upToDate_invariant hdist hplain hm).toInvariant
  cases call with
  | step => exact .exists fun data => (hinv data).keeps_step.discard
  | restart => exact .exists fun data => (hinv data).keeps_restart
  | advance ctl =>
    refine .exists fun data => .discard <|
      Walk.Keeps.onPart (J := fun a s => UpToDate g m data a.1 s) (fun stage hI => ?_)
        (fun _ _ h => h) fun _ _ _ h => h
    exact ((hinv data).ensures_advance _ hI).keeps
  | run ctl =>
    exact .exists fun data => .discard <| .ofSafe fun _ _ _ hI hrun =>
      ((hinv data).of_yields_run hI hrun).1
  | setData data' =>
    rintro stage ⟨data, hI⟩ r stage' hr
    obtain ⟨stage'', hset, -, hnew⟩ := hI.exists_setData_apply hdist hplain hm data' stage
    rw [Call.make, hset, Rand.yields_done] at hr
    cases hr
    exact ⟨⟨data', hnew⟩, fun _ _ => trivial⟩
  | setTemperatures temperatures =>
    exact .exists fun data stage hI => (Walk.Ensures.update
      (f := fun c : Chain K D => { c with temperatures }) ((hinv data).congr hI rfl rfl)).keeps

/-- A chain whose score is up to date has the score of its tree after any calls. -/
theorem UpToDate.scoreIsCurrent_callAll (hdist : g.DistinctSignatures) (hplain : g.PlainNames)
    (hm : m.Nameless) {data : List D} {stage stage' : Stage K (Chain K D)}
    (h : UpToDate g m data stage.subject stage.names) {calls : List (Call K D)}
    (hcalls : Rand.Yields (Walk.callAll (calls.map Call.make) stage) ((), stage')) :
    stage'.subject.ScoreIsCurrent := by
  have hkept : ∀ x ∈ calls.map Call.make, x.Keeps fun c s => ∃ data, UpToDate g m data c s :=
    List.forall_mem_map.mpr fun call _ => call.keeps_make hdist hplain hm
  obtain ⟨data', h'⟩ := Walk.of_yields_callAll hkept ⟨data, h⟩ hcalls
  exact h'.scoreIsCurrent

end Chain

namespace Tempering

/-- What tempered chains may be called on to do. -/
inductive Call (D : Type) where
  /-- Propose an exchange between two neighbours. -/
  | swap
  /-- Go on to the next report. -/
  | advance (ctl : Control)
  | run (ctl : Control)
  /-- Change the data and score the current trees anew. -/
  | setData (data : List D)

/-- Make a call; of its answer nothing is kept. -/
def Call.make : Call D → Walk K (Tempering K D) Unit
  | swap => Tempering.swap
  | advance ctl => do
      let _ ← (Walk.onPart (fun s => (s, ctl)) (fun s _ => s.1) Tempering.advance :
        Walk K (Tempering K D) (Option (ℕ × Sample K)))
  | run ctl => do let _ ← Walk.ofSafe (Tempering.run ctl)
  | setData data => Tempering.setData data true

variable {g : Grammar K} {m : Model K D}

theorem Call.keeps_make (hdist : g.DistinctSignatures) (hplain : g.PlainNames) (hm : m.Nameless)
    (call : Call D) : (call.make : Walk K (Tempering K D) Unit).Keeps fun s names =>
      ∃ data, All (Chain.UpToDate g m data) s names := by
  have hinv : ∀ data, Invariant (Chain.UpToDate g m data) := fun data =>
    Chain.upToDate_invariant hdist hplain hm
  cases call with
  | swap => exact .exists fun data => (hinv data).keeps_swap
  | advance ctl =>
    exact .exists fun data => .discard <|
      Walk.Keeps.onPart (hinv data).keeps_advance (fun _ _ h => h) fun _ _ _ h => h
  | run ctl =>
    exact .exists fun data => .discard <| .ofSafe fun _ _ _ hI hrun =>
      (hinv data).all_of_yields_run hI hrun
  | setData data' =>
    rintro stage ⟨data, hI⟩ r stage' hr
    have hr' : Rand.Yields (onChains (ChainGroup.setData data' true) stage) (r, stage') := hr
    obtain ⟨inner, hset, hsubject, hnames⟩ := Walk.of_yields_onPart hr'
    obtain ⟨inner', hset', hnew⟩ := ChainGroup.exists_setData_apply hdist hplain hm data'
      ⟨stage.subject.chains, stage.names, stage.tally, stage.records⟩ hI
    rw [hset', Rand.yields_done] at hset
    cases hset
    refine ⟨⟨data', ?_⟩, fun _ _ => trivial⟩
    rw [hsubject, hnames]
    exact hnew

theorem All.scoreIsCurrent_callAll (hdist : g.DistinctSignatures) (hplain : g.PlainNames)
    (hm : m.Nameless) {data : List D} {stage stage' : Stage K (Tempering K D)}
    (h : All (Chain.UpToDate g m data) stage.subject stage.names) {calls : List (Call D)}
    (hcalls : Rand.Yields (Walk.callAll (calls.map Call.make) stage) ((), stage')) :
    ∀ c ∈ stage'.subject.chains, c.ScoreIsCurrent := by
  have hkept : ∀ x ∈ calls.map Call.make, Walk.Keeps (K := K) x fun s names =>
      ∃ data, All (Chain.UpToDate g m data) s names :=
    List.forall_mem_map.mpr fun call _ => call.keeps_make hdist hplain hm
  obtain ⟨data', h'⟩ := Walk.of_yields_callAll hkept ⟨data, h⟩ hcalls
  exact fun c hc => (h' c hc).scoreIsCurrent

end Tempering

/-- In a grammar of plain names, with a model that does not see the names of bound variables, trees
that are alike have the same score. So a chain that is made, from a tree or from the prior, has the
score of its current tree then and after any calls, whatever it is that they come to, and so have
tempered chains. -/
theorem score_stays_current {P : Problem K D} (hdist : P.grammar.DistinctSignatures)
    (hplain : P.grammar.PlainNames) (hm : P.model.Nameless) (stage : Stage K σ) :
    (∀ s t, P.grammar.Derivable stage.names s → P.grammar.Derivable stage.names t →
      s.alike t = true → ∀ data, P.model.logPosterior P.grammar s data =
        P.model.logPosterior P.grammar t data) ∧
    (∀ make : Walk K σ (Chain K D), make = Chain.ofPrior P ∨
        (∃ t, P.grammar.Derivable stage.names t ∧ make = Chain.ofTree P t) →
      ∀ c made, Rand.Yields (make stage) (.ok c, made) →
        ∀ (calls : List (Chain.Call K D)) (ended : Stage K (Chain K D)),
          Rand.Yields (Walk.callAll (calls.map Chain.Call.make)
            ⟨c, made.names, made.tally, made.records⟩) ((), ended) →
          ended.subject.ScoreIsCurrent) ∧
    (∀ t, P.grammar.Derivable stage.names t → ∀ (temperatures : List K) (swapEvery : ℕ) s made,
      Rand.Yields (Tempering.ofTree P t temperatures swapEvery stage) (.ok s, made) →
        ∀ (calls : List (Tempering.Call D)) (ended : Stage K (Tempering K D)),
          Rand.Yields (Walk.callAll (calls.map Tempering.Call.make)
            ⟨s, made.names, made.tally, made.records⟩) ((), ended) →
          ∀ c ∈ ended.subject.chains, c.ScoreIsCurrent) := by
  refine ⟨fun s t hs ht halike data => hm.logPosterior_eq hdist hplain hs ht halike data, ?_, ?_⟩
  · intro make hmake c made hmade calls ended hcalls
    have hnew : make.Ensures (fun _ _ => True) stage fun c stage' =>
        Chain.UpToDate P.grammar P.model P.data c stage'.names := by
      rcases hmake with rfl | ⟨t, ht, rfl⟩
      · exact Chain.ensures_ofPrior hplain hm fun _ _ => trivial
      · exact Chain.ensures_ofTree hm ht trivial
    have hc := (hnew _ made hmade).2 c rfl
    exact Chain.UpToDate.scoreIsCurrent_callAll hdist hplain hm hc hcalls
  · intro t ht temperatures swapEvery s made hmade calls ended hcalls
    have hs := (Tempering.ensures_ofTree hdist hplain hm ht temperatures swapEvery _ made hmade).2 s
      rfl
    exact Tempering.All.scoreIsCurrent_callAll hdist hplain hm hs hcalls

/-- Terms are walked on by insertion and regeneration, by a chain and by one that is tempered, with
a likelihood that goes by their number of nodes. -/
theorem score_stays_current_terms :
    let P : Problem Exact ℕ := ⟨Grammar.terms,
      ⟨fun g t => g.logProbability t, fun t n => -Scalar.ofNat (n * t.countNodes), none⟩, [2],
      ⟨.mixture [(Exact.real 1, .insert), (Exact.real 2, .regeneration)],
        .leaves (Exact.real 3), 5⟩⟩
    let x : Tree Exact := Grammar.identityTerm
    let stage : Stage Exact Unit := ⟨(), ⟨1⟩, ⟨0, 0⟩, []⟩
    let calls : List (Chain.Call Exact ℕ) := [.step, .setData [3], .restart, .step]
    let calls' : List (Tempering.Call ℕ) := [.swap, .setData [3]]
    P.grammar.DistinctSignatures ∧ P.grammar.PlainNames ∧ P.model.Nameless ∧
      P.grammar.Derivable stage.names x ∧
      (∃ c made ended, Rand.Yields ((Chain.ofTree P x : Walk Exact Unit _) stage) (.ok c, made) ∧
        Rand.Yields (Walk.callAll (calls.map Chain.Call.make)
          ⟨c, made.names, made.tally, made.records⟩) ((), ended) ∧ ended.subject.ScoreIsCurrent) ∧
      ∃ s made ended,
        Rand.Yields ((Tempering.ofTree P x [1] 1 : Walk Exact Unit _) stage) (.ok s, made) ∧
        Rand.Yields (Walk.callAll (calls'.map Tempering.Call.make)
          ⟨s, made.names, made.tally, made.records⟩) ((), ended) ∧
        ∀ c ∈ ended.subject.chains, c.ScoreIsCurrent := by
  intro P x stage calls calls'
  have hdist : P.grammar.DistinctSignatures := Grammar.distinctSignatures_terms
  have hplain : P.grammar.PlainNames := Grammar.plainNames_terms
  have hm : P.model.Nameless := by
    refine ⟨fun _ _ => rfl, fun {u v} h => funext fun n => ?_, rfl⟩
    change -(Scalar.ofNat (n * u.countNodes) : Exact) = -Scalar.ofNat (n * v.countNodes)
    rw [Tree.VariantOver.countNodes_eq h]
  have hx : P.grammar.Derivable stage.names x := Grammar.derivable_identityTerm
  -- what follows holds of any problem, and nothing is to be evaluated
  clear_value P x stage calls calls'
  obtain ⟨-, hchain, htempering⟩ := score_stays_current hdist hplain hm stage
  obtain ⟨score, hscore⟩ :=
    hm.exists_logPosterior hdist hplain.noReservedNames hx.toDerived P.data
  have hmade := Chain.ofTree_apply (σ := Unit) hm.lasting hscore stage
  obtain ⟨c, made, hc⟩ : ∃ c made,
      (Chain.ofTree P x : Walk Exact Unit _) stage = .done (.ok c, made) := ⟨_, _, hmade⟩
  obtain ⟨s, hs⟩ : ∃ s,
      (Tempering.ofTree P x [1] 1 : Walk Exact Unit _) stage = .done (.ok s, made) := by
    refine ⟨⟨[{ c with temperatures := { c.temperatures with likelihood := 1 } }], 1,
      [.empty Tempering.historySize], 0, 0⟩, ?_⟩
    unfold Tempering.ofTree
    rw [Walk.bind_apply, Tempering.startChains_cons, Walk.bind_apply, hc]
    rfl
  have hc' : Rand.Yields ((Chain.ofTree P x : Walk Exact Unit _) stage) (.ok c, made) := by
    rw [hc, Rand.yields_done]
  have hs' : Rand.Yields ((Tempering.ofTree P x [1] 1 : Walk Exact Unit _) stage) (.ok s, made) := by
    rw [hs, Rand.yields_done]
  obtain ⟨ended, hended⟩ := Walk.exists_callAll (calls.map Chain.Call.make)
    ⟨c, made.names, made.tally, made.records⟩
  obtain ⟨ended', hended'⟩ := Walk.exists_callAll (calls'.map Tempering.Call.make)
    ⟨s, made.names, made.tally, made.records⟩
  have hcurrent := hchain (Chain.ofTree P x) (.inr ⟨x, hx, rfl⟩) c made hc' calls ended hended
  have hcurrent' := htempering x hx [1] 1 s made hs' calls' ended' hended'
  exact ⟨hdist, hplain, hm, hx, ⟨c, made, ended, hc', hended, hcurrent⟩,
    ⟨s, made, ended', hs', hended', hcurrent'⟩⟩

end ScopedGrammar
