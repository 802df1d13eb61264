import ScopedGrammar.Chain.Tempering
import ScopedGrammar.Proofs.Chain.Balance

/-!
# Exchanges between neighbours

One swap draws two neighbouring chains and hands the current sample of each to the other, or leaves
all as it is. So no sample is lost, and a chain changes by nothing but its current sample. Weighted
by the tempered posteriors of all chains, a group is left for an exchanged one as often as it is
come back to: what the pair contributes is the lesser of what it weighs before and behind the
exchange, and the others contribute the same. A pair with an impossible sample weighs nothing on
either side.
-/
namespace ScopedGrammar.Tempering

section Groups

variable {K D : Type} {chains : ChainGroup K D} {i j m : ℕ}

theorem exists_neighbours (h : i + 1 < chains.length) :
    ∃ pre c d post, chains = pre ++ c :: d :: post ∧ pre.length = i := by
  refine ⟨chains.take i, chains[i], chains[i + 1], chains.drop (i + 2), ?_, ?_⟩
  · rw [List.getElem_cons_drop, List.getElem_cons_drop, List.take_append_drop]
  · exact List.length_take_of_le (by omega)

theorem exchange_neighbours (pre post : ChainGroup K D) (c d : Chain K D) :
    exchange pre.length (pre.length + 1) (pre ++ c :: d :: post) =
      pre ++ { c with current := d.current } :: { d with current := c.current } :: post := by
  simp [exchange]

/-- The chains are the same but for their current samples. -/
def SameApart (chains chains' : ChainGroup K D) : Prop :=
  List.Forall₂ (fun c c' => c' = { c with current := c'.current }) chains chains'

theorem SameApart.refl (chains : ChainGroup K D) : SameApart chains chains :=
  List.forall₂_same.mpr fun _ _ => rfl

/-- An exchange changes the current samples and nothing else. -/
theorem sameApart_exchange (h : i + 1 < chains.length) :
    SameApart chains (exchange i (i + 1) chains) := by
  obtain ⟨pre, c, d, post, rfl, rfl⟩ := exists_neighbours h
  rw [exchange_neighbours]
  exact List.rel_append (SameApart.refl pre) (.cons rfl (.cons rfl (SameApart.refl post)))

theorem perm_exchange (h : i + 1 < chains.length) :
    ((exchange i (i + 1) chains).map (·.current)).Perm (chains.map (·.current)) := by
  obtain ⟨pre, c, d, post, rfl, rfl⟩ := exists_neighbours h
  rw [exchange_neighbours, List.map_append, List.map_append]
  exact (List.Perm.swap c.current d.current (post.map (·.current))).append_left _

theorem length_exchange (h : i + 1 < chains.length) :
    (exchange i (i + 1) chains).length = chains.length := by
  obtain ⟨pre, c, d, post, rfl, rfl⟩ := exists_neighbours h
  simp [exchange_neighbours]

theorem exchange_exchange (h : i + 1 < chains.length) :
    exchange i (i + 1) (exchange i (i + 1) chains) = chains := by
  obtain ⟨pre, c, d, post, rfl, rfl⟩ := exists_neighbours h
  rw [exchange_neighbours, exchange_neighbours]

theorem getElem?_exchange (hm : m ≠ i) (hm' : m ≠ i + 1) :
    (exchange i (i + 1) chains)[m]? = chains[m]? := by
  unfold exchange
  split
  · rw [List.getElem?_set_ne hm'.symm, List.getElem?_set_ne hm.symm]
  · rfl

/-- If one of two neighbours is the same behind their exchange, both are. -/
theorem exchange_eq_self (h : i + 1 < chains.length) (hm : m = i ∨ m = i + 1)
    (hsame : (exchange i (i + 1) chains)[m]? = chains[m]?) : exchange i (i + 1) chains = chains := by
  obtain ⟨pre, c, d, post, rfl, rfl⟩ := exists_neighbours h
  rw [exchange_neighbours] at hsame ⊢
  have hcurrent : c.current = d.current := by
    rcases hm with rfl | rfl
    · simp only [List.getElem?_append_right (Nat.le_refl _), Nat.sub_self, List.getElem?_cons_zero,
        Option.some.injEq] at hsame
      exact (congrArg Chain.current hsame).symm
    · simp only [List.getElem?_append_right (Nat.le_add_right _ 1), Nat.add_sub_cancel_left,
        List.getElem?_cons_succ, List.getElem?_cons_zero, Option.some.injEq] at hsame
      exact (congrArg Chain.current hsame :)
  have hc : { c with current := d.current } = c := hcurrent ▸ rfl
  have hd : { d with current := c.current } = d := hcurrent ▸ rfl
  rw [hc, hd]

/-- Exchanges of different neighbours make different changes. -/
theorem eq_of_exchange_eq (hj : j + 1 < chains.length)
    (heq : exchange i (i + 1) chains = exchange j (j + 1) chains)
    (hne : exchange j (j + 1) chains ≠ chains) : i = j := by
  by_contra hij
  -- one of the chains that the second exchange changes stands apart from the first
  have hchanged : ∀ m, m = j ∨ m = j + 1 → m ≠ i → m ≠ i + 1 → False := fun m hm hi' hi'' =>
    hne (exchange_eq_self hj hm (heq ▸ getElem?_exchange hi' hi''))
  by_cases hbefore : j = i + 1
  · exact hchanged (j + 1) (.inr rfl) (by omega) (by omega)
  · exact hchanged j (.inl rfl) (Ne.symm hij) hbefore

end Groups

section Outcomes

variable {K D : Type} [Scalar K] {s : Tempering K D} {stage stage' : Stage K (Tempering K D)} {i : ℕ}
  {c d : Chain K D}

/-- The stage behind a decided exchange. -/
def decideSwap (k : ℕ) (accepted : Bool) (stage : Stage K (Tempering K D)) :
    Stage K (Tempering K D) :=
  { stage with
    subject :=
      { stage.subject with
        chains :=
          if accepted then exchange (k - 1) k stage.subject.chains else stage.subject.chains
        swapHistories := stage.subject.swapHistories.modify k (·.add accepted) }
    records := .swap (k - 1) k accepted :: stage.records }

theorem proposeSwap_apply (hc : stage.subject.chains[i]? = some c)
    (hd : stage.subject.chains[i + 1]? = some d) :
    (proposeSwap (i + 1) : Walk K (Tempering K D) Unit) stage =
      Rand.bind ((acceptSwap (swapLogRatio c d) : Walk K (Tempering K D) Bool) stage) fun
        | (.ok accepted, stage') => .done (.ok (), decideSwap (i + 1) accepted stage')
        | (.error e, stage') => .done (.error e, stage') := by
  have hsubject : (Walk.subject : Walk K (Tempering K D) (Tempering K D)) stage =
      .done (.ok stage.subject, stage) := rfl
  rw [proposeSwap, Walk.bind_apply, hsubject, Rand.done_bind]
  simp only [Nat.add_sub_cancel, hc, hd]
  rw [Walk.bind_apply]
  refine congrArg (Rand.bind _) (funext fun outcome => ?_)
  obtain ⟨_ | accepted, stage'⟩ := outcome <;> rfl

theorem acceptSwap_apply (ratio : K) (stage : Stage K (Tempering K D)) :
    (acceptSwap ratio : Walk K (Tempering K D) Bool) stage =
      if Scalar.isNaN ratio then .done (.ok false, stage)
      else if Scalar.le 0 ratio then .done (.ok true, stage)
      else .chance .fraction (Scalar.exp ratio) fun below => .done (.ok below, stage) := by
  unfold acceptSwap
  split
  · rfl
  · split <;> rfl

theorem of_yields_acceptSwap {ratio : K} {r : Except SampleError Bool}
    (h : Rand.Yields ((acceptSwap ratio : Walk K (Tempering K D) Bool) stage) (r, stage')) :
    stage' = stage ∧ ∃ accepted, r = .ok accepted := by
  rw [acceptSwap_apply] at h
  split at h
  · cases h
    exact ⟨rfl, false, rfl⟩
  · split at h
    · cases h
      exact ⟨rfl, true, rfl⟩
    · obtain ⟨below, h⟩ := h
      cases h
      exact ⟨rfl, below, rfl⟩

/-- With one chain or none there is nothing to swap. -/
theorem swap_apply (stage : Stage K (Tempering K D)) :
    (swap : Walk K (Tempering K D) Unit) stage =
      if h : 0 < stage.subject.chains.length - 1 then
        .uniform .fullWord (stage.subject.chains.length - 1) h fun i =>
          (proposeSwap (i.val + 1) : Walk K (Tempering K D) Unit) stage
      else .done (.ok (), stage) := by
  have hrun : (swap : Walk K (Tempering K D) Unit) stage =
      (if h : 0 < stage.subject.chains.length - 1 then do
          let i ← Walk.ofSampler (uniformIndex .fullWord (stage.subject.chains.length - 1) h)
          proposeSwap (1 + i.val)
        else pure () : Walk K (Tempering K D) Unit) stage := rfl
  rw [hrun]
  split
  · rw [Walk.ofSampler_bind_apply]
    simp only [Nat.add_comm 1]
    rfl
  · rfl

/-- A swap cannot fail. There is nothing to swap, or an exchange of two neighbours is decided. -/
theorem decideSwap_of_yields_swap {r : Except SampleError Unit}
    (h : Rand.Yields ((swap : Walk K (Tempering K D) Unit) stage) (r, stage')) :
    r = .ok () ∧ (stage' = stage ∨ ∃ i accepted, i + 1 < stage.subject.chains.length ∧
      stage' = decideSwap (i + 1) accepted stage) := by
  rw [swap_apply] at h
  split at h
  · obtain ⟨i, h⟩ := h
    have hi : i.val + 1 < stage.subject.chains.length := by omega
    have hpair := proposeSwap_apply (List.getElem?_eq_getElem (Nat.lt_of_succ_lt hi))
      (List.getElem?_eq_getElem hi)
    dsimp only at h
    rw [hpair, Rand.yields_bind] at h
    obtain ⟨⟨r', stage₁⟩, haccept, h⟩ := h
    obtain ⟨rfl, accepted, rfl⟩ := of_yields_acceptSwap haccept
    cases h
    exact ⟨rfl, .inr ⟨i, accepted, hi, rfl⟩⟩
  · cases h
    exact ⟨rfl, .inl rfl⟩

/-- A swap leaves the chains as they are or exchanges two neighbours. It cannot fail. -/
theorem of_yields_swap {r : Except SampleError Unit}
    (h : Rand.Yields ((swap : Walk K (Tempering K D) Unit) stage) (r, stage')) :
    r = .ok () ∧ (stage'.subject.chains = stage.subject.chains ∨
      ∃ i, i + 1 < stage.subject.chains.length ∧
        stage'.subject.chains = exchange i (i + 1) stage.subject.chains) := by
  obtain ⟨rfl, rfl | ⟨i, accepted, hi, rfl⟩⟩ := decideSwap_of_yields_swap h
  · exact ⟨rfl, .inl rfl⟩
  · cases accepted with
    | false => exact ⟨rfl, .inl rfl⟩
    | true => exact ⟨rfl, .inr ⟨i, hi, rfl⟩⟩

end Outcomes

section Balance

open Exact

variable {D : Type} {s : Score Exact} {c d : Chain Exact D} {chains : ChainGroup Exact D}
  {stage stage' : Stage Exact (Tempering Exact D)} {i : ℕ}

/-- A score that can be tempered: its components can be compared, but for the likelihood of what is
impossible, which need not be known. -/
structure Temperable (s : Score Exact) : Prop where
  prior : Comparable s.prior
  likelihood : s.prior ≠ negInf → Comparable s.likelihood

/-- Tempered, a score is a number at all temperatures, or at none. -/
theorem Temperable.atTemperature (h : Temperable s) :
    (∀ t : Exact, t.Positive → ∃ x, s.atTemperature t = real x) ∨
      ∀ t : Exact, t.Positive → s.atTemperature t = negInf := by
  obtain ⟨prior, likelihood, posterior⟩ := s
  obtain ⟨⟨p, rfl⟩ | rfl, hlikelihood⟩ := h
  · rcases hlikelihood (by simp) with ⟨l, rfl⟩ | rfl
    · refine .inl fun t ⟨r, hr, ht⟩ => ⟨p + l / r, ?_⟩
      simp [Score.atTemperature, ht, real_div hr.ne']
    · refine .inr fun t ⟨r, hr, ht⟩ => ?_
      have hquotient : negInf / real r = negInf := if_neg hr.not_gt
      simp [Score.atTemperature, ht, hquotient]
  · exact .inr fun t _ => by simp [Score.atTemperature]

/-- With the prior at temperature `1`, tempering both components is tempering the likelihood. -/
theorem Temperable.atTemperatures_eq (h : Temperable s) {T : Temperatures Exact}
    (hprior : T.prior = 1) : s.atTemperatures T = s.atTemperature T.likelihood := by
  rw [Score.atTemperatures, Score.atTemperature, hprior]
  rcases h.prior with ⟨p, hp⟩ | hp
  · rw [hp, one_eq, real_div one_ne_zero, div_one]
  · simp [hp]

/-- A chain whose prior is not tempered, at a temperature that its score can be tempered to. -/
structure Regular (c : Chain Exact D) : Prop where
  prior : c.temperatures.prior = 1
  likelihood : c.temperatures.likelihood.Positive
  temperable : Temperable c.current.score

/-- The weight of the state of a chain. -/
noncomputable def chainWeight (c : Chain Exact D) : ℝ :=
  (c.current.score.atTemperatures c.temperatures).mass

/-- The weight of the state of all chains together. -/
noncomputable def weight (chains : ChainGroup Exact D) : ℝ := (chains.map chainWeight).prod

theorem weight_nonneg (chains : ChainGroup Exact D) : 0 ≤ weight chains :=
  List.prod_nonneg fun w hw => by
    obtain ⟨c, -, rfl⟩ := List.mem_map.mp hw
    exact mass_nonneg _

theorem weight_neighbours (pre post : ChainGroup Exact D) (c d : Chain Exact D) :
    weight (pre ++ c :: d :: post) =
      weight pre * weight post * (chainWeight c * chainWeight d) := by
  simp only [weight, List.map_append, List.map_cons, List.prod_append, List.prod_cons]
  ring

/-- Weighted by the state of the pair, an exchange is accepted as often as the lesser of the weights
before and behind it says. -/
theorem chainWeight_mul_acceptChance (hc : Regular c) (hd : Regular d) :
    chainWeight c * chainWeight d * acceptChance (swapLogRatio c d) =
      min (chainWeight c * chainWeight d)
        (chainWeight { c with current := d.current } *
          chainWeight { d with current := c.current }) := by
  have hweight : ∀ {x y : Chain Exact D}, Regular x → Regular y →
      chainWeight { x with current := y.current } =
        (y.atTemperature x.temperatures.likelihood).mass :=
    fun hx hy => congrArg mass (hy.temperable.atTemperatures_eq hx.prior)
  rw [hweight hc hd, hweight hd hc, show chainWeight c = _ from hweight hc hc,
    show chainWeight d = _ from hweight hd hd, swapLogRatio]
  rcases hc.temperable.atTemperature with hcreal | himpossible
  · rcases hd.temperable.atTemperature with hdreal | himpossible
    · obtain ⟨x, hx⟩ := hcreal _ hc.likelihood
      obtain ⟨y, hy⟩ := hdreal _ hd.likelihood
      obtain ⟨x', hx'⟩ := hcreal _ hd.likelihood
      obtain ⟨y', hy'⟩ := hdreal _ hc.likelihood
      have hratio : Real.exp x * Real.exp y * Real.exp (x' + y' - (x + y)) =
          Real.exp y' * Real.exp x' := by
        rw [← Real.exp_add, ← Real.exp_add, ← Real.exp_add]
        congr 1
        ring
      simp only [Chain.atTemperature, hx, hy, hx', hy', real_add, real_sub, mass_real]
      rw [acceptChance_real, mul_min_of_nonneg _ _ (by positivity), hratio, mul_one, min_comm]
    · have hzero : ∀ t : Exact, t.Positive → (d.atTemperature t).mass = 0 :=
        fun t ht => congrArg mass (himpossible t ht)
      simp [hzero _ hd.likelihood, hzero _ hc.likelihood]
  · have hzero : ∀ t : Exact, t.Positive → (c.atTemperature t).mass = 0 :=
      fun t ht => congrArg mass (himpossible t ht)
    simp [hzero _ hd.likelihood, hzero _ hc.likelihood]

/-- An exchange is accepted with the probability of its log-ratio. -/
theorem mean_acceptSwap (ratio : Exact) (φ : Except SampleError Bool × Stage Exact _ → ℝ) :
    Rand.mean ((acceptSwap ratio : Walk Exact (Tempering Exact D) Bool) stage) φ =
      acceptChance ratio * φ (.ok true, stage) + (1 - acceptChance ratio) * φ (.ok false, stage) := by
  rw [acceptSwap_apply]
  split
  · next hnan =>
    have hzero : acceptChance ratio = 0 := by
      rw [(isNaN_iff ratio).mp hnan]
      rfl
    rw [Rand.mean_done, hzero]
    ring
  · split
    · next hle =>
      rw [Rand.mean_done, acceptChance_of_le hle]
      ring
    · rfl

open Classical in
theorem prob_proposeSwap (hc : stage.subject.chains[i]? = some c)
    (hd : stage.subject.chains[i + 1]? = some d) (E : ChainGroup Exact D → Prop) :
    Rand.prob ((proposeSwap (i + 1) : Walk Exact (Tempering Exact D) Unit) stage)
        (fun out => E out.2.subject.chains) =
      acceptChance (swapLogRatio c d) *
          (if E (exchange i (i + 1) stage.subject.chains) then 1 else 0) +
        (1 - acceptChance (swapLogRatio c d)) * (if E stage.subject.chains then 1 else 0) := by
  rw [Rand.prob, proposeSwap_apply hc hd, Rand.mean_bind, mean_acceptSwap]
  rfl

open Classical in
/-- The probability that a swap of some chains comes to chains of a property. -/
noncomputable def swapProb (chains : ChainGroup Exact D) (E : ChainGroup Exact D → Prop) : ℝ :=
  if 0 < chains.length - 1 then
    ∑ j : Fin (chains.length - 1), (1 / (chains.length - 1 : ℕ) : ℝ) *
      (acceptChance (swapLogRatio chains[j.val] chains[j.val + 1]) *
          (if E (exchange j (j + 1) chains) then 1 else 0) +
        (1 - acceptChance (swapLogRatio chains[j.val] chains[j.val + 1])) *
          (if E chains then 1 else 0))
  else if E chains then 1 else 0

/-- Each pair of neighbours is drawn as likely as the other. Of a state of the ladder only its
chains matter. -/
theorem prob_swap (stage : Stage Exact (Tempering Exact D)) (E : ChainGroup Exact D → Prop) :
    Rand.prob ((swap : Walk Exact (Tempering Exact D) Unit) stage)
        (fun out => E out.2.subject.chains) = swapProb stage.subject.chains E := by
  rw [swap_apply, swapProb]
  split
  · change ∑ j : Fin (stage.subject.chains.length - 1),
      (1 / (stage.subject.chains.length - 1 : ℕ) : ℝ) * Rand.prob
        ((proposeSwap (j.val + 1) : Walk Exact (Tempering Exact D) Unit) stage)
          (fun out => E out.2.subject.chains) = _
    refine Finset.sum_congr rfl fun j _ => congrArg _ ?_
    exact prob_proposeSwap (List.getElem?_eq_getElem _) (List.getElem?_eq_getElem _) E
  · rfl

/-- The probability that a swap makes one exchange that changes something. -/
theorem swapProb_exchange (hi : i + 1 < chains.length)
    (hne : exchange i (i + 1) chains ≠ chains) :
    swapProb chains (fun cs => cs = exchange i (i + 1) chains) =
      1 / (chains.length - 1 : ℕ) * acceptChance (swapLogRatio chains[i] chains[i + 1]) := by
  rw [swapProb, if_pos (by omega), Finset.sum_eq_single ⟨i, by omega⟩]
  · rw [if_pos rfl, if_neg hne.symm, mul_one, mul_zero, add_zero]
  · intro j _ hj
    have hother : exchange j (j + 1) chains ≠ exchange i (i + 1) chains :=
      fun heq => hj (Fin.ext (eq_of_exchange_eq hi heq hne))
    rw [if_neg hother, if_neg hne.symm, mul_zero, mul_zero, add_zero, mul_zero]
  · exact fun hout => absurd (Finset.mem_univ _) hout

/-- Weighted by all chains, an exchange happens as often as the lesser of the weights before and
behind it says. -/
theorem weight_mul_swapProb (hregular : ∀ c ∈ chains, Regular c) (hi : i + 1 < chains.length)
    (hne : exchange i (i + 1) chains ≠ chains) :
    weight chains * swapProb chains (fun cs => cs = exchange i (i + 1) chains) =
      1 / (chains.length - 1 : ℕ) * min (weight chains) (weight (exchange i (i + 1) chains)) := by
  rw [swapProb_exchange hi hne]
  obtain ⟨pre, c, d, post, rfl, rfl⟩ := exists_neighbours hi
  have hc : Regular c := hregular c (by simp)
  have hd : Regular d := hregular d (by simp)
  have hc' : (pre ++ c :: d :: post)[pre.length] = c := by simp
  have hd' : (pre ++ c :: d :: post)[pre.length + 1] = d := by simp
  have hrest : 0 ≤ weight pre * weight post := mul_nonneg (weight_nonneg pre) (weight_nonneg post)
  rw [exchange_neighbours, weight_neighbours, weight_neighbours, hc', hd',
    ← mul_min_of_nonneg _ _ hrest, ← chainWeight_mul_acceptChance hc hd]
  ring

/-- The samples of regular chains may change places. -/
theorem regular_exchange (hregular : ∀ c ∈ chains, Regular c) (hi : i + 1 < chains.length) :
    ∀ c ∈ exchange i (i + 1) chains, Regular c := by
  obtain ⟨pre, c, d, post, rfl, rfl⟩ := exists_neighbours hi
  rw [exchange_neighbours]
  have hc : Regular c := hregular c (by simp)
  have hd : Regular d := hregular d (by simp)
  intro x hx
  rcases List.mem_append.mp hx with hx | hx
  · exact hregular x (List.mem_append_left _ hx)
  · rcases List.mem_cons.mp hx with rfl | hx
    · exact ⟨hc.prior, hc.likelihood, hd.temperable⟩
    · rcases List.mem_cons.mp hx with rfl | hx
      · exact ⟨hd.prior, hd.likelihood, hc.temperable⟩
      · exact hregular x (by simp [hx])

/-- One swap keeps the samples that the chains have together, and of each chain all but its current
sample; and weighted by the tempered posteriors of all chains, it goes from one state to that with
two neighbours exchanged as often as back. -/
theorem swap_reversible (hregular : ∀ c ∈ stage.subject.chains, Regular c) :
    (∀ r stage', Rand.Yields ((swap : Walk Exact (Tempering Exact D) Unit) stage) (r, stage') →
      r = .ok () ∧
        (stage'.subject.chains.map (·.current)).Perm (stage.subject.chains.map (·.current)) ∧
          SameApart stage.subject.chains stage'.subject.chains) ∧
      ∀ i, i + 1 < stage.subject.chains.length → ∀ stage' : Stage Exact (Tempering Exact D),
        stage'.subject.chains = exchange i (i + 1) stage.subject.chains →
          weight stage.subject.chains * Rand.prob (swap stage)
              (fun out => out.2.subject.chains = stage'.subject.chains) =
            weight stage'.subject.chains * Rand.prob (swap stage')
              (fun out => out.2.subject.chains = stage.subject.chains) := by
  constructor
  · intro r stage' h
    obtain ⟨rfl, hsame | ⟨i, hi, hexchange⟩⟩ := of_yields_swap h
    · rw [hsame]
      exact ⟨rfl, .refl _, .refl _⟩
    · rw [hexchange]
      exact ⟨rfl, perm_exchange hi, sameApart_exchange hi⟩
  · intro i hi stage' hexchange
    rw [prob_swap stage fun cs => cs = _, prob_swap stage' fun cs => cs = _, hexchange]
    by_cases hsame : exchange i (i + 1) stage.subject.chains = stage.subject.chains
    · rw [hsame]
    have hi' : i + 1 < (exchange i (i + 1) stage.subject.chains).length := by
      rwa [length_exchange hi]
    have hback := exchange_exchange hi
    have hmoved : exchange i (i + 1) (exchange i (i + 1) stage.subject.chains) ≠
        exchange i (i + 1) stage.subject.chains := by
      rw [hback]
      exact Ne.symm hsame
    have hreturn := weight_mul_swapProb (regular_exchange hregular hi) hi' hmoved
    rw [hback, length_exchange hi, min_comm] at hreturn
    rw [weight_mul_swapProb hregular hi hsame, hreturn]

section Terms

/-- A chain of the problem about terms at some temperature of the likelihood. -/
noncomputable def countingChain (x : Tree Exact) (temperature : ℝ) : Chain Exact ℕ :=
  { (Chain.countingStage .initial x).subject with temperatures := ⟨1, real temperature, 1⟩ }

theorem regular_countingChain (x : Tree Exact) {temperature : ℝ} (h : 0 < temperature) :
    Regular (countingChain x temperature) := by
  refine ⟨rfl, ⟨temperature, h, rfl⟩, ⟨.inl ⟨0, rfl⟩, fun _ => .inl ⟨-(2 * x.countNodes : ℕ), ?_⟩⟩⟩
  simp [countingChain, Chain.countingStage, Model.scoreWithPrior, zero_eq, Model.logLikelihood,
    Model.countedLikelihood, Chain.countingTerms, sumAbove]

/-- Two chains of the problem about terms, one of them at temperature `1`. -/
noncomputable def countingLadder (warmer : ℝ) : Stage Exact (Tempering Exact ℕ) :=
  ⟨⟨[countingChain Grammar.constantTerm 1, countingChain Grammar.identityTerm warmer],
    1, [], 0, 0⟩, ⟨1⟩, ⟨0, 0⟩, []⟩

/-- The constant and the function that returns its argument change places between the two chains as
often as back. -/
theorem swap_reversible_terms :
    let here := countingLadder 2
    let there := decideSwap 1 true here
    (∀ c ∈ here.subject.chains, Regular c) ∧ there.subject.chains ≠ here.subject.chains ∧
      weight here.subject.chains * Rand.prob (swap here)
          (fun out => out.2.subject.chains = there.subject.chains) =
        weight there.subject.chains * Rand.prob (swap there)
          (fun out => out.2.subject.chains = here.subject.chains) := by
  intro here there
  have hregular : ∀ c ∈ here.subject.chains, Regular c := by
    rintro c (_ | ⟨_, _ | ⟨_, ⟨⟩⟩⟩)
    · exact regular_countingChain _ one_pos
    · exact regular_countingChain _ two_pos
  have hmoved : there.subject.chains ≠ here.subject.chains := by
    intro heq
    have hnames : ["fn", "c"] = ["c", "fn"] :=
      congrArg (fun cs => cs.map fun c => c.current.tree.name) heq
    simp at hnames
  exact ⟨hregular, hmoved, (swap_reversible hregular).2 0 (by simp [here, countingLadder]) there rfl⟩

end Terms

end Balance

end ScopedGrammar.Tempering
