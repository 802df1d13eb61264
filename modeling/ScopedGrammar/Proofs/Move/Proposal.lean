import ScopedGrammar.Proofs.Move.Closure
import ScopedGrammar.Proofs.Random.Reading

/-!
# Proposals

An attempt to move a derivable tree never fails for good. If it comes to a tree, that tree is
derivable, the kernel gives it a positive probability, and the log-ratio of getting there and back
is a number, or infinite if there is no way back. This holds on every stream of words, since a
stream only comes to outcomes of positive probability.
-/
namespace ScopedGrammar.Proposer

open Exact

section Sampler

variable {K : Type} [Scalar K]

/-- An attempt takes a recoverable failure of the kernel for its result, and scores a tree in both
directions. -/
theorem proposeOnce_apply (p : Proposer K) (g : Grammar K) (t : Tree K) (s : NameSupply) :
    p.proposeOnce g t s = (p.proposeTree g t s).bind fun
      | (.ok t', s') =>
          .done (((p.forwardBackward g t t').map (Attempt.moved t')).mapError .grammar, s')
      | (.error e, s') =>
          .done (if e.isRecoverable then .ok (.failed e) else .error e, s') := by
  rw [proposeOnce, Sampler.bind_apply, Sampler.tryCatch_apply, Sampler.bind_apply,
    Rand.bind_assoc, Rand.bind_assoc]
  refine congrArg (Rand.bind (p.proposeTree g t s)) (funext fun ⟨r, s'⟩ => ?_)
  cases r with
  | error e =>
    dsimp only [Rand.done_bind]
    by_cases he : e.isRecoverable = true
    · rw [if_pos he, if_pos he]
      rfl
    · rw [if_neg he, if_neg he]
      rfl
  | ok t' =>
    change (Sampler.ofGrammar (p.forwardBackward g t t') >>= fun fb =>
      pure (Attempt.moved t' fb) : Sampler K _) s' =
        .done (((p.forwardBackward g t t').map (Attempt.moved t')).mapError .grammar, s')
    cases p.forwardBackward g t t' <;> rfl

theorem yields_moved {p : Proposer K} {g : Grammar K} {s s' : NameSupply} {x t : Tree K} {fb : K}
    (hmade : (p.proposeTree g x).Yields s (.ok t) s') (hfb : p.forwardBackward g x t = .ok fb) :
    (p.proposeOnce g x).Yields s (.ok (.moved t fb)) s' := by
  rw [Sampler.Yields, proposeOnce_apply, Rand.yields_bind]
  refine ⟨(.ok t, s'), hmade, ?_⟩
  dsimp only
  rw [hfb]
  rfl

theorem forwardBackward_eq {p : Proposer K} {g : Grammar K} {x t : Tree K} {lp lp' : K} (h : p.logProbability g x t = .ok lp)
    (h' : p.logProbability g t x = .ok lp') : p.forwardBackward g x t = .ok (lp - lp') := by
  rw [forwardBackward, h, h']
  rfl

/-- An attempt keeps trees derivable, whatever its kernel draws by. -/
theorem leads_proposeOnce {p : Proposer K} {g : Grammar K} {s : NameSupply} {x : Tree K}
    (hplain : g.PlainNames) (hx : g.Derivable s x) :
    (p.proposeOnce g x).Leads s fun attempt s' => ∀ t fb, attempt = .moved t fb → g.Kept x t s' := by
  intro r s' hr
  rw [Sampler.Yields, proposeOnce_apply, Rand.yields_bind] at hr
  obtain ⟨⟨r', s''⟩, hmade, hr⟩ := hr
  obtain ⟨hle, hok⟩ := Kernel.leads_propose hplain hx p.kernel r' s'' hmade
  cases r' with
  | error e =>
    have hout : (if e.isRecoverable then .ok (.failed e) else .error e, s'') = (r, s') := hr
    obtain ⟨rfl, rfl⟩ := Prod.mk.inj hout
    refine ⟨hle, fun attempt ha t fb hmoved => ?_⟩
    subst hmoved
    split at ha <;> cases ha
  | ok t' =>
    have hout : (((p.forwardBackward g x t').map (Attempt.moved t')).mapError .grammar, s'') =
      (r, s') := hr
    obtain ⟨rfl, rfl⟩ := Prod.mk.inj hout
    refine ⟨hle, fun attempt ha t fb hmoved => ?_⟩
    subst hmoved
    cases hfb : p.forwardBackward g x t' with
    | error e =>
      rw [hfb] at ha
      cases ha
    | ok fb' =>
      rw [hfb] at ha
      cases ha
      exact hok t' rfl

end Sampler

variable {p : Proposer Exact} {g : Grammar Exact} {s names : NameSupply} {x t : Tree Exact}

/-- If nothing is gained from failed attempts, an attempt counts as the trees that are made. -/
theorem mean_proposeOnce
    {φ : Attempt Exact → NameSupply → ℝ} (hfailed : ∀ e s', φ (.failed e) s' = 0)
    (s : NameSupply) : (p.proposeOnce g x).mean s φ = (p.proposeTree g x).mean s fun t s' =>
      match p.forwardBackward g x t with
      | .ok fb => φ (.moved t fb) s'
      | .error _ => 0 := by
  rw [Sampler.mean, proposeOnce_apply, Rand.mean_bind]
  refine congrArg (Rand.mean (p.proposeTree g x s)) (funext fun out => ?_)
  obtain ⟨r, s'⟩ := out
  cases r with
  | ok t =>
    dsimp only
    cases p.forwardBackward g x t <;> rfl
  | error e =>
    dsimp only
    split_ifs
    · exact hfailed e s'
    · rfl

/-- The assumptions under which a proposer moves between derivable trees: the grammar can be scored
and its names are plain, and every choice of the proposer is by proper weights. -/
structure Sound (p : Proposer Exact) (g : Grammar Exact) : Prop where
  proper : g.Proper
  plain : g.PlainNames
  kernel : p.kernel.WellWeighted
  sites : p.sites.Nonneg

/-- The score of a move between derivable trees rates its probability. -/
theorem Sound.rates (h : p.Sound g) (hx : g.Derivable s x) (ht : g.Derivable names t) :
    ∃ lp, p.logProbability g x t = .ok lp ∧
      Rates (g.Reaches x t) lp ((p.proposeTree g x).prob s fun t' => t'.Variant t) :=
  Kernel.rates_propose h.kernel h.proper h.plain h.sites hx ht

/-- An attempt never fails. A tree that it moves to is derivable from the same nonterminal and has
been scored in both directions. -/
theorem Sound.of_yields (h : p.Sound g) (hx : g.Derivable s x)
    {r : Except SampleError (Attempt Exact)} {s' : NameSupply}
    (hr : (p.proposeOnce g x).Yields s r s') : s.issued ≤ s'.issued ∧ ∃ attempt, r = .ok attempt ∧
      ∀ t fb, attempt = .moved t fb →
        g.Derivable s' t ∧ t.nonterminal = x.nonterminal ∧ p.forwardBackward g x t = .ok fb := by
  rw [Sampler.Yields, proposeOnce_apply, Rand.yields_bind] at hr
  obtain ⟨⟨r', s''⟩, hmade, hr⟩ := hr
  obtain ⟨hle, hok, herror⟩ :=
    Kernel.keeps_propose h.kernel h.proper h.plain h.sites hx r' s'' hmade
  cases r' with
  | error e =>
    dsimp only at hr
    rw [if_pos (herror e rfl)] at hr
    obtain ⟨rfl, rfl⟩ := Prod.mk.inj hr
    exact ⟨hle, .failed e, rfl, fun t fb hmoved => by cases hmoved⟩
  | ok t =>
    obtain ⟨ht, hnt, -⟩ := hok t rfl
    obtain ⟨lp, hlp, -⟩ := h.rates hx ht
    obtain ⟨lp', hlp', -⟩ := h.rates ht hx
    have hfb := forwardBackward_eq hlp hlp'
    dsimp only at hr
    rw [hfb] at hr
    obtain ⟨rfl, rfl⟩ := Prod.mk.inj hr
    refine ⟨hle, .moved t (lp - lp'), rfl, fun t' fb hmoved => ?_⟩
    cases hmoved
    exact ⟨ht, hnt, hfb⟩

/-- Where a tree is made with positive probability, its score is a real number, and the log-ratio
does not run into a difference of infinities. -/
theorem Sound.forwardBackward_ne (h : p.Sound g) (hx : g.Derivable s x) (ht : g.Derivable names t)
    (hpos : 0 < (p.proposeTree g x).prob s fun t' => t'.Variant t) {fb : Exact}
    (hfb : p.forwardBackward g x t = .ok fb) :
    (∃ l, p.logProbability g x t = .ok (real l)) ∧ fb ≠ nan ∧ fb ≠ negInf := by
  obtain ⟨lp, hlp, hrates⟩ := h.rates hx ht
  obtain ⟨lp', hlp', hrates'⟩ := h.rates ht hx
  obtain ⟨l, rfl⟩ := hrates.ne_negInf hpos
  rw [forwardBackward_eq hlp hlp'] at hfb
  cases hfb
  refine ⟨⟨l, hlp⟩, ?_⟩
  rcases hrates'.real_or_negInf with ⟨l', rfl⟩ | rfl
  · simp
  · simp

/-- A tree that an attempt moves to on some stream of words is made with positive probability. -/
theorem prob_pos_of_moved {ws : Words} {s' : NameSupply} {fb : Exact}
    (h : ((p.proposeOnce g x s).runExactly ws).1 = (.ok (.moved t fb), s')) :
    0 < (p.proposeTree g x).prob s fun t' => t'.Variant t := by
  suffices hmade : ∃ t', (((p.proposeTree g x s).runExactly ws).1.1 = .ok t' ∧ t'.Variant t) from
    Rand.prob_runExactly_pos hmade
  refine ⟨t, ?_, .refl t⟩
  rw [proposeOnce_apply, Rand.runExactly_bind] at h
  generalize (p.proposeTree g x s).runExactly ws = outcome at h
  obtain ⟨⟨r, s''⟩, ws'⟩ := outcome
  cases r with
  | error e =>
    change (if e.isRecoverable then Except.ok (Attempt.failed e) else .error e, s'') = _ at h
    split_ifs at h <;> cases h
  | ok t' =>
    change (((p.forwardBackward g x t').map (Attempt.moved t')).mapError _, s'') = _ at h
    cases hfb : p.forwardBackward g x t' with
    | error e =>
      rw [hfb] at h
      cases h
    | ok fb' =>
      rw [hfb] at h
      cases h
      rfl

/-- What an attempt is to come to: names are only added, and a tree that it moves to is derivable
from the same nonterminal, has a real score, and a log-ratio that is neither undefined nor the lower
infinity. -/
structure Comes (p : Proposer Exact) (g : Grammar Exact) (x : Tree Exact) (s : NameSupply)
    (attempt : Attempt Exact) (s' : NameSupply) : Prop where
  issued_le : s.issued ≤ s'.issued
  moved : ∀ t fb, attempt = .moved t fb → g.Derivable s' t ∧ t.nonterminal = x.nonterminal ∧
    (∃ l, p.logProbability g x t = .ok (real l)) ∧ fb ≠ nan ∧ fb ≠ negInf

theorem Sound.comes (h : p.Sound g) (hx : g.Derivable s x) (ws : Words) :
    ∃ attempt s', ((p.proposeOnce g x s).runExactly ws).1 = (.ok attempt, s') ∧
      p.Comes g x s attempt s' := by
  have hyields := Rand.yields_runExactly (p.proposeOnce g x s) ws
  cases hrun : ((p.proposeOnce g x s).runExactly ws).1 with
  | mk r s' =>
    rw [hrun] at hyields
    obtain ⟨hle, attempt, rfl, hmoved⟩ := h.of_yields hx hyields
    refine ⟨attempt, s', rfl, hle, fun t fb hattempt => ?_⟩
    obtain ⟨ht, hnt, hfb⟩ := hmoved t fb hattempt
    subst hattempt
    exact ⟨ht, hnt, h.forwardBackward_ne hx ht (prob_pos_of_moved hrun) hfb⟩

end ScopedGrammar.Proposer
