import ScopedGrammar.Proofs.Chain.Journey
import ScopedGrammar.Proofs.Chain.Onward

/-!
# The best posterior

A chain is to know the best posterior since it was made or restarted. It looks at the posterior of
its current sample before it moves on, and at that of a sample that it restarts from at once. So
what it knows is the best of all the samples that it held but the latest, and after a step to a
better sample it is out of date until the next step begins. After a restart from a sample without a
defined posterior nothing is ever better.
-/
namespace ScopedGrammar

open Exact

namespace Exact

/-- The largest number among some values that may be undefined; the lower infinity if there is
none. -/
structure IsBest (best : Exact) (values : List Exact) : Prop where
  defined : best ≠ nan
  upper : ∀ v ∈ values, v ≠ nan → Scalar.le v best = true
  attained : best ∈ values ∨ best = negInf ∧ ∀ v ∈ values, v = nan

namespace IsBest

variable {best v : Exact} {values : List Exact}

theorem nil : IsBest negInf [] := ⟨by simp, by simp, .inr ⟨rfl, by simp⟩⟩

theorem singleton (h : v ≠ nan) : IsBest v [v] :=
  ⟨h, by simpa using fun _ => Exact.le_refl h, .inl List.mem_cons_self⟩

theorem lt_eq_false (h : IsBest best values) (hv : v ∈ values) : Scalar.lt best v = false := by
  by_cases hnan : v = nan
  · rw [hnan, lt_nan]
  · exact (lt_eq_false_iff h.defined hnan).mpr (h.upper v hv hnan)

theorem cons_of_lt_eq_false (h : IsBest best values) (hv : Scalar.lt best v = false) :
    IsBest best (v :: values) := by
  have hle : v ≠ nan → Scalar.le v best = true := (lt_eq_false_iff h.defined · |>.mp hv)
  refine ⟨h.defined, by simpa using ⟨hle, h.upper⟩, ?_⟩
  rcases h.attained with hmem | ⟨rfl, hall⟩
  · exact .inl (List.mem_cons_of_mem v hmem)
  · by_cases hnan : v = nan
    · exact .inr ⟨rfl, by simpa using ⟨hnan, hall⟩⟩
    -- a number that is no better than the lower infinity is the lower infinity
    · have hleast : Scalar.le v negInf = true := hle hnan
      cases v <;> first | contradiction | exact .inl List.mem_cons_self

theorem cons_of_lt (h : IsBest best values) (hv : Scalar.lt best v = true) :
    IsBest v (v :: values) := by
  have hdefined : v ≠ nan := by
    rintro rfl
    rw [lt_nan] at hv
    cases hv
  refine ⟨hdefined, ?_, .inl List.mem_cons_self⟩
  rintro u (_ | ⟨_, hu⟩) hnan
  · exact Exact.le_refl hnan
  · exact Exact.le_trans (h.upper u hu hnan) (Exact.le_of_lt hv)

end IsBest

end Exact

namespace Chain

/-- The samples that a chain has held since it was made or restarted, the latest first. -/
structure Spell (K : Type) where
  held : List (Sample K)
  /-- It began with a restart. -/
  restarted : Bool

namespace Spell

variable {K D : Type}

/-- After a round the chain holds a sample once more; a restart begins a new spell. -/
def next (s : Spell K) (r : Round K D) : Spell K :=
  match r.event with
  | .restart (.ok ()) => ⟨[r.chain.current], true⟩
  | .restart (.error _) | .step _ => { s with held := r.chain.current :: s.held }

/-- The spell that a chain is in after some rounds. -/
def after (c : Chain K D) (rs : List (Round K D)) : Spell K := rs.foldl next ⟨[c.current], false⟩

/-- The samples that have been looked at: all but the latest, unless it was restarted from. -/
def noted (s : Spell K) : List (Sample K) :=
  if s.restarted && s.held.length == 1 then s.held else s.held.tail

/-- It began with a restart from a sample whose posterior is undefined. -/
def Undefined (s : Spell Exact) : Prop :=
  s.restarted = true ∧ ∃ first, s.held.getLast? = some first ∧ first.score.posterior = nan

end Spell

/-- The posteriors of samples. -/
def posteriors {K : Type} (samples : List (Sample K)) : List K := samples.map (·.score.posterior)

variable {D : Type} {c c' : Chain Exact D} {s : Spell Exact}

/-- A chain knows the best of the posteriors that it looked at, and nothing if it restarted from an
undefined one. -/
structure Tracks (c : Chain Exact D) (s : Spell Exact) : Prop where
  current : s.held.head? = some c.current
  best : ¬ s.Undefined → IsBest c.best (posteriors s.noted)
  undefined : s.Undefined → c.best = nan

namespace Tracks

theorem fresh (p : Problem Exact D) (sample : Sample Exact) (temperatures : Temperatures Exact) :
    Tracks { Chain.fresh p sample with temperatures } ⟨[sample], false⟩ :=
  ⟨rfl, fun _ => .nil, fun h => nomatch h.1⟩

/-- The latest sample comes first, and what was looked at is all or the rest. -/
theorem exists_held (h : Tracks c s) : ∃ earlier, s.held = c.current :: earlier ∧
    (s.noted = c.current :: earlier ∨ s.noted = earlier) := by
  obtain ⟨earlier, heq⟩ := List.head?_eq_some_iff.mp h.current
  refine ⟨earlier, heq, ?_⟩
  unfold Spell.noted
  rw [heq]
  split
  · exact .inl rfl
  · exact .inr rfl

/-- When it has been looked at the latest sample, the best posterior is that of all samples. -/
theorem trackImprovement (h : Tracks c s) (hdefined : ¬ s.Undefined) :
    IsBest c.trackImprovement.best (posteriors s.held) := by
  obtain ⟨earlier, hheld, hnoted⟩ := h.exists_held
  have hbest := h.best hdefined
  rw [hheld]
  unfold Chain.trackImprovement
  rcases hnoted with hnoted | hnoted
  · rw [hnoted] at hbest
    rw [if_neg (by rw [hbest.lt_eq_false List.mem_cons_self]; exact Bool.false_ne_true)]
    exact hbest
  · rw [hnoted] at hbest
    split
    · next hlt => exact hbest.cons_of_lt hlt
    · next hlt => exact hbest.cons_of_lt_eq_false (Bool.eq_false_iff.mpr hlt)

theorem trackImprovement_undefined (h : Tracks c s) (hundefined : s.Undefined) :
    c.trackImprovement.best = nan := by
  have hnan := h.undefined hundefined
  unfold Chain.trackImprovement
  rw [hnan, nan_lt, if_neg Bool.false_ne_true]

/-- A chain that has looked at the latest sample and then holds another one keeps track. -/
theorem hold (h : Tracks c s) (hbest : c'.best = c.trackImprovement.best) :
    Tracks c' { s with held := c'.current :: s.held } := by
  obtain ⟨earlier, hheld, -⟩ := h.exists_held
  have hnoted : Spell.noted { s with held := c'.current :: s.held } = s.held := by
    simp [Spell.noted, hheld]
  have hundefined : Spell.Undefined { s with held := c'.current :: s.held } ↔ s.Undefined := by
    simp [Spell.Undefined, hheld]
  refine ⟨rfl, fun hdefined => ?_, fun h' => ?_⟩
  · rw [hnoted, hbest]
    exact h.trackImprovement (mt hundefined.mpr hdefined)
  · rw [hbest]
    exact h.trackImprovement_undefined (hundefined.mp h')

theorem passes (h : Tracks c s) {patience : ℕ} {event : Event}
    (hpasses : Passes patience c event c') : Tracks c' (s.next ⟨patience, event, c'⟩) := by
  cases hpasses with
  | stepped hdue accepted candidate => cases accepted <;> exact h.hold rfl
  | restarted hdue fresh =>
    refine ⟨rfl, fun hdefined => .singleton fun hnan => ?_, fun ⟨_, first, hfirst, hnan⟩ => ?_⟩
    · exact hdefined ⟨rfl, fresh, rfl, hnan⟩
    · obtain rfl : fresh = first := Option.some.inj hfirst
      exact hnan
  | stepFailed | kept | brokeOff => exact h.hold rfl

theorem path (h : Tracks c s) {rs : List (Round Exact D)} (hpath : Path c rs c') :
    Tracks c' (rs.foldl Spell.next s) :=
  hpath.foldl (fun htracks hpasses => htracks.passes hpasses) h

/-- A chain knows the best posterior of all the samples that it held exactly if it did not restart
from an undefined one and its current sample is no better than what it knows. -/
theorem isBest_held_iff (h : Tracks c s) : IsBest c.best (posteriors s.held) ↔
    ¬ s.Undefined ∧ Scalar.lt c.best c.current.score.posterior = false := by
  obtain ⟨earlier, hheld, hnoted⟩ := h.exists_held
  constructor
  · intro hbest
    refine ⟨fun hundefined => hbest.defined (h.undefined hundefined), hbest.lt_eq_false ?_⟩
    rw [hheld]
    exact List.mem_cons_self
  · rintro ⟨hdefined, hlt⟩
    have hbest := h.best hdefined
    rcases hnoted with hnoted | hnoted
    · rwa [hnoted, ← hheld] at hbest
    · rw [hnoted] at hbest
      rw [hheld]
      exact hbest.cons_of_lt_eq_false hlt

end Tracks

/-- A chain that is made and then driven on, however often and under whatever controls, goes through
rounds under these controls. Whatever they come to, the chain knows the best posterior of the
samples that it looked at: all that it held since it was made or restarted but the latest, unless
that is the one it restarted from. This is the best of all that it held exactly if the latest is no
better. After a restart from a sample with an undefined posterior it knows nothing. -/
theorem best_of_noted {σ : Type} {P : Problem Exact D} {make : Walk Exact σ (Chain Exact D)}
    (hmake : make = ofPrior P ∨ ∃ t, make = ofTree P t) {start made : Stage Exact σ}
    (hmade : Rand.Yields (make start) (.ok c, made)) (temperatures : Temperatures Exact)
    (drives : List Drive) : ∃ legs : List (Control × ℕ),
      legs.map (·.1) = drives.map Drive.control ∧
      (∀ stage : Stage Exact (Chain Exact D), Walk.callAll (drives.map Drive.make) stage =
        (journey legs stage).bind fun (_, ended) => .done ((), ended)) ∧
      ∀ rs ended, Rand.Yields (journey legs
          ⟨{ c with temperatures }, made.names, made.tally, made.records⟩) (rs, ended) →
        let s := Spell.after c rs
        s.held.head? = some ended.subject.current ∧
        (¬ s.Undefined → IsBest ended.subject.best (posteriors s.noted)) ∧
        (s.Undefined → ended.subject.best = nan) ∧
        (IsBest ended.subject.best (posteriors s.held) ↔ ¬ s.Undefined ∧
          Scalar.lt ended.subject.best ended.subject.current.score.posterior = false) := by
  obtain ⟨legs, hcontrols, hlegs⟩ := exists_journey (K := Exact) (D := D) drives
  refine ⟨legs, hcontrols, hlegs, fun rs ended hyields => ?_⟩
  obtain ⟨sample, rfl⟩ := exists_eq_fresh hmake hmade
  have htracks : Tracks ended.subject (Spell.after (fresh P sample) rs) :=
    (Tracks.fresh P sample temperatures).path (path_of_yields_journey hyields).1
  exact ⟨htracks.current, htracks.best, htracks.undefined, htracks.isBest_held_iff⟩

/-- A chain about terms is run, and then driven on under another control. -/
theorem best_of_noted_terms :
    let P := countingTermsBy .regeneration
    let drives : List Drive := [.run (.ofFields 3 0 0 2 0), .advance (.ofFields 0 1 2 0 0)]
    ∃ make c made legs rs ended, (make = ofPrior P ∨ ∃ t, make = ofTree P t) ∧
      Rand.Yields ((make : Walk Exact Unit _) ⟨(), ⟨1⟩, ⟨0, 0⟩, []⟩) (.ok c, made) ∧
      legs.map (·.1) = drives.map Drive.control ∧
      Rand.Yields (journey legs ⟨{ c with temperatures := ⟨1, real 2, 1⟩ }, made.names, made.tally,
        made.records⟩) (rs, ended) ∧
      (¬ (Spell.after c rs).Undefined →
        IsBest ended.subject.best (posteriors (Spell.after c rs).noted)) := by
  intro P drives
  obtain ⟨tally, hmade⟩ := exists_ofTree_countingTermsBy .regeneration Grammar.identityTerm ⟨1⟩
  obtain ⟨legs, hcontrols, -, hbest⟩ :=
    best_of_noted (.inr ⟨_, rfl⟩) hmade ⟨1, real 2, 1⟩ drives
  obtain ⟨⟨rs, ended⟩, hyields⟩ := Rand.exists_yields (journey legs ⟨{ (fresh P
    (countingSample Grammar.identityTerm)) with temperatures := ⟨1, real 2, 1⟩ }, ⟨1⟩, tally, []⟩)
  exact ⟨_, _, _, legs, rs, ended, .inr ⟨_, rfl⟩, hmade, hcontrols, hyields,
    (hbest rs ended hyields).2.1⟩

/-- A step that regenerates may come to a better sample, and then the run that it ends leaves the
best posterior behind. -/
theorem not_isBest_terms :
    let P := countingTermsBy .regeneration
    ∃ c made reported ended,
      Rand.Yields ((ofTree P Grammar.identityTerm : Walk Exact Unit _) ⟨(), ⟨1⟩, ⟨0, 0⟩, []⟩)
        (.ok c, made) ∧
      Rand.Yields (run (.ofFields 1 0 0 0 0) ⟨c, made.names, made.tally, made.records⟩)
        (⟨reported, none⟩, ended) ∧
      c.current.score.posterior = real (-4) ∧ ended.subject.current.score.posterior = real (-2) ∧
      ended.subject.best = real (-4) ∧
      ¬ IsBest ended.subject.best (posteriors [ended.subject.current, c.current]) := by
  intro P
  let here := countingSample Grammar.identityTerm
  let there := countingSample Grammar.constantTerm
  obtain ⟨tally, hmade⟩ := exists_ofTree_countingTermsBy .regeneration Grammar.identityTerm ⟨1⟩
  have hhere : here.score.posterior = real (-4) := by
    rw [posterior_countingSample]
    norm_num [Grammar.identityTerm, Tree.countNodes, Tree.countNodesArgs]
  have hthere : there.score.posterior = real (-2) := by
    rw [posterior_countingSample]
    norm_num [Grammar.constantTerm, Tree.countNodes]
  -- the round looks at the function first
  obtain ⟨hproblem, hcurrent⟩ := trackImprovement_eq (fresh P here)
  have hbest : (fresh P here).trackImprovement.best = real (-4) := by
    have hlt : Scalar.lt negInf here.score.posterior = true := by rw [hhere, negInf_lt_real]
    unfold trackImprovement
    rw [fresh, negInf_eq, if_pos hlt]
    exact hhere
  obtain ⟨t, fb, names, hmoved, -, hvar⟩ := Proposer.exists_moved (p := P.proposer) (g := P.grammar)
    ⟨Grammar.distinctSignatures_terms, Grammar.plainNames_terms.noReservedNames,
      Grammar.positiveWeights_terms⟩ rfl trivial Grammar.derivable_identityTerm
    ((Grammar.generable_constantTerm ⟨0⟩).derivable Grammar.plainNames_terms)
    Grammar.complete_constantTerm (by decide) rfl
  obtain rfl := Grammar.eq_constantTerm hvar
  have hunlike : Grammar.constantTerm.alike here.tree = false := rfl
  have hscore := scoreOf_apply (c := (fresh P here).trackImprovement.countProposal)
    (t := Grammar.constantTerm) (by rw [countProposal, hproblem]; rfl)
    (by rw [countProposal, hcurrent]; exact ne_true_of_eq_false hunlike)
    (by rw [countProposal, hproblem]; exact (logPosterior_countingTerms Grammar.constantTerm).1)
    ⟨(fresh P here).trackImprovement.countProposal, names, tally, []⟩
  let ctl : Control := .ofFields 1 0 0 0 0
  have hsteps : 0 < ctl.steps := by decide
  obtain ⟨ended, hround, hsubject⟩ := exists_round_of_scored ctl
    ⟨fresh P here, ⟨1⟩, tally, []⟩ rfl hmoved hscore
  have hmovedTo : ended.subject.current = there := by
    rw [hsubject]
    rfl
  have hknown : ended.subject.best = (fresh P here).trackImprovement.best := by
    rw [hsubject]
    rfl
  have hrounds : Rand.Yields (rounds ctl ctl.steps ⟨fresh P here, ⟨1⟩, tally, []⟩)
      ([⟨ctl.restart, .step (.ok true), ended.subject⟩], ended) :=
    (Rand.yields_bind ..).mpr ⟨_, hround, rfl⟩
  refine ⟨_, _, due ctl 0 [⟨ctl.restart, .step (.ok true), ended.subject⟩], ended, hmade, ?_, hhere,
    ?_, hknown.trans hbest, fun hisBest => ?_⟩
  · rw [run_eq_rounds hsteps, Rand.yields_bind]
    exact ⟨_, hrounds, rfl⟩
  · rw [hmovedTo]
    exact hthere
  · have hmem : there.score.posterior ∈
        posteriors [ended.subject.current, (fresh P here).current] := by
      rw [hmovedTo]
      exact List.mem_cons_self
    have hlt := hisBest.lt_eq_false hmem
    rw [hknown, hbest, hthere, ← Bool.not_eq_true, lt_real] at hlt
    norm_num at hlt

end Chain

end ScopedGrammar
