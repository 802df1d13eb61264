import ScopedGrammar.Proofs.Chain.Journey
import ScopedGrammar.Proofs.Chain.Stuck

/-!
# Patience

A chain that has taken so many steps without improvement is to restart. It counts a step when the
next one begins, and it begins to count anew at an improvement, which it notices one step late, and
at a restart, which it notices at once. So after an improvement it takes one step more than after a
restart before it restarts.
-/
namespace ScopedGrammar.Chain

open Exact

/-- How long a chain has waited for an improvement. -/
structure Wait where
  /-- The best posterior that it has held since it was made or restarted. -/
  best : Exact
  /-- The steps since it first held that posterior, or tried to restart if it did so later. A restart
  that breaks off counts as a step. -/
  steps : ℕ
  /-- It did not try to restart since it first held that posterior. -/
  improved : Bool

namespace Wait

variable {D : Type}

/-- After a step the chain may have improved; after a restart, or one that was made up for, it
begins to wait anew. -/
noncomputable def next (w : Wait) (r : Round Exact D) : Wait :=
  match r.event with
  | .step _ =>
      if Scalar.lt w.best r.chain.current.score.posterior then
        ⟨r.chain.current.score.posterior, 0, true⟩
      else { w with steps := w.steps + 1 }
  | .restart (.ok ()) => ⟨r.chain.current.score.posterior, 0, false⟩
  | .restart (.error e) =>
      if e.isRecoverable then ⟨w.best, 0, false⟩ else { w with steps := w.steps + 1 }

theorem next_of_recoverable {e : SampleError} (h : e.isRecoverable = true) (w : Wait) (patience : ℕ)
    (c : Chain Exact D) : w.next ⟨patience, .restart (.error e), c⟩ = ⟨w.best, 0, false⟩ :=
  if_pos h

theorem next_of_not_recoverable {e : SampleError} (h : e.isRecoverable = false) (w : Wait)
    (patience : ℕ) (c : Chain Exact D) :
    w.next ⟨patience, .restart (.error e), c⟩ = { w with steps := w.steps + 1 } :=
  if_neg (ne_true_of_eq_false h)

/-- How long a chain has waited by what it counts: not at all, if it has not noticed yet that its
sample is better than all before. -/
noncomputable def start (c : Chain Exact D) : Wait :=
  if Scalar.lt c.best c.current.score.posterior then ⟨c.current.score.posterior, 0, true⟩
  else ⟨c.best, c.stepsSinceImprovement, false⟩

/-- How long a chain has waited after some rounds. -/
noncomputable def after (c : Chain Exact D) (rs : List (Round Exact D)) : Wait :=
  rs.foldl next (start c)

/-- One step more is allowed after an improvement. -/
def grace (w : Wait) : ℕ := if w.improved then 1 else 0

end Wait

variable {D : Type} {c c' : Chain Exact D} {w : Wait} {patience : ℕ} {event : Event}

theorem overdue_eq_false (h : c.stepsSinceImprovement < patience) :
    overdue patience c.trackImprovement = false := by
  have hle : ¬ patience < c.trackImprovement.stepsSinceImprovement := by
    unfold trackImprovement
    split
    · exact Nat.not_lt_zero _
    · exact Nat.not_lt.mpr h
  rw [overdue, decide_eq_false hle, Bool.and_false]

/-- What a chain counts fits how long it has waited, once it has looked at its current sample. -/
structure Counts (c : Chain Exact D) (w : Wait) : Prop where
  best : c.trackImprovement.best = w.best
  steps : c.trackImprovement.stepsSinceImprovement + w.grace = w.steps + 1
  upper : Scalar.lt w.best c.current.score.posterior = false

namespace Counts

theorem start (c : Chain Exact D) : Counts c (.start c) := by
  unfold Wait.start
  split
  · next hlt =>
    refine ⟨?_, ?_, lt_self_eq_false _⟩
    · rw [trackImprovement, if_pos hlt]
    · rw [trackImprovement, if_pos hlt]
      rfl
  · next hlt =>
    refine ⟨?_, ?_, Bool.eq_false_iff.mpr hlt⟩
    · rw [trackImprovement, if_neg hlt]
    · rw [trackImprovement, if_neg hlt]
      rfl

/-- A chain that has looked at its sample and then has one that is no better waits for longer. -/
theorem wait (h : Counts c w) (hbest : c'.best = c.trackImprovement.best)
    (hsteps : c'.stepsSinceImprovement = c.trackImprovement.stepsSinceImprovement)
    (hupper : Scalar.lt w.best c'.current.score.posterior = false) :
    Counts c' { w with steps := w.steps + 1 } := by
  have hold : c'.best = w.best := hbest.trans h.best
  have hlt : ¬ Scalar.lt w.best c'.current.score.posterior = true := by
    rw [hupper]
    exact Bool.false_ne_true
  refine ⟨?_, ?_, hupper⟩
  · rw [trackImprovement, hold, if_neg hlt]
  · have hcount := h.steps
    rw [trackImprovement, hold, if_neg hlt]
    change c'.stepsSinceImprovement + 1 + w.grace = w.steps + 1 + 1
    omega

/-- A chain that has looked at its sample takes another one, or none, by a step. -/
theorem step (h : Counts c w) (hbest : c'.best = c.trackImprovement.best)
    (hsteps : c'.stepsSinceImprovement = c.trackImprovement.stepsSinceImprovement)
    (outcome : Except SampleError Bool) :
    Counts c' (w.next ⟨patience, .step outcome, c'⟩) := by
  unfold Wait.next
  dsimp only
  split
  · next hlt =>
    have hold : c'.best = w.best := hbest.trans h.best
    refine ⟨?_, ?_, lt_self_eq_false _⟩
    · rw [trackImprovement, hold, if_pos hlt]
    · rw [trackImprovement, hold, if_pos hlt]
      rfl
  · next hlt => exact h.wait hbest hsteps (Bool.eq_false_iff.mpr hlt)

theorem restart {best : Exact} (hbest : c'.best = best) (hsteps : c'.stepsSinceImprovement = 0)
    (hupper : Scalar.lt best c'.current.score.posterior = false) : Counts c' ⟨best, 0, false⟩ := by
  subst hbest
  have hlt : ¬ Scalar.lt c'.best c'.current.score.posterior = true := by
    rw [hupper]
    exact Bool.false_ne_true
  refine ⟨?_, ?_, hupper⟩
  · rw [trackImprovement, if_neg hlt]
  · rw [trackImprovement, if_neg hlt, hsteps]
    rfl

theorem passes (h : Counts c w) (hpasses : Passes patience c event c') :
    Counts c' (w.next ⟨patience, event, c'⟩) := by
  have hupper : Scalar.lt w.best c.trackImprovement.current.score.posterior = false := by
    rw [(trackImprovement_eq c).2]
    exact h.upper
  cases hpasses with
  | stepped hdue accepted candidate => cases accepted <;> exact h.step (by rfl) (by rfl) _
  | stepFailed hdue e => exact h.step (by rfl) (by rfl) _
  | restarted hdue fresh => exact restart rfl rfl (lt_self_eq_false _)
  | kept hdue e hrecoverable =>
    rw [Wait.next_of_recoverable hrecoverable]
    exact restart h.best rfl hupper
  | brokeOff hdue e hrecoverable =>
    rw [Wait.next_of_not_recoverable hrecoverable]
    exact h.wait rfl rfl hupper

theorem path (h : Counts c w) {rs : List (Round Exact D)} (hpath : Path c rs c') :
    Counts c' (rs.foldl Wait.next w) :=
  hpath.foldl (fun hcounts hpasses => hcounts.passes hpasses) h

/-- A chain restarts exactly if it has waited as long as it has patience, and after an improvement
one step longer. -/
theorem isRestart_iff (h : Counts c w) (hpasses : Passes patience c event c') :
    event.isRestart = true ↔ 0 < patience ∧ patience + w.grace ≤ w.steps := by
  have hcount := h.steps
  have hoverdue : overdue patience c.trackImprovement = true ↔
      0 < patience ∧ patience + w.grace ≤ w.steps := by
    simp only [overdue, Bool.and_eq_true, decide_eq_true_eq]
    omega
  rw [← hoverdue]
  cases hpasses with
  | stepped hdue | stepFailed hdue => simp [Event.isRestart, hdue]
  | restarted hdue | kept hdue | brokeOff hdue => simp [Event.isRestart, hdue]

end Counts

/-- Under one patience and without failures no chain waits for longer than it has patience, and one
step longer after an improvement. -/
theorem Wait.steps_le_of_passes (h : Counts c w) (hpasses : Passes patience c event c')
    (hnone : event.failure? = none) (hpatience : 0 < patience) :
    (w.next ⟨patience, event, c'⟩).steps ≤ patience + (w.next ⟨patience, event, c'⟩).grace := by
  have hiff := h.isRestart_iff hpasses
  cases event with
  | step outcome =>
    have hlt : ¬ patience + w.grace ≤ w.steps := fun hge => nomatch hiff.mpr ⟨hpatience, hge⟩
    unfold Wait.next
    dsimp only
    split
    · exact Nat.zero_le _
    · change w.steps + 1 ≤ patience + w.grace
      omega
  | restart outcome =>
    cases outcome with
    | ok u => exact Nat.zero_le _
    | error e =>
      cases hrecoverable : e.isRecoverable with
      | true =>
        rw [Wait.next_of_recoverable hrecoverable]
        exact Nat.zero_le _
      | false =>
        rw [Event.failure?, hrecoverable] at hnone
        cases hnone

theorem Wait.steps_le_of_path (h : Counts c w) {rs : List (Round Exact D)} (hpath : Path c rs c')
    (hrs : ∀ r ∈ rs, r.patience = patience ∧ r.event.failure? = none) (hpatience : 0 < patience)
    (hle : w.steps ≤ patience + w.grace) :
    (rs.foldl Wait.next w).steps ≤ patience + (rs.foldl Wait.next w).grace := by
  induction hpath generalizing w with
  | nil c => exact hle
  | @cons c c' r rs hpasses _ ih =>
    obtain ⟨rfl, hnone⟩ := hrs r List.mem_cons_self
    exact ih (h.passes hpasses) (fun r' hr' => hrs r' (List.mem_cons_of_mem r hr'))
      (steps_le_of_passes h hpasses hnone hpatience)

theorem Wait.start_of_made {σ : Type} {P : Problem Exact D} {make : Walk Exact σ (Chain Exact D)}
    (hmake : make = ofPrior P ∨ ∃ t, make = ofTree P t) {start made : Stage Exact σ}
    (hmade : Rand.Yields (make start) (.ok c, made)) {x : ℝ}
    (hfinite : c.current.score.posterior = real x) (temperatures : Temperatures Exact) :
    Wait.start { c with temperatures } = ⟨real x, 0, true⟩ := by
  obtain ⟨sample, rfl⟩ := exists_eq_fresh hmake hmade
  have hlt : Scalar.lt (negInf : Exact) (real x) = true := negInf_lt_real x
  unfold Wait.start
  dsimp only
  rw [hfinite]
  exact if_pos hlt

/-- A chain that is driven on, however often and under whatever controls, tries to restart in a
round exactly if it has patience for some number of steps and has waited for as many, or for one
more if it waits since an improvement. Under one patience and without failures these are just that
many. A chain that is made from a tree with a finite posterior begins to wait with this tree, as for
an improvement. -/
theorem restarts_iff_waited (drives : List Drive) : ∃ legs : List (Control × ℕ),
    legs.map (·.1) = drives.map Drive.control ∧
    (∀ stage : Stage Exact (Chain Exact D), Walk.callAll (drives.map Drive.make) stage =
      (journey legs stage).bind fun (_, ended) => .done ((), ended)) ∧
    (∀ (stage : Stage Exact (Chain Exact D)) rs ended,
      Rand.Yields (journey legs stage) (rs, ended) →
        (∀ r ∈ rs, r.patience ∈ drives.map (·.control.restart)) ∧
        ∀ earlier r later, rs = earlier ++ r :: later →
          let w := Wait.after stage.subject earlier
          (r.event.isRestart = true ↔ 0 < r.patience ∧ r.patience + w.grace ≤ w.steps) ∧
          ((Wait.start stage.subject).steps ≤ r.patience →
            (∀ r' ∈ earlier, r'.patience = r.patience ∧ r'.event.failure? = none) →
            (r.event.isRestart = true ↔ 0 < r.patience ∧ w.steps = r.patience + w.grace))) ∧
    ∀ (P : Problem Exact D) (make : Walk Exact Unit (Chain Exact D)),
      make = ofPrior P ∨ (∃ t, make = ofTree P t) → ∀ start c made,
        Rand.Yields (make start) (.ok c, made) → ∀ x, c.current.score.posterior = real x →
          ∀ temperatures, Wait.start { c with temperatures } = ⟨real x, 0, true⟩ := by
  obtain ⟨legs, hcontrols, hlegs⟩ := exists_journey (K := Exact) (D := D) drives
  refine ⟨legs, hcontrols, hlegs, fun stage rs ended hyields => ?_, ?_⟩
  · obtain ⟨hpath, hpatience⟩ := path_of_yields_journey hyields
    have hrestarts : legs.map (·.1.restart) = drives.map (·.control.restart) := by
      have hmap := congrArg (List.map Control.restart) hcontrols
      rwa [List.map_map, List.map_map] at hmap
    refine ⟨fun r hr => hrestarts ▸ hpatience r hr, fun earlier r later heq => ?_⟩
    subst heq
    obtain ⟨between, hearlier, hpasses⟩ := hpath.split
    have hstart := Counts.start stage.subject
    have hiff := (hstart.path hearlier).isRestart_iff hpasses
    refine ⟨hiff, fun hbegin hrs => hiff.trans (and_congr_right fun hpos => ?_)⟩
    have hle := Wait.steps_le_of_path hstart hearlier hrs hpos (hbegin.trans (Nat.le_add_right _ _))
    exact ⟨fun hge => le_antisymm hle hge, fun heq => heq.ge⟩
  · exact fun P make hmake start c made hmade x hfinite temperatures =>
      Wait.start_of_made hmake hmade hfinite temperatures

section Terms

theorem posterior_constantTerm :
    (countingSample Grammar.constantTerm).score.posterior = real (-2) := by
  rw [posterior_countingSample]
  norm_num [Grammar.constantTerm, Tree.countNodes]

/-- A chain that is made from the constant has patience for one step. -/
theorem restarts_iff_waited_terms :
    let P := countingTermsBy .delete
    let drives : List Drive := [.run (.ofFields 4 0 0 1 0)]
    ∃ c made legs rs ended,
      Rand.Yields ((ofTree P Grammar.constantTerm : Walk Exact Unit _) ⟨(), ⟨0⟩, ⟨0, 0⟩, []⟩)
        (.ok c, made) ∧
      legs.map (·.1) = drives.map Drive.control ∧
      Rand.Yields (journey legs ⟨c, made.names, made.tally, made.records⟩) (rs, ended) ∧
      Wait.start c = ⟨real (-2), 0, true⟩ ∧
      ∀ earlier r later, rs = earlier ++ r :: later →
        (r.event.isRestart = true ↔ 0 < r.patience ∧
          r.patience + (Wait.after c earlier).grace ≤ (Wait.after c earlier).steps) := by
  intro P drives
  obtain ⟨tally, hmade⟩ := exists_ofTree_countingTermsBy .delete Grammar.constantTerm ⟨0⟩
  obtain ⟨legs, hcontrols, -, hrounds, hstart⟩ := restarts_iff_waited (D := ℕ) drives
  obtain ⟨⟨rs, ended⟩, hyields⟩ := Rand.exists_yields
    (journey legs ⟨fresh P (countingSample Grammar.constantTerm), ⟨0⟩, tally, []⟩)
  exact ⟨_, _, legs, rs, ended, hmade, hcontrols, hyields,
    hstart P _ (.inr ⟨_, rfl⟩) _ _ _ hmade _ posterior_constantTerm .unit,
    fun earlier r later heq => ((hrounds _ rs ended hyields).2 earlier r later heq).1⟩

/-- A chain that is made from the constant and cannot move has patience for one step. It takes that
step without improvement, and then another one instead of a restart. -/
theorem not_restart_terms :
    let P := countingTermsBy .delete
    let ctl : Control := .ofFields 2 0 0 1 0
    ∃ c made reported ended first second,
      Rand.Yields ((ofTree P Grammar.constantTerm : Walk Exact Unit _) ⟨(), ⟨0⟩, ⟨0, 0⟩, []⟩)
        (.ok c, made) ∧
      Rand.Yields (run ctl ⟨c, made.names, made.tally, made.records⟩) (⟨reported, none⟩, ended) ∧
      Rand.Yields (rounds ctl ctl.steps ⟨c, made.names, made.tally, made.records⟩)
        ([first, second], ended) ∧
      c.current.score.posterior = real (-2) ∧
      first.chain.current.score.posterior = real (-2) ∧
      (Wait.after c [first]).steps = second.patience ∧ second.event.isRestart = false := by
  intro P ctl
  let constant := countingSample Grammar.constantTerm
  obtain ⟨tally, hmade⟩ := exists_ofTree_countingTermsBy .delete Grammar.constantTerm ⟨0⟩
  have hlt : Scalar.lt (negInf : Exact) constant.score.posterior = true := by
    rw [posterior_constantTerm, negInf_lt_real]
  have hstart : Wait.start (fresh P constant) = ⟨real (-2), 0, true⟩ :=
    Wait.start_of_made (.inr ⟨_, rfl⟩) hmade posterior_constantTerm .unit
  have hcounted : (fresh P constant).trackImprovement.stepsSinceImprovement = 0 := by
    unfold trackImprovement
    rw [fresh, negInf_eq, if_pos hlt]
  -- the improvement is noticed in the first round only, where nothing is counted therefore
  have hstuck : (fresh P constant).Stuck := stuck_constantTerm rfl rfl
  obtain ⟨between, hfirst, hbetween⟩ := Stuck.exists_round_apply ctl
    ⟨fresh P constant, ⟨0⟩, tally, []⟩ hstuck (overdue_eq_false Nat.zero_lt_one)
  obtain ⟨hproblem, hcurrent⟩ := trackImprovement_eq (fresh P constant)
  have hproblem : between.subject.problem = P := by
    rw [hbetween]
    exact hproblem
  have hcurrent : between.subject.current = constant := by
    rw [hbetween]
    exact hcurrent
  have hcounted : between.subject.stepsSinceImprovement = 0 := by
    rw [hbetween]
    exact hcounted
  obtain ⟨ended, hsecond, -⟩ := Stuck.exists_round_apply ctl between (hstuck.congr hproblem hcurrent)
    (overdue_eq_false (by rw [hcounted]; decide))
  let first : Round Exact ℕ := ⟨ctl.restart, .step (.ok false), between.subject⟩
  let second : Round Exact ℕ := ⟨ctl.restart, .step (.ok false), ended.subject⟩
  have hsteps : 0 < ctl.steps := by decide
  have hrounds : Rand.Yields (rounds ctl ctl.steps ⟨fresh P constant, ⟨0⟩, tally, []⟩)
      ([first, second], ended) := by
    refine (Rand.yields_bind ..).mpr ⟨(.step (.ok false), between), ?_, ?_⟩
    · rw [hfirst, Rand.yields_done]
    refine (Rand.yields_bind ..).mpr ⟨([second], ended), (Rand.yields_bind ..).mpr
      ⟨(.step (.ok false), ended), ?_, rfl⟩, rfl⟩
    rw [hsecond, Rand.yields_done]
  have hposterior : between.subject.current.score.posterior = real (-2) := by
    rw [hcurrent, posterior_constantTerm]
  refine ⟨_, _, due ctl 0 [first, second], ended, first, second, hmade, ?_, hrounds,
    posterior_constantTerm, hposterior, ?_, rfl⟩
  · rw [run_eq_rounds hsteps, Rand.yields_bind]
    exact ⟨_, hrounds, rfl⟩
  · have hnoBetter : ¬ Scalar.lt (real (-2)) between.subject.current.score.posterior = true := by
      rw [hposterior, lt_self_eq_false]
      exact Bool.false_ne_true
    change ((Wait.start (fresh P constant)).next first).steps = 1
    rw [hstart]
    exact congrArg Wait.steps (if_neg hnoBetter)

end Terms

end ScopedGrammar.Chain
