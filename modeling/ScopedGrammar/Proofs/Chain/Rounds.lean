import Mathlib.Tactic.Common
import ScopedGrammar.Proofs.Chain.Round

/-!
# Runs as rounds

Going on to the next report, and a whole run, are loops within each other that stop where the
control says so. They come to no more than going through a number of rounds, which depends on the
control alone: what is reported are the samples of the rounds that are due, and a failure ends the
rounds. With a limit on the steps, a run takes just so many rounds, and no larger bound on the loops
changes it.
-/
namespace ScopedGrammar

/-- The same stage, seen from another subject. -/
def Stage.map {K σ τ : Type} (f : σ → τ) (stage : Stage K σ) : Stage K τ :=
  ⟨f stage.subject, stage.names, stage.tally, stage.records⟩

/-- Go on collecting from what the first walk came to. -/
def SafeWalk.collectFrom {K σ α : Type} (next : Walk K σ (Option α)) (bound : ℕ)
    (collected : List α) : Except SampleError (Option α) → SafeWalk K σ (Report α)
  | .error e => pure ⟨collected.reverse, some e⟩
  | .ok none => pure ⟨collected.reverse, none⟩
  | .ok (some a) => collect next bound (a :: collected)

theorem SafeWalk.collect_succ {K σ α : Type} (next : Walk K σ (Option α)) (bound : ℕ)
    (collected : List α) (stage : Stage K σ) : collect next (bound + 1) collected stage =
      (next stage).bind fun (r, stage') => collectFrom next bound collected r stage' := by
  change Rand.bind (next stage) _ = _
  refine congrArg (Rand.bind _) (funext fun (r, stage') => ?_)
  rcases r with e | _ | a <;> rfl

namespace Control

variable {ctl : Control}

/-- The step of this number is reported. -/
def Reports (ctl : Control) (i : ℕ) : Prop := ctl.burn < i ∧ (ctl.thin ≤ 1 ∨ ctl.thin ∣ i)

instance (ctl : Control) (i : ℕ) : Decidable (ctl.Reports i) :=
  inferInstanceAs (Decidable (_ ∧ _))

theorem reporting_iff : ctl.reporting = true ↔ ctl.Reports ctl.doneSteps := by
  simp [reporting, Reports, Nat.dvd_iff_mod_eq_zero]

theorem tick_iff (hsteps : 0 < ctl.steps) : ctl.tick.1 = true ↔ ctl.doneSteps < ctl.steps := by
  simp [tick, hsteps]

theorem exists_ensureStarted_eq (ctl : Control) :
    ∃ done, ctl.ensureStarted = { ctl with started := true, doneSteps := done } := by
  unfold ensureStarted
  split
  · next hstarted => exact ⟨ctl.doneSteps, by rw [← hstarted]⟩
  · exact ⟨0, rfl⟩

/-- One of the next steps is reported, and the loop to the next report has room for it. -/
theorem exists_reports (ctl : Control) :
    ∃ k, 0 < k ∧ k ≤ ctl.stepsToReport ∧ ctl.Reports (ctl.doneSteps + k) := by
  -- the first multiple of the period behind both the burn-in and the steps that are done
  let passed := max ctl.burn ctl.doneSteps
  let period := max ctl.thin 1
  have hperiod : 0 < period := by omega
  have hdiv := Nat.div_add_mod passed period
  have hmod := Nat.mod_lt passed hperiod
  have hnext : period * (passed / period + 1) = passed - passed % period + period := by
    rw [Nat.mul_add]
    omega
  refine ⟨period * (passed / period + 1) - ctl.doneSteps, by omega, ?_, by omega, ?_⟩
  · rw [stepsToReport]
    omega
  · rw [Nat.add_sub_cancel' (by omega)]
    rcases Nat.lt_or_ge 1 ctl.thin with hthin | hthin
    · have hthin : period = ctl.thin := by omega
      exact .inr (hthin ▸ Nat.dvd_mul_right ..)
    · exact .inl hthin

/-- How many rounds are gone through until no step is left, if the loop to the next report makes at
most `reach` passes, and that over the reports is to make `bound` more. -/
def roundCount (bound reach : ℕ) (ctl : Control) : ℕ :=
  match reach with
  | 0 => 0
  | reach + 1 =>
      if ctl.tick.1 then
        if ctl.tick.2.reporting then
          match bound with
          | 0 => 1
          | bound + 1 => roundCount bound ctl.tick.2.stepsToReport ctl.tick.2 + 1
        else roundCount bound reach ctl.tick.2 + 1
      else 0
termination_by (bound, reach)

/-- If one of the steps within reach is reported, and the bound is not met before the limit is, the
rounds are those that the limit leaves. -/
theorem roundCount_eq {bound reach : ℕ}
    (hnear : ∃ k, 0 < k ∧ k ≤ reach ∧ ctl.Reports (ctl.doneSteps + k)) (hsteps : 0 < ctl.steps)
    (hdone : ctl.doneSteps ≤ ctl.steps) (hbound : ctl.steps - ctl.doneSteps ≤ bound) :
    roundCount bound reach ctl = ctl.steps - ctl.doneSteps := by
  have htick : ∀ c : Control, c.tick.2.doneSteps = c.doneSteps + 1 ∧ c.tick.2.steps = c.steps :=
    fun _ => ⟨rfl, rfl⟩
  fun_induction roundCount bound reach ctl with
  | case1 bound ctl =>
    obtain ⟨k, hpos, hle, -⟩ := hnear
    omega
  | case2 ctl reach hrunning hreporting =>
    have hleft := (tick_iff hsteps).mp hrunning
    omega
  | case3 ctl reach hrunning hreporting bound ih =>
    have hleft := (tick_iff hsteps).mp hrunning
    obtain ⟨hdone', hsteps'⟩ := htick ctl
    rw [ih ctl.tick.2.exists_reports hsteps (by omega) (by omega)]
    omega
  | case4 bound ctl reach hrunning hreporting ih =>
    have hleft := (tick_iff hsteps).mp hrunning
    obtain ⟨hdone', hsteps'⟩ := htick ctl
    obtain ⟨k, hpos, hle, hreports⟩ := hnear
    -- the step that is reported is not the next one, so it is within reach of the passes left
    have hk : k ≠ 1 := by
      rintro rfl
      exact hreporting (reporting_iff.mpr hreports)
    have hreports' : ctl.tick.2.Reports (ctl.tick.2.doneSteps + (k - 1)) := by
      rwa [hdone', show ctl.doneSteps + 1 + (k - 1) = ctl.doneSteps + k by omega]
    rw [ih ⟨k - 1, by omega, by omega, hreports'⟩ hsteps (by omega) (by omega)]
    omega
  | case5 bound ctl reach hrunning =>
    have hleft := mt (tick_iff hsteps).mpr hrunning
    omega

end Control

namespace Chain

variable {K D : Type} [Scalar K]

/-- A round that was gone through: after how many steps without improvement it was to restart, what
it came to, and the chain behind it. -/
structure Round (K D : Type) where
  patience : ℕ
  event : Event
  chain : Chain K D

/-- Go through so many rounds, unless one fails. -/
def rounds (ctl : Control) : ℕ → SafeWalk K (Chain K D) (List (Round K D))
  | 0 => fun stage => .done ([], stage)
  | n + 1 => fun stage => (round ctl stage).bind fun (event, stage) =>
      match event.failure? with
      | some _ => .done ([⟨ctl.restart, event, stage.subject⟩], stage)
      | none => (rounds ctl n stage).bind fun (later, stage') =>
          .done (⟨ctl.restart, event, stage.subject⟩ :: later, stage')

/-- The failure that ended the rounds, if one did. -/
def failure? (rs : List (Round K D)) : Option SampleError := rs.findSome? (·.event.failure?)

omit [Scalar K] in
theorem failure?_of_some {r : Round K D} {rs : List (Round K D)} {e : SampleError}
    (h : r.event.failure? = some e) : failure? (r :: rs) = some e := by
  rw [failure?, List.findSome?_cons, h]

omit [Scalar K] in
theorem failure?_of_none {r : Round K D} {rs : List (Round K D)} (h : r.event.failure? = none) :
    failure? (r :: rs) = failure? rs := by
  rw [failure?, List.findSome?_cons, h]
  rfl

omit [Scalar K] in
theorem failure?_eq_none_iff {rs : List (Round K D)} :
    failure? rs = none ↔ ∀ r ∈ rs, r.event.failure? = none := List.findSome?_eq_none_iff

/-- The samples that are due to be reported if so many steps were done before: of the rounds that
did not fail, those of a number that is reported. -/
def due (ctl : Control) (done : ℕ) (rs : List (Round K D)) : List (Sample K) :=
  (rs.zipIdx (done + 1)).filterMap fun (r, i) =>
    if r.event.failure? = none ∧ ctl.Reports i then some r.chain.current else none

omit [Scalar K] in
@[simp] theorem due_nil (ctl : Control) (done : ℕ) : due ctl done ([] : List (Round K D)) = [] := rfl

omit [Scalar K] in
theorem due_of_some {ctl : Control} {r : Round K D} {e : SampleError}
    (h : r.event.failure? = some e) (done : ℕ) : due ctl done [r] = [] := by
  simp [due, h]

omit [Scalar K] in
theorem due_cons {ctl : Control} {r : Round K D} (h : r.event.failure? = none) (done : ℕ)
    (rs : List (Round K D)) : due ctl done (r :: rs) =
      (if ctl.Reports (done + 1) then [r.chain.current] else []) ++ due ctl (done + 1) rs := by
  rw [due, due, List.zipIdx_cons, List.filterMap_cons]
  by_cases hreports : ctl.Reports (done + 1)
  · simp [h, hreports]
  · simp [h, hreports]

omit [Scalar K] in
theorem due_of_none {rs : List (Round K D)} (h : failure? rs = none) (ctl : Control) (done : ℕ) :
    due ctl done rs = (rs.zipIdx (done + 1)).filterMap fun (r, i) =>
      if ctl.Reports i then some r.chain.current else none := by
  refine List.filterMap_congr fun (r, i) hr => if_congr ?_ rfl rfl
  have hr : r ∈ rs := (List.mem_zipIdx hr).2.2 ▸ List.getElem_mem _
  exact and_iff_right (failure?_eq_none_iff.mp h r hr)

omit [Scalar K] in
/-- Only how a control burns and thins matters for what is due. -/
theorem due_congr (ctl ctl' : Control) (hburn : ctl.burn = ctl'.burn) (hthin : ctl.thin = ctl'.thin)
    (done : ℕ) (rs : List (Round K D)) : due ctl done rs = due ctl' done rs := by
  refine List.filterMap_congr fun (r, i) _ => if_congr ?_ rfl rfl
  rw [Control.Reports, Control.Reports, hburn, hthin]

theorem rounds_congr (ctl ctl' : Control) (hrestart : ctl.restart = ctl'.restart)
    (hprint : ctl.print = ctl'.print) (n : ℕ) :
    (rounds ctl n : SafeWalk K (Chain K D) _) = rounds ctl' n := by
  induction n with
  | zero => rfl
  | succ n ih =>
    have hround : (round ctl : SafeWalk K (Chain K D) _) = round ctl' := by
      unfold round
      rw [hrestart, hprint]
    rw [rounds, rounds, ih, hround, hrestart]

section Loop

variable {ctl : Control}

/-- One pass of the loop to the next report is one round. -/
theorem advanceWithin_succ (bound : ℕ) (stage : Stage K (Chain K D)) :
    (advanceWithin (bound + 1) : Walk K (Chain K D × Control) _) (stage.map (·, ctl)) =
      if ctl.tick.1 then
        (round ctl stage).bind fun (event, stage') =>
          match event.failure? with
          | some e => .done (.error e, stage'.map (·, ctl.tick.2))
          | none =>
              if ctl.tick.2.reporting then
                .done (.ok (some stage'.subject.current), stage'.map (·, ctl.tick.2))
              else advanceWithin bound (stage'.map (·, ctl.tick.2))
      else .done (.ok none, stage.map (·, ctl.tick.2)) := by
  have hrun : (advanceWithin (bound + 1) : Walk K (Chain K D × Control) _) (stage.map (·, ctl)) =
      (if ctl.tick.1 then
        (Walk.onPart Prod.fst (fun c s => (c, s.2)) (takeSample ctl.tick.2) :
          Walk K (Chain K D × Control) Unit) >>= fun _ => Walk.subject >>= fun s =>
            if ctl.tick.2.reporting then pure (some s.1.current) else advanceWithin bound
      else pure none : Walk K (Chain K D × Control) _) (stage.map (·, ctl.tick.2)) := rfl
  rw [hrun]
  split
  · have htake : (Walk.onPart Prod.fst (fun c s => (c, s.2)) (takeSample ctl.tick.2) :
        Walk K (Chain K D × Control) Unit) (stage.map (·, ctl.tick.2)) =
          ((takeSample ctl.tick.2 : Walk K (Chain K D) Unit) stage).bind fun taken =>
            .done (taken.1, taken.2.map (·, ctl.tick.2)) := rfl
    rw [Walk.bind_apply, htake, takeSample_apply, Rand.bind_assoc, Rand.bind_assoc]
    refine congrArg (Rand.bind _) (funext ?_)
    rintro ⟨event, stage'⟩
    rw [Rand.done_bind, Rand.done_bind]
    dsimp only
    cases event.failure? with
    | some e => rfl
    | none =>
      have hrest : (Walk.subject >>= fun s =>
          if ctl.tick.2.reporting then pure (some s.1.current) else advanceWithin bound :
          Walk K (Chain K D × Control) _) (stage'.map (·, ctl.tick.2)) =
            (if ctl.tick.2.reporting then pure (some stage'.subject.current)
              else advanceWithin bound : Walk K (Chain K D × Control) _)
                (stage'.map (·, ctl.tick.2)) := rfl
      dsimp only
      rw [hrest]
      split
      · rfl
      · rfl
  · rfl

/-- A run that is started goes on for as many steps as may be left until one is reported. -/
theorem advance_eq (ctl : Control) (hstarted : ctl.started = true) (stage : Stage K (Chain K D)) :
    (advance : Walk K (Chain K D × Control) _) (stage.map (·, ctl)) =
      advanceWithin ctl.stepsToReport (stage.map (·, ctl)) := by
  have hrun : (advance : Walk K (Chain K D × Control) _) (stage.map (·, ctl)) =
      advanceWithin ctl.ensureStarted.stepsToReport (stage.map (·, ctl.ensureStarted)) := rfl
  rw [hrun, Control.ensureStarted, if_pos hstarted]

/-- Go on to the next report by at most `reach` passes, and then to `bound` more. -/
def collectWithin (ctl : Control) (bound reach : ℕ) (collected : List (Sample K))
    (stage : Stage K (Chain K D)) : Rand K (Report (Sample K) × Stage K (Chain K D × Control)) :=
  (advanceWithin reach (stage.map (·, ctl))).bind fun (r, stage') =>
    SafeWalk.collectFrom advance bound collected r stage'

/-- Go on after a round, which is reported or not. -/
def collectAfter (ctl : Control) (bound reach : ℕ) (collected : List (Sample K))
    (stage : Stage K (Chain K D)) : Rand K (Report (Sample K) × Stage K (Chain K D × Control)) :=
  if ctl.reporting then
    SafeWalk.collect advance bound (stage.subject.current :: collected) (stage.map (·, ctl))
  else collectWithin ctl bound reach collected stage

theorem collect_eq_collectWithin (ctl : Control) (hstarted : ctl.started = true) (bound : ℕ)
    (collected : List (Sample K)) (stage : Stage K (Chain K D)) :
    SafeWalk.collect advance (bound + 1) collected (stage.map (·, ctl)) =
      collectWithin ctl bound ctl.stepsToReport collected stage := by
  rw [SafeWalk.collect_succ, advance_eq ctl hstarted, collectWithin]

theorem collectWithin_succ (bound reach : ℕ) (collected : List (Sample K))
    (stage : Stage K (Chain K D)) : collectWithin ctl bound (reach + 1) collected stage =
      if ctl.tick.1 then
        (round ctl stage).bind fun (event, stage') =>
          match event.failure? with
          | some e => .done (⟨collected.reverse, some e⟩, stage'.map (·, ctl.tick.2))
          | none => collectAfter ctl.tick.2 bound reach collected stage'
      else .done (⟨collected.reverse, none⟩, stage.map (·, ctl.tick.2)) := by
  rw [collectWithin, advanceWithin_succ]
  split
  · rw [Rand.bind_assoc]
    refine congrArg (Rand.bind _) (funext fun (event, stage') => ?_)
    dsimp only
    cases event.failure? with
    | some e => rfl
    | none =>
      dsimp only
      rw [collectAfter, collectWithin]
      split
      · rfl
      · rfl
  · rfl

/-- What is collected by a walk, and the chain that it leaves, come from so many rounds behind what
was collected before. -/
def ReportsRounds (ctl : Control) (n : ℕ) (collected : List (Sample K)) (stage : Stage K (Chain K D))
    (x : Rand K (Report (Sample K) × Stage K (Chain K D × Control))) : Prop :=
  (x.bind fun (report, stage') => .done (report, stage'.map Prod.fst)) =
    (rounds ctl n stage).bind fun (rs, stage') =>
      .done (⟨collected.reverse ++ due ctl ctl.doneSteps rs, failure? rs⟩, stage')

theorem reportsRounds_zero (ctl ctl' : Control) (collected : List (Sample K))
    (stage : Stage K (Chain K D)) : ReportsRounds ctl 0 collected stage
      (.done (⟨collected.reverse, none⟩, stage.map (·, ctl'))) := by
  rw [ReportsRounds, rounds, Rand.done_bind, Rand.done_bind]
  dsimp only
  rw [due_nil, List.append_nil]
  rfl

/-- A round comes first, reported or not, and the rest comes from the rounds behind it. -/
theorem reportsRounds_succ {n bound reach : ℕ} {collected : List (Sample K)}
    (hrunning : ctl.tick.1 = true)
    (hlater : ∀ stage : Stage K (Chain K D), ReportsRounds ctl.tick.2 n
      (if ctl.tick.2.reporting then stage.subject.current :: collected else collected) stage
      (collectAfter ctl.tick.2 bound reach collected stage))
    (stage : Stage K (Chain K D)) : ReportsRounds ctl (n + 1) collected stage
      (collectWithin ctl bound (reach + 1) collected stage) := by
  rw [ReportsRounds, collectWithin_succ, if_pos hrunning, rounds]
  dsimp only
  rw [Rand.bind_assoc, Rand.bind_assoc]
  refine congrArg (Rand.bind _) (funext fun (event, stage') => ?_)
  dsimp only
  cases hfailure : event.failure? with
  | some e =>
    rw [Rand.done_bind, Rand.done_bind]
    dsimp only
    rw [due_of_some hfailure, failure?_of_some hfailure, List.append_nil]
    rfl
  | none =>
    let first : Round K D := ⟨ctl.restart, event, stage'.subject⟩
    have hfailures : ∀ rs, failure? (first :: rs) = failure? rs :=
      fun rs => failure?_of_none hfailure
    -- the first round is among those that are due if it is reported
    have hdue : ∀ rs, collected.reverse ++ due ctl ctl.doneSteps (first :: rs) =
        (if ctl.tick.2.reporting then stage'.subject.current :: collected else collected).reverse ++
          due ctl.tick.2 ctl.tick.2.doneSteps rs := by
      intro rs
      have hreporting : ctl.tick.2.reporting = true ↔ ctl.Reports (ctl.doneSteps + 1) :=
        Control.reporting_iff
      rw [due_congr _ ctl.tick.2 rfl rfl, due_cons hfailure, ← List.append_assoc]
      by_cases hreports : ctl.Reports (ctl.doneSteps + 1)
      · rw [if_pos hreports, if_pos (hreporting.mpr hreports), List.reverse_cons]
        rfl
      · rw [if_neg hreports, if_neg (mt hreporting.mp hreports), List.append_nil]
        rfl
    have hrest := hlater stage'
    rw [ReportsRounds, rounds_congr ctl.tick.2 ctl rfl rfl] at hrest
    dsimp only at hrest ⊢
    rw [Rand.bind_assoc]
    simp only [Rand.done_bind, first, hdue, hfailures] at hrest ⊢
    exact hrest

/-- Going on to the next report, and then to as many as the bound allows, comes to rounds. -/
theorem reportsRounds_collectWithin (hstarted : ctl.started = true) (bound reach : ℕ)
    (collected : List (Sample K)) (stage : Stage K (Chain K D)) :
    ReportsRounds ctl (ctl.roundCount bound reach) collected stage
      (collectWithin ctl bound reach collected stage) := by
  fun_induction Control.roundCount bound reach ctl generalizing collected stage with
  | case1 bound ctl => exact reportsRounds_zero ctl ctl collected stage
  | case2 ctl reach hrunning hreporting =>
    refine reportsRounds_succ hrunning (fun stage => ?_) stage
    rw [collectAfter, if_pos hreporting, if_pos hreporting]
    exact reportsRounds_zero ctl.tick.2 ctl.tick.2 _ stage
  | case3 ctl reach hrunning hreporting bound ih =>
    refine reportsRounds_succ hrunning (fun stage => ?_) stage
    rw [collectAfter, if_pos hreporting, if_pos hreporting,
      collect_eq_collectWithin ctl.tick.2 hstarted]
    exact ih hstarted _ stage
  | case4 bound ctl reach hrunning hreporting ih =>
    refine reportsRounds_succ hrunning (fun stage => ?_) stage
    rw [collectAfter, if_neg hreporting, if_neg hreporting]
    exact ih hstarted _ stage
  | case5 bound ctl reach hrunning =>
    rw [collectWithin_succ, if_neg hrunning]
    exact reportsRounds_zero ctl ctl.tick.2 collected stage

/-- A run goes through so many rounds, and reports those that are due. If the number of steps is
limited, it is the number of rounds, whatever larger bound the loop is given. -/
theorem exists_rounds_collect (ctl : Control) (bound : ℕ) :
    ∃ n, (0 < ctl.steps → ctl.steps < bound → n = ctl.steps) ∧ ∀ stage : Stage K (Chain K D),
      (Walk.onPart (·, ctl.start) (fun s _ => s.1) (SafeWalk.collect advance bound []) :
        SafeWalk K (Chain K D) (Report (Sample K))) stage =
          (rounds ctl n stage).bind fun (rs, stage') =>
            .done (⟨due ctl 0 rs, failure? rs⟩, stage') := by
  have hrun : ∀ stage : Stage K (Chain K D),
      (Walk.onPart (·, ctl.start) (fun s _ => s.1) (SafeWalk.collect advance bound []) :
        SafeWalk K (Chain K D) (Report (Sample K))) stage =
          (SafeWalk.collect advance bound [] (stage.map (·, ctl.start))).bind
            fun (report, stage') => .done (report, stage'.map Prod.fst) := fun _ => rfl
  cases bound with
  | zero => exact ⟨0, fun _ hlt => absurd hlt (Nat.not_lt_zero _), fun stage => rfl⟩
  | succ bound =>
    refine ⟨ctl.start.roundCount bound ctl.start.stepsToReport, fun hsteps hlt => ?_,
      fun stage => ?_⟩
    · exact Control.roundCount_eq ctl.start.exists_reports hsteps (Nat.zero_le _)
        (Nat.le_of_lt_succ hlt)
    · rw [hrun, collect_eq_collectWithin ctl.start rfl,
        reportsRounds_collectWithin rfl bound _ [] stage, rounds_congr ctl.start ctl rfl rfl]
      refine congrArg (Rand.bind _) (funext fun (rs, stage') => ?_)
      dsimp only
      rw [due_congr ctl.start ctl rfl rfl]
      rfl

/-- With a limit on the steps, any larger bound on its loop makes a run go through just so many
rounds. -/
theorem collect_eq_rounds {ctl : Control} (hsteps : 0 < ctl.steps) {bound : ℕ}
    (hbound : ctl.steps < bound) (stage : Stage K (Chain K D)) :
    (Walk.onPart (·, ctl.start) (fun s _ => s.1) (SafeWalk.collect advance bound []) :
      SafeWalk K (Chain K D) (Report (Sample K))) stage =
        (rounds ctl ctl.steps stage).bind fun (rs, after) =>
          .done (⟨due ctl 0 rs, failure? rs⟩, after) := by
  obtain ⟨n, hexact, hrounds⟩ := exists_rounds_collect (K := K) (D := D) ctl bound
  rw [hrounds, hexact hsteps hbound]

theorem run_eq_rounds {ctl : Control} (hsteps : 0 < ctl.steps) (stage : Stage K (Chain K D)) :
    run ctl stage = (rounds ctl ctl.steps stage).bind fun (rs, after) =>
      .done (⟨due ctl 0 rs, failure? rs⟩, after) := by
  refine collect_eq_rounds hsteps ?_ stage
  rw [Control.stepBound, if_neg (by omega)]
  omega

/-- Going on to the next report comes to so many rounds, and to the failure that ended them or the
first sample that is due. -/
theorem exists_rounds_advance (ctl : Control) :
    ∃ n, ∀ stage : Stage K (Chain K D),
      (Walk.onPart (fun c => (c, ctl)) (fun s _ => s.1) advance :
        Walk K (Chain K D) (Option (Sample K))) stage =
          (rounds ctl n stage).bind fun (rs, stage') =>
            .done (match failure? rs with
              | none => .ok (due ctl ctl.ensureStarted.doneSteps rs).head?
              | some e => .error e, stage') := by
  obtain ⟨done, hctl⟩ := ctl.exists_ensureStarted_eq
  refine ⟨ctl.ensureStarted.roundCount 0 ctl.ensureStarted.stepsToReport, fun stage => ?_⟩
  have hrounds : ReportsRounds ctl.ensureStarted _ [] stage _ :=
    reportsRounds_collectWithin (by rw [hctl]) 0 ctl.ensureStarted.stepsToReport [] stage
  -- a report with at most one sample tells what the walk came to
  let outcome (report : Report (Sample K)) : Except SampleError (Option (Sample K)) :=
    match report.failure with
    | none => .ok report.reported.head?
    | some e => .error e
  have hread := congrArg (fun x => x.bind fun (report, stage') => Rand.done (outcome report, stage'))
    hrounds
  dsimp only at hread
  rw [collectWithin, Rand.bind_assoc, Rand.bind_assoc, Rand.bind_assoc] at hread
  have hrun : (Walk.onPart (fun c => (c, ctl)) (fun s _ => s.1) advance :
      Walk K (Chain K D) (Option (Sample K))) stage =
        (advanceWithin ctl.ensureStarted.stepsToReport (stage.map (·, ctl.ensureStarted))).bind
          fun (r, stage') => .done (r, stage'.map Prod.fst) := rfl
  rw [hrun, hctl]
  rw [hctl] at hread
  refine Eq.trans ?_ (hread.trans ?_)
  · refine congrArg (Rand.bind _) (funext fun (r, stage') => ?_)
    rcases r with e | _ | a <;> rfl
  · rw [rounds_congr { ctl with started := true, doneSteps := done } ctl rfl rfl]
    refine congrArg (Rand.bind _) (funext fun (rs, stage') => ?_)
    dsimp only
    rw [due_congr { ctl with started := true, doneSteps := done } ctl rfl rfl]
    rfl

end Loop

/-- Rounds that follow one another lead from a chain to another. -/
inductive Path : Chain K D → List (Round K D) → Chain K D → Prop
  | nil (c : Chain K D) : Path c [] c
  | cons {c c' : Chain K D} {r : Round K D} {rs : List (Round K D)}
      (h : Passes r.patience c r.event r.chain) (hrest : Path r.chain rs c') : Path c (r :: rs) c'

theorem Path.append {c c' c'' : Chain K D} {rs rs' : List (Round K D)} (h : Path c rs c')
    (h' : Path c' rs' c'') : Path c (rs ++ rs') c'' := by
  induction h with
  | nil c => exact h'
  | cons hpass _ ih => exact .cons hpass (ih h')

theorem Path.split {c c' : Chain K D} {r : Round K D} {earlier later : List (Round K D)}
    (h : Path c (earlier ++ r :: later) c') :
    ∃ between, Path c earlier between ∧ Passes r.patience between r.event r.chain := by
  induction earlier generalizing c with
  | nil =>
    cases h with
    | cons hpasses _ => exact ⟨c, .nil c, hpasses⟩
  | cons first earlier ih =>
    cases h with
    | cons hpasses hrest =>
      obtain ⟨between, hpath, hr⟩ := ih hrest
      exact ⟨between, .cons hpasses hpath, hr⟩

theorem Path.foldl {α : Type} {I : Chain K D → α → Prop} {next : α → Round K D → α}
    (hnext : ∀ {c a r}, I c a → Passes r.patience c r.event r.chain → I r.chain (next a r))
    {c c' : Chain K D} {rs : List (Round K D)} (h : Path c rs c') {a : α} (hI : I c a) :
    I c' (rs.foldl next a) := by
  induction h generalizing a with
  | nil c => exact hI
  | cons hpasses _ ih => exact ih (hnext hI hpasses)

/-- What is known of rounds that were gone through. -/
structure Went (ctl : Control) (n : ℕ) (stage stage' : Stage K (Chain K D))
    (rs : List (Round K D)) : Prop where
  path : Path stage.subject rs stage'.subject
  patience_eq : ∀ r ∈ rs, r.patience = ctl.restart
  decisions_eq : stage'.decisions = (rs.filterMap (·.event.decision?)).reverse ++ stage.decisions
  length_eq : failure? rs = none → rs.length = n

theorem went_of_yields_rounds {ctl : Control} {n : ℕ} {stage stage' : Stage K (Chain K D)}
    {rs : List (Round K D)} (h : Rand.Yields (rounds ctl n stage) (rs, stage')) :
    Went ctl n stage stage' rs := by
  induction n generalizing stage rs with
  | zero =>
    cases h
    exact ⟨.nil _, by simp, rfl, fun _ => rfl⟩
  | succ n ih =>
    obtain ⟨⟨event, between⟩, hround, hrest⟩ := (Rand.yields_bind ..).mp h
    obtain ⟨hpasses, hdecisions⟩ := passes_of_yields_round hround
    dsimp only at hrest
    cases hfailure : event.failure? with
    | some e =>
      rw [hfailure] at hrest
      cases hrest
      refine ⟨.cons hpasses (.nil _), by simp, ?_, fun hnone => ?_⟩
      · rw [hdecisions]
        cases hdecision : event.decision? <;> simp [hdecision]
      · rw [failure?_of_some hfailure] at hnone
        cases hnone
    | none =>
      rw [hfailure] at hrest
      obtain ⟨⟨later, stage''⟩, hlater, heq⟩ := (Rand.yields_bind ..).mp hrest
      cases heq
      obtain ⟨hpath, hpatience, hdecisions', hlength⟩ := ih hlater
      refine ⟨.cons hpasses hpath, by simpa using hpatience, ?_, fun hnone => ?_⟩
      · rw [hdecisions', hdecisions]
        cases hdecision : event.decision? <;> simp [hdecision]
      · rw [failure?_of_none hfailure] at hnone
        rw [List.length_cons, hlength hnone]

/-- What drives a chain on: to the next report, or for a whole run. -/
inductive Drive where
  | advance (ctl : Control)
  | run (ctl : Control)

namespace Drive

/-- The control that a drive begins with. -/
def control : Drive → Control
  | advance ctl | run ctl => ctl

/-- Drive a chain on; a run that a failure ends fails. -/
def make : Drive → Walk K (Chain K D) Unit
  | advance ctl => do
      let _ ← (Walk.onPart (fun c => (c, ctl)) (fun s _ => s.1) Chain.advance :
        Walk K (Chain K D) (Option (Sample K)))
  | run ctl => do
      let report ← Walk.ofSafe (Chain.run ctl)
      match report.failure with
      | none => pure ()
      | some e => throw e

/-- A drive comes to so many rounds, and fails if one of them does. -/
theorem exists_rounds (d : Drive) : ∃ n, ∀ stage : Stage K (Chain K D),
    (d.make : Walk K (Chain K D) Unit) stage = (rounds d.control n stage).bind fun (rs, stage') =>
      .done (match failure? rs with | none => .ok () | some e => .error e, stage') := by
  cases d with
  | advance ctl =>
    obtain ⟨n, hrounds⟩ := exists_rounds_advance (K := K) (D := D) ctl
    refine ⟨n, fun stage => ?_⟩
    rw [make, Walk.bind_apply, hrounds, Rand.bind_assoc]
    refine congrArg (Rand.bind _) (funext fun (rs, stage') => ?_)
    rw [Rand.done_bind]
    dsimp only
    cases failure? rs <;> rfl
  | run ctl =>
    obtain ⟨n, -, hrounds⟩ := exists_rounds_collect (K := K) (D := D) ctl (ctl.stepBound + 1)
    refine ⟨n, fun stage => ?_⟩
    have hrun : (Walk.ofSafe (Chain.run ctl) : Walk K (Chain K D) (Report (Sample K))) stage =
        (rounds ctl n stage).bind fun (rs, stage') =>
          .done (.ok ⟨due ctl 0 rs, failure? rs⟩, stage') := by
      change Rand.bind (Walk.onPart _ _ _ stage) _ = _
      rw [hrounds, Rand.bind_assoc]
      rfl
    rw [make, Walk.bind_apply, hrun, Rand.bind_assoc]
    refine congrArg (Rand.bind _) (funext fun (rs, stage') => ?_)
    rw [Rand.done_bind]
    dsimp only
    cases failure? rs <;> rfl

/-- A drive that does not fail went through rounds none of which failed. -/
theorem exists_rounds_of_yields {d : Drive} {stage stage' : Stage K (Chain K D)}
    (h : Rand.Yields ((d.make : Walk K (Chain K D) Unit) stage) (.ok (), stage')) :
    ∃ n rs, Rand.Yields (rounds d.control n stage) (rs, stage') ∧ failure? rs = none := by
  obtain ⟨n, hrounds⟩ := d.exists_rounds (K := K) (D := D)
  rw [hrounds, Rand.yields_bind] at h
  obtain ⟨⟨rs, after⟩, hyields, heq⟩ := h
  rw [Rand.yields_done] at heq
  cases hfailure : failure? rs with
  | some e =>
    rw [hfailure] at heq
    cases heq
  | none =>
    rw [hfailure] at heq
    cases heq
    exact ⟨n, rs, hyields, hfailure⟩

end Drive

end Chain

end ScopedGrammar
