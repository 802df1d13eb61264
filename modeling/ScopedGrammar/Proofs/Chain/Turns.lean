import Mathlib.Data.Int.CardIntervalMod
import ScopedGrammar.Proofs.Chain.Accounts
import ScopedGrammar.Proofs.Chain.Exchange

/-!
# Turns

Tempered chains take turns. While every step is reported, each turn within the steps of a run is a
sample of the chain whose turn it is. The turn on which the run finds that its steps are used up is
counted as well, though nobody takes a sample on it: so every run begins one chain later than it
would if the chains went on in turn.
-/
namespace ScopedGrammar

section Reports

/-- Every step is reported. -/
structure Control.ReportsAll (ctl : Control) : Prop where
  burn_eq : ctl.burn = 0
  thin_le : ctl.thin ≤ 1

variable {ctl : Control}

theorem Control.ReportsAll.stepsToReport_eq (h : ctl.ReportsAll) : ctl.stepsToReport = 1 := by
  have hthin := h.thin_le
  rw [stepsToReport, h.burn_eq]
  omega

theorem Control.ReportsAll.reporting_tick (h : ctl.ReportsAll) : ctl.tick.2.reporting = true := by
  have hthin := h.thin_le
  simp [reporting, tick, h.burn_eq, hthin]

variable {K D : Type} [Scalar K]

/-- Where every step is reported, to go on to the next report is one round if the control lets it.
-/
theorem Chain.advance_of_reportsAll (hall : ctl.ReportsAll) (hstarted : ctl.started = true)
    (stage : Stage K (Chain K D)) :
    (advance : Walk K (Chain K D × Control) _) (stage.map (·, ctl)) =
      if ctl.tick.1 then
        (round ctl stage).bind fun (event, stage') =>
          .done (match event.failure? with
            | some e => .error e
            | none => .ok (some stage'.subject.current), stage'.map (·, ctl.tick.2))
      else .done (.ok none, stage.map (·, ctl.tick.2)) := by
  rw [advance_eq ctl hstarted, hall.stepsToReport_eq, advanceWithin_succ, hall.reporting_tick]
  split
  · refine congrArg (Rand.bind _) (funext ?_)
    rintro ⟨event, stage'⟩
    dsimp only
    cases event.failure? <;> rfl
  · rfl

theorem Chain.Passes.samples_eq {patience : ℕ} {c c' : Chain K D} {event : Event}
    (h : Passes patience c event c') (hnone : event.failure? = none) : c'.samples = c.samples + 1 :=
  (Path.cons (r := ⟨patience, event, c'⟩) h (.nil _)).samples_eq (by simp [failure?, hnone])

end Reports

namespace Tempering

variable {K D : Type} [Scalar K]

section Turn

variable {ctl : Control} {stage : Stage K (Tempering K D)}

omit [Scalar K] in
theorem samples_exchange {chains : ChainGroup K D} {i : ℕ} (h : i + 1 < chains.length) :
    (exchange i (i + 1) chains).samples = chains.samples := by
  obtain ⟨pre, c, d, post, rfl, rfl⟩ := exists_neighbours h
  simp [exchange_neighbours, ChainGroup.samples]

/-- It is the same chain's turn, and no samples were taken. -/
structure SameTurn (s s' : Tempering K D) : Prop where
  turns_eq : s'.turns = s.turns
  samples_eq : s'.chains.samples = s.chains.samples

/-- A swap, should one be due, is not a turn. -/
theorem sameTurn_of_yields_swapIfDue {stage' : Stage K (Tempering K D)} {r : Except SampleError Unit}
    (h : Rand.Yields ((swapIfDue : Walk K (Tempering K D) Unit) stage) (r, stage')) :
    r = .ok () ∧ SameTurn stage.subject stage'.subject := by
  have hrun : (swapIfDue : Walk K (Tempering K D) Unit) stage =
      (if 0 < stage.subject.swapEvery && stage.subject.swapEvery ≤ stage.subject.sinceSwap then do
          swap
          Walk.update fun s => { s with sinceSwap := 0 }
        else pure () : Walk K (Tempering K D) Unit) stage := rfl
  rw [hrun] at h
  split at h
  · rcases Walk.yields_bind.mp h with ⟨e, rfl, hswap⟩ | ⟨_, swapped, hswap, hreset⟩
    · cases (decideSwap_of_yields_swap hswap).1
    cases hreset
    obtain ⟨-, rfl | ⟨i, accepted, hi, rfl⟩⟩ := decideSwap_of_yields_swap hswap
    · exact ⟨rfl, rfl, rfl⟩
    · cases accepted with
      | false => exact ⟨rfl, rfl, rfl⟩
      | true => exact ⟨rfl, rfl, samples_exchange hi⟩
  · cases h
    exact ⟨rfl, rfl, rfl⟩

/-- The next chain goes on. -/
def takeTurn : Walk K (Tempering K D × Control) (Option (ℕ × Sample K)) := do
  let (s, _) ← Walk.subject
  let which := s.turns % s.chains.length
  Walk.update fun (s, ctl) => ({ s with turns := s.turns + 1, sinceSwap := s.sinceSwap + 1 }, ctl)
  let sample ← advance.onChainAndControl which Chain.advance
  pure (sample.join.map fun x => (which, x))

theorem advance_eq_takeTurn (hchains : stage.subject.chains ≠ []) (hstarted : ctl.started = true) :
    (advance : Walk K (Tempering K D × Control) _) (stage.map (·, ctl)) =
      ((swapIfDue : Walk K (Tempering K D) Unit) stage).bind fun (r, swapped) =>
        match r with
        | .ok () => takeTurn (swapped.map (·, ctl))
        | .error e => .done (.error e, swapped.map (·, ctl)) := by
  have hrun : (advance : Walk K (Tempering K D × Control) _) (stage.map (·, ctl)) =
      (if stage.subject.chains.isEmpty then pure none
        else do
          Walk.update fun s => (s.1, s.2.ensureStarted)
          (Walk.onPart Prod.fst (fun s' s => (s', s.2)) swapIfDue :
            Walk K (Tempering K D × Control) Unit)
          takeTurn : Walk K (Tempering K D × Control) _) (stage.map (·, ctl)) := rfl
  have hupdate : (do
      Walk.update fun s => (s.1, s.2.ensureStarted)
      (Walk.onPart Prod.fst (fun s' s => (s', s.2)) swapIfDue :
        Walk K (Tempering K D × Control) Unit)
      takeTurn : Walk K (Tempering K D × Control) _) (stage.map (·, ctl)) =
    ((Walk.onPart Prod.fst (fun s' s => (s', s.2)) swapIfDue :
        Walk K (Tempering K D × Control) Unit) >>= fun _ => takeTurn :
      Walk K (Tempering K D × Control) _) (stage.map (·, ctl.ensureStarted)) := rfl
  have hswap : (Walk.onPart Prod.fst (fun s' s => (s', s.2)) swapIfDue :
      Walk K (Tempering K D × Control) Unit) (stage.map (·, ctl)) =
        ((swapIfDue : Walk K (Tempering K D) Unit) stage).bind fun (r, swapped) =>
          .done (r, swapped.map (·, ctl)) := rfl
  rw [hrun, if_neg (by simpa using hchains), hupdate, Control.ensureStarted, if_pos hstarted,
    Walk.bind_apply, hswap, Rand.bind_assoc]
  refine congrArg (Rand.bind _) (funext ?_)
  rintro ⟨_ | _, swapped⟩ <;> rfl

/-- The chains behind a turn of one of them. -/
def afterTurn (which : ℕ) (c : Chain K D) (s : Tempering K D) : Tempering K D :=
  { s with chains := s.chains.set which c, turns := s.turns + 1, sinceSwap := s.sinceSwap + 1 }

omit [Scalar K] in
theorem samples_afterTurn {s : Tempering K D} {which : ℕ} {c c' : Chain K D}
    (hc : s.chains[which]? = some c) (more : ℕ) (hc' : c'.samples = c.samples + more) :
    (s.afterTurn which c').chains.samples = s.chains.samples.modify which (· + more) := by
  refine List.ext_getElem? fun i => ?_
  by_cases hi : which = i
  · subst hi
    obtain ⟨hlt, heq⟩ := List.getElem?_eq_some_iff.mp hc
    simp [ChainGroup.samples, afterTurn, hlt, heq, hc']
  · simp [ChainGroup.samples, afterTurn, hi]

/-- A turn is a round of the chain whose turn it is, if the control lets it. -/
theorem takeTurn_apply (hall : ctl.ReportsAll) (hstarted : ctl.started = true) {which : ℕ}
    (hwhich : which = stage.subject.turns % stage.subject.chains.length) {c : Chain K D}
    (hc : stage.subject.chains[which]? = some c) :
    (takeTurn : Walk K (Tempering K D × Control) _) (stage.map (·, ctl)) =
      if ctl.tick.1 then
        (Chain.round ctl (stage.map fun _ => c)).bind fun went =>
          .done (went.1.failure?.elim (.ok (some (which, went.2.subject.current))) .error,
            went.2.map fun c => (stage.subject.afterTurn which c, ctl.tick.2))
      else .done (.ok none, stage.map fun s => (s.afterTurn which c, ctl.tick.2)) := by
  subst hwhich
  have hrun : (takeTurn : Walk K (Tempering K D × Control) _) (stage.map (·, ctl)) =
      (advance.onChainAndControl (stage.subject.turns % stage.subject.chains.length)
        Chain.advance >>= fun sample =>
          pure (sample.join.map fun x => (stage.subject.turns % stage.subject.chains.length, x)) :
        Walk K (Tempering K D × Control) _) (stage.map fun s =>
          ({ s with turns := s.turns + 1, sinceSwap := s.sinceSwap + 1 }, ctl)) := rfl
  have hmember : (advance.onChainAndControl (stage.subject.turns % stage.subject.chains.length)
      Chain.advance : Walk K (Tempering K D × Control) _) (stage.map fun s =>
        ({ s with turns := s.turns + 1, sinceSwap := s.sinceSwap + 1 }, ctl)) =
      (Chain.advance ((stage.map fun _ => c).map (·, ctl))).bind fun went =>
        .done (went.1.map some, went.2.map fun on => (stage.subject.afterTurn
          (stage.subject.turns % stage.subject.chains.length) on.1, on.2)) := by
    unfold advance.onChainAndControl
    dsimp only [Stage.map]
    rw [hc]
    rfl
  rw [hrun, Walk.bind_apply, hmember, Rand.bind_assoc, Chain.advance_of_reportsAll hall hstarted]
  split
  · rw [Rand.bind_assoc]
    refine congrArg (Rand.bind _) (funext ?_)
    rintro ⟨event, after⟩
    dsimp only [Rand.done_bind]
    cases event.failure? <;> rfl
  · rfl

/-- What comes of a turn: it is counted in any case; a sample is reported, and taken by the chain
whose turn it is, as long as the control lets it. -/
inductive Turned (ctl : Control) (s s' : Tempering K D) :
    Except SampleError (Option (ℕ × Sample K)) → Prop
  | failed (e : SampleError) : Turned ctl s s' (.error e)
  | ended (hrunning : ctl.tick.1 = false) (hturns : s'.turns = s.turns + 1)
      (hsamples : s'.chains.samples = s.chains.samples) : Turned ctl s s' (.ok none)
  | sampled (hrunning : ctl.tick.1 = true) (hturns : s'.turns = s.turns + 1) (x : Sample K)
      (hsamples : s'.chains.samples =
        s.chains.samples.modify (s.turns % s.chains.length) (· + 1)) :
      Turned ctl s s' (.ok (some (s.turns % s.chains.length, x)))

theorem turned_of_yields_advance (hall : ctl.ReportsAll) (hstarted : ctl.started = true)
    (hchains : stage.subject.chains ≠ []) {r : Except SampleError (Option (ℕ × Sample K))}
    {after : Stage K (Tempering K D × Control)}
    (h : Rand.Yields ((advance : Walk K (Tempering K D × Control) _) (stage.map (·, ctl))) (r, after)) :
    after.subject.2 = ctl.tick.2 ∧ Turned ctl stage.subject after.subject.1 r := by
  rw [advance_eq_takeTurn hchains hstarted, Rand.yields_bind] at h
  obtain ⟨⟨r', swapped⟩, hswap, hturn⟩ := h
  obtain ⟨rfl, hturns, hsamples⟩ := sameTurn_of_yields_swapIfDue hswap
  have hlength : swapped.subject.chains.length = stage.subject.chains.length := by
    simpa [ChainGroup.samples] using congrArg List.length hsamples
  have hwhich : stage.subject.turns % stage.subject.chains.length < swapped.subject.chains.length := by
    rw [hlength]
    exact Nat.mod_lt _ (List.length_pos_of_ne_nil hchains)
  have hc := List.getElem?_eq_getElem hwhich
  dsimp only at hturn
  rw [takeTurn_apply hall hstarted (by rw [hturns, hlength]) hc] at hturn
  have hturns' : swapped.subject.turns + 1 = stage.subject.turns + 1 := congrArg (· + 1) hturns
  split at hturn
  · next hrunning =>
    obtain ⟨⟨event, went⟩, hround, heq⟩ := (Rand.yields_bind ..).mp hturn
    obtain ⟨hpasses, -⟩ := Chain.passes_of_yields_round hround
    cases heq
    refine ⟨rfl, ?_⟩
    cases hfailure : event.failure? with
    | some e => exact .failed e
    | none =>
      refine .sampled hrunning hturns' _ ?_
      rw [← hsamples]
      exact samples_afterTurn hc 1 (hpasses.samples_eq hfailure)
  · next hrunning =>
    cases hturn
    refine ⟨rfl, .ended (Bool.eq_false_iff.mpr hrunning) hturns' ?_⟩
    rw [← hsamples]
    exact (samples_afterTurn hc 0 rfl).trans (List.modify_id _ _)

end Turn

section Runs

/-- Whose turns so many turns are, from the first of them on, where so many chains take turns. -/
def roundRobin (chains first turns : ℕ) : List ℕ :=
  (List.range turns).map fun i => (first + i) % chains

theorem roundRobin_succ (chains first turns : ℕ) :
    roundRobin chains first (turns + 1) = first % chains :: roundRobin chains (first + 1) turns := by
  simp [roundRobin, List.range_succ_eq_map, Nat.add_assoc, Nat.add_comm 1]

/-- The turns of one chain are those before the last that are congruent to it, less those before the
first. -/
theorem count_roundRobin {chains m : ℕ} (hm : m < chains) (first turns : ℕ) :
    (roundRobin chains first turns).count m + first.count (· ≡ m [MOD chains]) =
      (first + turns).count (· ≡ m [MOD chains]) := by
  induction turns with
  | zero => simp [roundRobin]
  | succ turns ih =>
    rw [← Nat.add_assoc, Nat.count_succ, ← ih, roundRobin, List.range_succ, List.map_append,
      List.count_append, ← roundRobin]
    simp only [Nat.ModEq, Nat.mod_eq_of_lt hm, List.map_singleton, List.count_singleton, beq_iff_eq]
    omega

/-- Chains that take turns have as many as each other, but for one. -/
theorem count_roundRobin_le {chains m m' : ℕ} (hm : m < chains) (hm' : m' < chains)
    (first turns : ℕ) :
    (roundRobin chains first turns).count m ≤ (roundRobin chains first turns).count m' + 1 := by
  have hchains : 0 < chains := by omega
  have h := count_roundRobin hm first turns
  have h' := count_roundRobin hm' first turns
  simp only [Nat.count_modEq_card _ hchains, Nat.mod_eq_of_lt hm, Nat.mod_eq_of_lt hm'] at h h'
  split_ifs at h h' <;> omega

theorem grow_modify (samples : List ℕ) (which : ℕ) (later : List ℕ) :
    ((samples.modify which (· + 1)).mapIdx fun m k => k + later.count m) =
      samples.mapIdx fun m k => k + (which :: later).count m := by
  refine List.ext_getElem? fun i => ?_
  by_cases hi : which = i
  · subst hi
    cases h : samples[which]? <;> simp [h, Nat.add_comm, Nat.add_left_comm]
  · simp [hi]

/-- What comes of a run: the chains took so many samples in turn, and the turn after them was
counted too. -/
structure TookTurns (steps : ℕ) (s s' : Tempering K D) (which : List ℕ) : Prop where
  which_eq : which = roundRobin s.chains.length s.turns steps
  turns_eq : s'.turns = s.turns + steps + 1
  samples_eq : s'.chains.samples = s.chains.samples.mapIdx fun m k => k + which.count m

omit [Scalar K] in
theorem length_eq_of_samples {s s' : Tempering K D} {f : List ℕ → List ℕ}
    (hf : ∀ samples, (f samples).length = samples.length)
    (h : s'.chains.samples = f s.chains.samples) : s'.chains.length = s.chains.length := by
  simpa [ChainGroup.samples, hf] using congrArg List.length h

namespace TookTurns

variable {steps : ℕ} {s between s' : Tempering K D} {which : List ℕ}

omit [Scalar K] in
theorem nil (hturns : s'.turns = s.turns + 1) (hsamples : s'.chains.samples = s.chains.samples) :
    TookTurns 0 s s' [] := by
  refine ⟨rfl, hturns, ?_⟩
  simp only [List.count_nil, Nat.add_zero, hsamples]
  exact (List.ext_getElem? fun i => by simp).symm

omit [Scalar K] in
theorem cons (hturns : between.turns = s.turns + 1)
    (hsamples : between.chains.samples =
      s.chains.samples.modify (s.turns % s.chains.length) (· + 1))
    (h : TookTurns steps between s' which) :
    TookTurns (steps + 1) s s' (s.turns % s.chains.length :: which) := by
  have hlength : between.chains.length = s.chains.length :=
    length_eq_of_samples (fun _ => List.length_modify ..) hsamples
  obtain ⟨hwhich, hturns', hsamples'⟩ := h
  refine ⟨?_, ?_, ?_⟩
  · rw [hwhich, hlength, hturns, roundRobin_succ]
  · omega
  · rw [hsamples', hsamples, grow_modify]

end TookTurns

/-- As long as a run goes on, the chains take samples in turn. -/
theorem tookTurns_of_yields_collect (ctl : Control) (stage : Stage K (Tempering K D)) {bound : ℕ}
    {collected : List (ℕ × Sample K)} {after : Stage K (Tempering K D × Control)}
    {report : Report (ℕ × Sample K)} (hall : ctl.ReportsAll) (hstarted : ctl.started = true)
    (hsteps : 0 < ctl.steps) (hbound : ctl.steps - ctl.doneSteps < bound)
    (hchains : stage.subject.chains ≠ []) (hnone : report.failure = none)
    (h : Rand.Yields (SafeWalk.collect advance bound collected (stage.map (·, ctl)))
      (report, after)) :
    ∃ later, report.reported = collected.reverse ++ later ∧
      TookTurns (ctl.steps - ctl.doneSteps) stage.subject after.subject.1 (later.map Prod.fst) := by
  induction bound generalizing ctl collected stage with
  | zero => exact absurd hbound (Nat.not_lt_zero _)
  | succ bound ih =>
    rw [SafeWalk.collect_succ, Rand.yields_bind] at h
    obtain ⟨⟨r, turned⟩, hadvance, hrest⟩ := h
    obtain ⟨hctl, hturned⟩ := turned_of_yields_advance hall hstarted hchains hadvance
    cases hturned with
    | failed e =>
      cases hrest
      cases hnone
    | ended hrunning hturns hsamples =>
      cases hrest
      have hused := mt (Control.tick_iff hsteps).mpr (ne_true_of_eq_false hrunning)
      rw [Nat.sub_eq_zero_of_le (Nat.not_lt.mp hused)]
      exact ⟨[], (List.append_nil _).symm, .nil hturns hsamples⟩
    | sampled hrunning hturns x hsamples =>
      have hleft := (Control.tick_iff hsteps).mp hrunning
      have hlength : turned.subject.1.chains.length = stage.subject.chains.length :=
        length_eq_of_samples (fun _ => List.length_modify ..) hsamples
      -- the induction hypothesis is about a stage with the control that is left after one step
      have hstage : turned = (turned.map Prod.fst).map (·, ctl.tick.2) := by
        rw [← hctl]
        rfl
      have hrest : Rand.Yields (SafeWalk.collect advance bound
          ((stage.subject.turns % stage.subject.chains.length, x) :: collected) turned)
            (report, after) := hrest
      rw [hstage] at hrest
      have hfewer : ctl.steps - ctl.doneSteps = ctl.steps - (ctl.doneSteps + 1) + 1 := by omega
      obtain ⟨later, hreported, htook⟩ := ih ctl.tick.2 _ ⟨hall.burn_eq, hall.thin_le⟩
        hstarted hsteps (show ctl.steps - (ctl.doneSteps + 1) < bound by omega)
        (List.ne_nil_of_length_pos (hlength ▸ List.length_pos_of_ne_nil hchains)) hrest
      refine ⟨(_, x) :: later, ?_, hfewer ▸ htook.cons hturns hsamples⟩
      rw [hreported, List.reverse_cons, List.append_assoc]
      rfl

/-- A run that does not fail has the chains take its steps in turn. -/
theorem tookTurns_of_yields_run {ctl : Control} {stage after : Stage K (Tempering K D)}
    {report : Report (ℕ × Sample K)} (hall : ctl.ReportsAll) (hsteps : 0 < ctl.steps)
    (hchains : stage.subject.chains ≠ []) (hnone : report.failure = none)
    (h : Rand.Yields (run ctl stage) (report, after)) :
    TookTurns ctl.steps stage.subject after.subject (report.reported.map Prod.fst) := by
  obtain ⟨inner, hcollect, hsubject, -⟩ := Walk.of_yields_onPart h
  have hbound : ctl.stepBound = ctl.steps := if_neg (by omega)
  obtain ⟨later, hreported, htook⟩ := tookTurns_of_yields_collect ctl.start stage
    ⟨hall.burn_eq, hall.thin_le⟩ rfl hsteps (by rw [hbound]; exact Nat.lt_succ_of_le (Nat.sub_le _ _))
    hchains hnone hcollect
  rw [hreported, hsubject]
  exact htook

/-- Several runs in turn, and what each of them reports. -/
def runAll : List Control → SafeWalk K (Tempering K D) (List (Report (ℕ × Sample K)))
  | [] => pure []
  | ctl :: ctls => do
      let report ← run ctl
      let reports ← runAll ctls
      pure (report :: reports)

/-- The chains that the samples of a report came from, in order. -/
def whichOf (report : Report (ℕ × Sample K)) : List ℕ := report.reported.map Prod.fst

/-- The turns that were taken when the run of a number begins: those of the samples, and one for
each run before it. -/
def begun (turns : ℕ) (ctls : List Control) (k : ℕ) : ℕ :=
  turns + ((ctls.take k).map (·.steps)).sum + k

theorem begun_cons (turns : ℕ) (ctl : Control) (ctls : List Control) (k : ℕ) :
    begun turns (ctl :: ctls) (k + 1) = begun (turns + ctl.steps + 1) ctls k := by
  simp only [begun, List.take_succ_cons, List.map_cons, List.sum_cons]
  omega

theorem grow_append (samples first later : List ℕ) :
    ((samples.mapIdx fun m k => k + first.count m).mapIdx fun m k => k + later.count m) =
      samples.mapIdx fun m k => k + (first ++ later).count m := by
  refine List.ext_getElem? fun i => ?_
  cases h : samples[i]? <;> simp [h]

/-- What comes of several runs. -/
structure TookRuns (ctls : List Control) (s s' : Tempering K D)
    (reports : List (Report (ℕ × Sample K))) : Prop where
  which_eq : reports.map whichOf = ctls.mapIdx fun k ctl =>
    roundRobin s.chains.length (begun s.turns ctls k) ctl.steps
  turns_eq : s'.turns = begun s.turns ctls ctls.length
  samples_eq : s'.chains.samples =
    s.chains.samples.mapIdx fun m k => k + (reports.flatMap whichOf).count m

theorem tookRuns_of_yields_runAll {ctls : List Control}
    (hctls : ∀ ctl ∈ ctls, ctl.ReportsAll ∧ 0 < ctl.steps) {stage ended : Stage K (Tempering K D)}
    (hchains : stage.subject.chains ≠ []) {reports : List (Report (ℕ × Sample K))}
    (hnone : ∀ report ∈ reports, report.failure = none)
    (h : Rand.Yields (runAll ctls stage) (reports, ended)) :
    TookRuns ctls stage.subject ended.subject reports := by
  induction ctls generalizing stage reports with
  | nil =>
    cases h
    exact ⟨rfl, rfl, (List.ext_getElem? fun i => by simp).symm⟩
  | cons ctl ctls ih =>
    obtain ⟨⟨report, between⟩, hrun, hrest⟩ := (Rand.yields_bind ..).mp h
    obtain ⟨⟨later, ended'⟩, hlater, heq⟩ := (Rand.yields_bind ..).mp hrest
    cases heq
    obtain ⟨hall, hsteps⟩ := hctls ctl List.mem_cons_self
    obtain ⟨hwhich, hturns, hsamples⟩ :=
      tookTurns_of_yields_run hall hsteps hchains (hnone report List.mem_cons_self) hrun
    have hlength : between.subject.chains.length = stage.subject.chains.length :=
      length_eq_of_samples (fun _ => List.length_mapIdx) hsamples
    obtain ⟨hwhich', hturns', hsamples'⟩ := ih (fun c hc => hctls c (List.mem_cons_of_mem ctl hc))
      (List.ne_nil_of_length_pos (hlength ▸ List.length_pos_of_ne_nil hchains))
      (fun r hr => hnone r (List.mem_cons_of_mem report hr)) hlater
    refine ⟨?_, ?_, ?_⟩
    · rw [List.map_cons, hwhich', List.mapIdx_cons, hlength, hturns]
      simp only [begun_cons]
      exact congrArg (· :: _) hwhich
    · rw [hturns', hturns, List.length_cons, begun_cons]
    · rw [hsamples', hsamples, List.flatMap_cons]
      exact grow_append ..

omit [Scalar K] in
/-- If chains take turns in each of several runs, then they have as many turns as each other in all
of them, but for one for each run. -/
theorem count_flatMap_le {reports : List (Report (ℕ × Sample K))} {m m' : ℕ}
    (h : ∀ report ∈ reports, (whichOf report).count m ≤ (whichOf report).count m' + 1) :
    (reports.flatMap whichOf).count m ≤ (reports.flatMap whichOf).count m' + reports.length := by
  induction reports with
  | nil => simp
  | cons report reports ih =>
    have hfirst := h report List.mem_cons_self
    have hrest := ih fun r hr => h r (List.mem_cons_of_mem report hr)
    simp only [List.flatMap_cons, List.count_append, List.length_cons]
    omega

/-- In runs that report every step and do not fail, the samples of each run come from the chains in
turn. It begins with the chain whose turn it is by all turns that were counted before: one for each
sample, and one more for each run. So in each run the chains take as many samples as each other but
for one, and over all runs but for one for each of them. -/
theorem runs_take_turns {ctls : List Control}
    (hctls : ∀ ctl ∈ ctls, 0 < ctl.steps ∧ ctl.burn = 0 ∧ ctl.thin ≤ 1)
    {stage ended : Stage K (Tempering K D)} (hchains : stage.subject.chains ≠ [])
    {reports : List (Report (ℕ × Sample K))} (h : Rand.Yields (runAll ctls stage) (reports, ended))
    (hnone : ∀ report ∈ reports, report.failure = none) :
    let n := stage.subject.chains.length
    let turns k := stage.subject.turns + ((ctls.take k).map (·.steps)).sum + k
    reports.map (fun report => report.reported.map Prod.fst) =
        ctls.mapIdx (fun k ctl => (List.range ctl.steps).map fun i => (turns k + i) % n) ∧
      ended.subject.turns = turns ctls.length ∧
      ended.subject.chains.samples = stage.subject.chains.samples.mapIdx (fun m taken =>
        taken + (reports.flatMap fun report => report.reported.map Prod.fst).count m) ∧
      ∀ m < n, ∀ m' < n,
        (∀ report ∈ reports, (report.reported.map Prod.fst).count m ≤
          (report.reported.map Prod.fst).count m' + 1) ∧
        (reports.flatMap fun report => report.reported.map Prod.fst).count m ≤
          (reports.flatMap fun report => report.reported.map Prod.fst).count m' + ctls.length := by
  intro n turns
  have hall : ∀ ctl ∈ ctls, ctl.ReportsAll ∧ 0 < ctl.steps := fun ctl hctl =>
    ⟨⟨(hctls ctl hctl).2.1, (hctls ctl hctl).2.2⟩, (hctls ctl hctl).1⟩
  obtain ⟨hwhich, hturns, hsamples⟩ := tookRuns_of_yields_runAll hall hchains hnone h
  refine ⟨hwhich, hturns, hsamples, fun m hm m' hm' => ?_⟩
  have hlength : reports.length = ctls.length := by simpa using congrArg List.length hwhich
  have heach : ∀ report ∈ reports, (whichOf report).count m ≤ (whichOf report).count m' + 1 := by
    intro report hreport
    have hmem := List.mem_map_of_mem (f := whichOf) hreport
    rw [hwhich, List.mem_mapIdx] at hmem
    obtain ⟨k, hk, heq⟩ := hmem
    rw [← heq]
    exact count_roundRobin_le hm hm' _ _
  exact ⟨heach, hlength ▸ count_flatMap_le heach⟩

end Runs

section GoingOn

variable {I : Chain K D → Prop} {stage : Stage K (Tempering K D)}

/-- There are chains, and they are all of a kind. They do not change places. -/
structure Unswapped (I : Chain K D → Prop) (s : Tempering K D) : Prop where
  nonempty : s.chains ≠ []
  swapEvery_eq : s.swapEvery = 0
  each : ∀ c ∈ s.chains, I c

omit [Scalar K] in
theorem Unswapped.afterTurn {s : Tempering K D} (h : s.Unswapped I) (which : ℕ) {c : Chain K D}
    (hc : I c) : (s.afterTurn which c).Unswapped I := by
  refine ⟨?_, h.swapEvery_eq, fun d hd => ?_⟩
  · simpa [Tempering.afterTurn] using h.nonempty
  · rcases List.mem_or_eq_of_mem_set hd with hd | rfl
    · exact h.each d hd
    · exact hc

/-- If chains of the kind may go on, some draws lead them through a turn without restarts. -/
theorem Unswapped.exists_advance (hI : Chain.GoesOn I) {ctl : Control} (hall : ctl.ReportsAll)
    (hstarted : ctl.started = true) (hnever : ctl.restart = 0) (h : stage.subject.Unswapped I) :
    ∃ x, ∃ after : Stage K (Tempering K D),
      Rand.Yields ((advance : Walk K (Tempering K D × Control) _) (stage.map (·, ctl)))
        (.ok x, after.map (·, ctl.tick.2)) ∧ after.subject.Unswapped I := by
  have hswap : (swapIfDue : Walk K (Tempering K D) Unit) stage = .done (.ok (), stage) := by
    change (if 0 < stage.subject.swapEvery && stage.subject.swapEvery ≤ stage.subject.sinceSwap then _
      else pure () : Walk K (Tempering K D) Unit) stage = _
    rw [h.swapEvery_eq]
    rfl
  obtain ⟨c, hc⟩ : ∃ c,
      stage.subject.chains[stage.subject.turns % stage.subject.chains.length]? = some c :=
    ⟨_, List.getElem?_eq_getElem (Nat.mod_lt _ (List.length_pos_of_ne_nil h.nonempty))⟩
  have hcI := h.each c (List.mem_of_getElem? hc)
  rw [advance_eq_takeTurn h.nonempty hstarted, hswap, Rand.done_bind]
  dsimp only
  rw [takeTurn_apply hall hstarted rfl hc]
  split
  · obtain ⟨accepted, after, hround, hafter⟩ :=
      hI.exists_round ctl hnever (stage.map fun _ => c) hcI
    exact ⟨_, after.map (stage.subject.afterTurn _), (Rand.yields_bind ..).mpr ⟨_, hround, rfl⟩,
      h.afterTurn _ hafter⟩
  · exact ⟨_, stage.map (Tempering.afterTurn (stage.subject.turns % stage.subject.chains.length) c ·),
      rfl, h.afterTurn _ hcI⟩

theorem Unswapped.exists_collect (hI : Chain.GoesOn I) (ctl : Control) (bound : ℕ)
    (collected : List (ℕ × Sample K)) (hall : ctl.ReportsAll) (hstarted : ctl.started = true)
    (hnever : ctl.restart = 0) (h : stage.subject.Unswapped I) :
    ∃ report, ∃ after : Stage K (Tempering K D × Control),
      Rand.Yields (SafeWalk.collect advance bound collected (stage.map (·, ctl))) (report, after) ∧
        report.failure = none ∧ after.subject.1.Unswapped I := by
  induction bound generalizing ctl collected stage with
  | zero => exact ⟨⟨collected.reverse, none⟩, stage.map (·, ctl), rfl, rfl, h⟩
  | succ bound ih =>
    obtain ⟨x, turned, hadvance, hturned⟩ := h.exists_advance hI hall hstarted hnever
    cases x with
    | none =>
      refine ⟨⟨collected.reverse, none⟩, turned.map (·, ctl.tick.2), ?_, rfl, hturned⟩
      rw [SafeWalk.collect_succ]
      exact (Rand.yields_bind ..).mpr ⟨_, hadvance, rfl⟩
    | some x =>
      obtain ⟨report, after, hcollect, hnone, hafter⟩ :=
        ih ctl.tick.2 (x :: collected) ⟨hall.burn_eq, hall.thin_le⟩ hstarted hnever hturned
      refine ⟨report, after, ?_, hnone, hafter⟩
      rw [SafeWalk.collect_succ]
      exact (Rand.yields_bind ..).mpr ⟨_, hadvance, hcollect⟩

/-- Some draws lead tempered chains that go on through runs of which none fails. -/
theorem exists_yields_runAll (hI : Chain.GoesOn I) {ctls : List Control}
    (hctls : ∀ ctl ∈ ctls, ctl.ReportsAll ∧ ctl.restart = 0) (stage : Stage K (Tempering K D))
    (h : stage.subject.Unswapped I) :
    ∃ reports ended, Rand.Yields (runAll ctls stage) (reports, ended) ∧
      (∀ report ∈ reports, report.failure = none) ∧ ended.subject.Unswapped I := by
  induction ctls generalizing stage with
  | nil => exact ⟨[], stage, rfl, by simp, h⟩
  | cons ctl ctls ih =>
    obtain ⟨hall, hnever⟩ := hctls ctl List.mem_cons_self
    obtain ⟨report, inner, hcollect, hnone, hinner⟩ := h.exists_collect hI ctl.start
      (ctl.stepBound + 1) [] ⟨hall.burn_eq, hall.thin_le⟩ rfl hnever
    let between : Stage K (Tempering K D) :=
      ⟨inner.subject.1, inner.names, inner.tally, inner.records⟩
    have hrun : Rand.Yields (run ctl stage) (report, between) :=
      (Rand.yields_bind ..).mpr ⟨_, hcollect, rfl⟩
    obtain ⟨reports, ended, hlater, hnones, hended⟩ :=
      ih (fun c hc => hctls c (List.mem_cons_of_mem ctl hc)) between hinner
    exact ⟨report :: reports, ended, (Rand.yields_bind ..).mpr ⟨_, hrun,
      (Rand.yields_bind ..).mpr ⟨_, hlater, rfl⟩⟩, List.forall_mem_cons.mpr ⟨hnone, hnones⟩, hended⟩

end GoingOn

section Made

/-- A chain restarts from a tree that may be generated and has a score. -/
theorem yields_restart {c : Chain K D} {t : Tree K} {score : Score K}
    (hlasting : c.problem.model.allowance = none) {names names' : NameSupply}
    (hgenerated : (c.problem.grammar.generateRetrying c.current.tree.nonterminal
      c.problem.proposer.maxAttempts).Yields names (.ok t) names')
    (hscore : c.problem.model.logPosterior c.problem.grammar t c.problem.data = .ok score)
    (tally : Tally) (records : List (Record K)) :
    Rand.Yields ((Chain.restart : Walk K (Chain K D) Unit) ⟨c, names, tally, records⟩)
      (.ok (), ⟨{ c with current := ⟨t, score⟩, best := score.posterior, stepsSinceImprovement := 0 },
        names', (c.problem.model.assess c.problem.grammar t c.problem.data tally).2, records⟩) := by
  have hassess : (Walk.assess c.problem.model c.problem.grammar t c.problem.data :
      Walk K (Chain K D) _) ⟨c, names', tally, records⟩ = .done (.ok score,
        ⟨c, names', (c.problem.model.assess c.problem.grammar t c.problem.data tally).2,
          records⟩) := by
    rw [Walk.assess_apply, Model.assess_fst _ hlasting, hscore]
    rfl
  refine Walk.yields_bind.mpr (.inr ⟨c, _, rfl, ?_⟩)
  refine Walk.yields_bind.mpr (.inr ⟨t, _, (Rand.yields_bind ..).mpr ⟨_, hgenerated, rfl⟩, ?_⟩)
  dsimp only
  rw [Walk.bind_apply, hassess, Rand.done_bind]
  rfl

/-- A chain that is made from a tree of some score, or that restarts from it. -/
def placed (p : Problem K D) (sample : Sample K) (best temperature : K) : Chain K D :=
  { Chain.fresh p sample with
    best, temperatures := { Temperatures.unit with likelihood := temperature } }

variable {σ : Type} {p : Problem K D} {t : Tree K} {score : Score K}

theorem exists_yields_startChains (hlasting : p.model.allowance = none)
    (hscore : p.model.logPosterior p.grammar t p.data = .ok score)
    (hgenerated : ∀ names, ∃ names',
      (p.grammar.generateRetrying t.nonterminal p.proposer.maxAttempts).Yields names (.ok t) names')
    (temperatures : List K) (stage : Stage K σ) : ∃ stage' : Stage K σ,
      Rand.Yields ((startChains p t false temperatures : Walk K σ _) stage)
        (.ok (temperatures.map (placed p ⟨t, score⟩ score.posterior)), stage') := by
  have hwarm : ∀ stage : Stage K σ, ∃ stage' : Stage K σ, Rand.Yields
      ((Walk.onOwn (Chain.fresh p ⟨t, score⟩) (do Chain.restart; Walk.subject) : Walk K σ _) stage)
        (.ok { Chain.fresh p ⟨t, score⟩ with best := score.posterior }, stage') := by
    intro stage
    obtain ⟨names, hgenerated⟩ := hgenerated stage.names
    exact ⟨_, (Rand.yields_bind ..).mpr ⟨_, Walk.yields_bind.mpr (.inr ⟨(), _,
      yields_restart (c := Chain.fresh p ⟨t, score⟩) hlasting hgenerated hscore stage.tally
        stage.records, rfl⟩), rfl⟩⟩
  induction temperatures generalizing stage with
  | nil => exact ⟨stage, rfl⟩
  | cons temperature temperatures ih =>
    obtain ⟨warmed, hwarmed⟩ :=
      hwarm { stage with tally := (p.model.assess p.grammar t p.data stage.tally).2 }
    obtain ⟨made, hrest⟩ := ih warmed
    refine ⟨made, ?_⟩
    rw [startChains_cons]
    refine Walk.yields_bind.mpr (.inr ⟨_, _, Chain.yields_ofTree hlasting hscore stage, ?_⟩)
    refine Walk.yields_bind.mpr (.inr ⟨_, warmed, hwarmed, ?_⟩)
    exact Walk.yields_bind.mpr (.inr ⟨_, made, hrest, rfl⟩)

/-- If a tree may be generated, tempered chains may be made that all begin with it. -/
theorem exists_yields_ofTree (hlasting : p.model.allowance = none)
    (hscore : p.model.logPosterior p.grammar t p.data = .ok score)
    (hgenerated : ∀ names, ∃ names',
      (p.grammar.generateRetrying t.nonterminal p.proposer.maxAttempts).Yields names (.ok t) names')
    (coldest : K) (temperatures : List K) (swapEvery : ℕ) (start : Stage K σ) :
    ∃ s made, Rand.Yields ((ofTree p t (coldest :: temperatures) swapEvery : Walk K σ _) start)
        (.ok s, made) ∧ s.swapEvery = swapEvery ∧ s.turns = 0 ∧
      s.chains = placed p ⟨t, score⟩ Scalar.negInf coldest ::
        temperatures.map (placed p ⟨t, score⟩ score.posterior) := by
  obtain ⟨made, hothers⟩ := exists_yields_startChains hlasting hscore hgenerated temperatures
    { start with tally := (p.model.assess p.grammar t p.data start.tally).2 }
  have hchains : Rand.Yields ((startChains p t true (coldest :: temperatures) : Walk K σ _) start)
      (.ok (placed p ⟨t, score⟩ Scalar.negInf coldest ::
        temperatures.map (placed p ⟨t, score⟩ score.posterior)), made) := by
    have hfirst := Chain.yields_ofTree hlasting hscore start
    rw [startChains_cons]
    refine Walk.yields_bind.mpr (.inr ⟨_, _, hfirst, ?_⟩)
    refine Walk.yields_bind.mpr (.inr ⟨_, _, rfl, ?_⟩)
    exact Walk.yields_bind.mpr (.inr ⟨_, made, hothers, rfl⟩)
  exact ⟨_, made, Walk.yields_bind.mpr (.inr ⟨_, made, hchains, rfl⟩), rfl, rfl, rfl⟩

end Made

section Terms

open Exact Chain

theorem exists_ofTree_countingTermsBy (kernel : Kernel Exact) {t : Tree Exact}
    (ht : Grammar.NamelessTerm t) :
    ∃ s made, Rand.Yields ((ofTree (countingTermsBy kernel) t [1, 1] 0 : Walk Exact Unit _)
        ⟨(), ⟨0⟩, ⟨0, 0⟩, []⟩) (.ok s, made) ∧ s.swapEvery = 0 ∧ s.turns = 0 ∧
      s.chains = [placed (countingTermsBy kernel) (countingSample t) Scalar.negInf 1,
        placed (countingTermsBy kernel) (countingSample t) (countingSample t).score.posterior 1] :=
  exists_yields_ofTree (σ := Unit) (p := countingTermsBy kernel) rfl (logPosterior_countingTerms t).1
    (fun names => ht.nonterminal_eq ▸ ht.exists_yields_generateRetrying names 3) 1 [1] 0
    ⟨(), ⟨0⟩, ⟨0, 0⟩, []⟩

/-- Two chains about terms take three steps in one run and two in the next, which begins with the
first of them again: four turns are counted before it. All steps may be accepted, and then both come
from the pair to the constant. -/
theorem runs_take_turns_terms :
    let ctls : List Control := [.ofFields 3 0 0 0 0, .ofFields 2 0 1 0 0]
    ∃ s made reports ended, Rand.Yields ((ofTree (countingTermsBy .regeneration) Grammar.pairTerm
        [1, 1] 0 : Walk Exact Unit _) ⟨(), ⟨0⟩, ⟨0, 0⟩, []⟩) (.ok s, made) ∧
      (∀ ctl ∈ ctls, 0 < ctl.steps ∧ ctl.burn = 0 ∧ ctl.thin ≤ 1) ∧ s.chains ≠ [] ∧
      Rand.Yields (runAll ctls ⟨s, made.names, made.tally, made.records⟩) (reports, ended) ∧
      (∀ report ∈ reports, report.failure = none) ∧
      reports.map (fun report => report.reported.map Prod.fst) = [[0, 1, 0], [0, 1]] ∧
      ended.subject.chains.samples = [3, 2] ∧
      ∀ c ∈ ended.subject.chains, c.acceptances = c.samples ∧
        c.current.tree = Grammar.constantTerm := by
  intro ctls
  obtain ⟨s, made, hmade, hswapEvery, hturns, hchains⟩ :=
    exists_ofTree_countingTermsBy .regeneration Grammar.namelessTerm_pairTerm
  have hlength : s.chains.length = 2 := by rw [hchains]; rfl
  have hsamples : s.chains.samples = [0, 0] := by rw [hchains]; rfl
  have hplaced : ∀ c ∈ s.chains, Accepting 0 c := by
    rw [hchains]
    rintro c (_ | ⟨_, _ | ⟨_, ⟨⟩⟩⟩)
    all_goals
      exact ⟨⟨rfl, rfl, rfl, Grammar.namelessTerm_pairTerm⟩, rfl, fun h => absurd h (lt_irrefl 0)⟩
  have hunswapped : s.Unswapped (Accepting 0) :=
    ⟨List.ne_nil_of_length_pos (hlength ▸ Nat.zero_lt_two), hswapEvery, hplaced⟩
  have hctls : ∀ ctl ∈ ctls, 0 < ctl.steps ∧ ctl.burn = 0 ∧ ctl.thin ≤ 1 := by decide
  have hnever : ∀ ctl ∈ ctls, ctl.restart = 0 := by decide
  obtain ⟨reports, ended, hyields, hnone, hended⟩ := exists_yields_runAll (goesOn_accepting 0)
    (fun ctl hctl => ⟨⟨(hctls ctl hctl).2.1, (hctls ctl hctl).2.2⟩, hnever ctl hctl⟩)
    ⟨s, made.names, made.tally, made.records⟩ hunswapped
  obtain ⟨hwhich, -, hsamples', -⟩ := runs_take_turns hctls hunswapped.nonempty hyields hnone
  have hwhich : reports.map (fun report => report.reported.map Prod.fst) = [[0, 1, 0], [0, 1]] := by
    rw [hwhich, hlength, hturns]
    decide
  have hgrown : ended.subject.chains.samples = [3, 2] := by
    rw [hsamples', hsamples, List.flatMap_def, hwhich]
    decide
  have hsampled : 0 ∉ ended.subject.chains.samples := by
    rw [hgrown]
    decide
  exact ⟨s, made, reports, ended, hmade, hctls, hunswapped.nonempty, hyields, hnone, hwhich, hgrown,
    Accepting.at_constant hended.each hsampled⟩

/-- Two chains about terms are run for one step and then for another. Both samples come from the
first chain, and the second one starves. -/
theorem runs_starve_terms :
    let ctls : List Control := [.ofFields 1 0 0 0 0, .ofFields 1 0 0 0 0]
    ∃ s made reports ended, Rand.Yields ((ofTree (countingTermsBy .delete) Grammar.constantTerm [1, 1] 0 :
        Walk Exact Unit _) ⟨(), ⟨0⟩, ⟨0, 0⟩, []⟩) (.ok s, made) ∧
      s.chains.length = 2 ∧ s.turns = 0 ∧
      Rand.Yields (runAll ctls ⟨s, made.names, made.tally, made.records⟩) (reports, ended) ∧
      (∀ report ∈ reports, report.failure = none) ∧
      (reports.flatMap fun report => report.reported.map Prod.fst) = [0, 0] ∧
      (reports.flatMap fun report => report.reported.map Prod.fst) ≠ (List.range 2).map (· % 2) ∧
      ended.subject.chains.samples = [2, 0] := by
  intro ctls
  obtain ⟨s, made, hmade, hswapEvery, hturns, hchains⟩ :=
    exists_ofTree_countingTermsBy .delete Grammar.namelessTerm_constantTerm
  have hlength : s.chains.length = 2 := by rw [hchains]; rfl
  have hsamples : s.chains.samples = [0, 0] := by rw [hchains]; rfl
  have hstuck : ∀ c ∈ s.chains, c.Stuck := by
    rw [hchains]
    rintro c (_ | ⟨_, _ | ⟨_, ⟨⟩⟩⟩)
    all_goals exact stuck_constantTerm rfl rfl
  have hunswapped : s.Unswapped Stuck :=
    ⟨List.ne_nil_of_length_pos (hlength ▸ Nat.zero_lt_two), hswapEvery, hstuck⟩
  have hplain : ∀ ctl ∈ ctls, ctl.burn = 0 ∧ ctl.thin ≤ 1 := by decide
  have hall : ∀ ctl ∈ ctls, ctl.ReportsAll := fun ctl hctl =>
    ⟨(hplain ctl hctl).1, (hplain ctl hctl).2⟩
  have hsteps : ∀ ctl ∈ ctls, 0 < ctl.steps := by decide
  have hnever : ∀ ctl ∈ ctls, ctl.restart = 0 := by decide
  obtain ⟨reports, ended, hyields, hnone, -⟩ := exists_yields_runAll goesOn_stuck
    (fun ctl hctl => ⟨hall ctl hctl, hnever ctl hctl⟩)
    ⟨s, made.names, made.tally, made.records⟩ hunswapped
  obtain ⟨hwhich, -, hsamples'⟩ := tookRuns_of_yields_runAll
    (fun ctl hctl => ⟨hall ctl hctl, hsteps ctl hctl⟩) hunswapped.nonempty hnone hyields
  have hwhich : reports.map whichOf = [[0], [0]] := by
    rw [hwhich, hlength, hturns]
    decide
  have hflat : reports.flatMap whichOf = [0, 0] := by
    rw [List.flatMap_def, hwhich]
    rfl
  refine ⟨s, made, reports, ended, hmade, hlength, hturns, hyields, hnone, hflat, ?_, ?_⟩
  · exact hflat.trans_ne (by decide)
  · rw [hsamples', hsamples, hflat]
    decide

end Terms

end Tempering

end ScopedGrammar
