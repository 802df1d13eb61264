import ScopedGrammar.Chain.Pool
import ScopedGrammar.Proofs.Chain.Accounts

/-!
# Slices

A pool runs its chains in turn, a slice of steps each, until the steps of the run are used up. The
run is told here together with the slices that it falls into. If none of them fails they are laid
out by the number of chains, the length of a slice and the number of steps alone, and the samples of
the chains grow by just what they are given.
-/
namespace ScopedGrammar.Pool

/-- A slice that was run. -/
structure Slice where
  /-- The chain that it ran on. -/
  which : ℕ
  /-- The steps that were counted when it began, its first one included. -/
  counted : ℕ
  /-- The steps that it was given. -/
  length : ℕ
  /-- The samples that it took. -/
  taken : ℕ
  deriving DecidableEq

/-- The samples that some slices took on one chain. -/
def takenBy (which : ℕ) (slices : List Slice) : ℕ :=
  ((slices.filter (·.which == which)).map (·.taken)).sum

theorem takenBy_cons (which : ℕ) (slice : Slice) (slices : List Slice) :
    takenBy which (slice :: slices) =
      (if slice.which = which then slice.taken else 0) + takenBy which slices := by
  by_cases h : slice.which = which
  · simp [takenBy, h]
  · simp [takenBy, h]

/-- The slice of a number, where the chains take turns and the last slice takes what is left. -/
def planned (chains sliceSteps steps k : ℕ) : Slice :=
  ⟨k % chains, k * sliceSteps + 1, min sliceSteps (steps - k * sliceSteps),
    min sliceSteps (steps - k * sliceSteps)⟩

/-- The control behind a slice that took some samples, one of which was counted when it began. -/
def afterSlice (ctl : Control) (taken : ℕ) : Control :=
  { ctl.tick.2 with doneSteps := ctl.tick.2.doneSteps + (taken - 1) }

theorem lt_doneSteps_afterSlice (ctl : Control) (taken : ℕ) :
    ctl.doneSteps < (afterSlice ctl taken).doneSteps :=
  Nat.lt_of_succ_le (Nat.le_add_right (ctl.doneSteps + 1) (taken - 1))

theorem doneSteps_afterSlice (ctl : Control) {taken : ℕ} (h : 0 < taken) :
    (afterSlice ctl taken).doneSteps = ctl.doneSteps + taken := by
  change ctl.doneSteps + 1 + (taken - 1) = _
  omega

theorem steps_sliceControl {ctl : Control} (hsteps : 0 < ctl.steps) (sliceSteps : ℕ) :
    (sliceControl sliceSteps ctl.tick.2).steps =
      min (max sliceSteps 1) (ctl.steps - ctl.doneSteps) := by
  change (if 0 < ctl.steps then min _ (ctl.steps + 1 - (ctl.doneSteps + 1)) else _) = _
  rw [if_pos hsteps, Nat.add_sub_add_right]

variable {K D : Type} [Scalar K]

/-- Run slices in turn and tell which. -/
def tellFrom : ℕ → Control → ℕ → List (ℕ × Sample K) →
    SafeWalk K (Pool K D) (Report (ℕ × Sample K) × List Slice)
  | 0, _, _, collected => fun stage => .done ((⟨collected.reverse, none⟩, []), stage)
  | bound + 1, ctl, index, collected => fun stage =>
      if ctl.tick.1 then
        let which := index % stage.subject.chains.length
        let slice := sliceControl stage.subject.sliceSteps ctl.tick.2
        (runSlice which slice stage).bind fun ((report, taken), stage) =>
          let told : Slice := ⟨which, ctl.tick.2.doneSteps, slice.steps, taken⟩
          let collected := (report.reported.map fun s => (which, s)).reverse ++ collected
          match report.failure with
          | some e => .done ((⟨collected.reverse, some e⟩, [told]), stage)
          | none =>
              (tellFrom bound (afterSlice ctl taken) (index + 1) collected stage).bind
                fun ((report, later), stage) => .done ((report, told :: later), stage)
      else .done ((⟨collected.reverse, none⟩, []), stage)

/-- Run a pool with chains and tell the slices. -/
def tell (ctl : Control) : SafeWalk K (Pool K D) (Report (ℕ × Sample K) × List Slice) :=
  tellFrom (ctl.stepBound + 1) ctl.start 0 []

section Told

variable {ctl : Control}

theorem runFrom_succ (bound index : ℕ) (collected : List (ℕ × Sample K))
    (stage : Stage K (Pool K D)) : runFrom (bound + 1) ctl index collected stage =
      if ctl.tick.1 then
        (runSlice (index % stage.subject.chains.length)
          (sliceControl stage.subject.sliceSteps ctl.tick.2) stage).bind fun ((report, taken), stage') =>
            let collected := (report.reported.map fun s =>
              (index % stage.subject.chains.length, s)).reverse ++ collected
            match report.failure with
            | some e => .done (⟨collected.reverse, some e⟩, stage')
            | none => runFrom bound (afterSlice ctl taken) (index + 1) collected stage'
      else .done (⟨collected.reverse, none⟩, stage) := by
  change (if ctl.tick.1 then _ else _ : SafeWalk K (Pool K D) (Report (ℕ × Sample K))) stage = _
  split
  · refine congrArg (Rand.bind _) (funext ?_)
    rintro ⟨⟨report, taken⟩, stage'⟩
    dsimp only
    cases report.failure <;> rfl
  · rfl

/-- To run slices is to run them and not to tell. -/
theorem runFrom_eq_tellFrom (bound : ℕ) (ctl : Control) (index : ℕ) (collected : List (ℕ × Sample K))
    (stage : Stage K (Pool K D)) : runFrom bound ctl index collected stage =
      (tellFrom bound ctl index collected stage).bind fun ((report, _), ended) =>
        .done (report, ended) := by
  induction bound generalizing ctl index collected stage with
  | zero => rfl
  | succ bound ih =>
    rw [runFrom_succ, tellFrom]
    dsimp only
    split
    · rw [Rand.bind_assoc]
      refine congrArg (Rand.bind _) (funext ?_)
      rintro ⟨⟨report, taken⟩, stage'⟩
      dsimp only
      cases report.failure with
      | some e => rfl
      | none =>
        dsimp only
        rw [ih, Rand.bind_assoc]
        rfl
    · rfl

/-- Every slice counts a step, so a bound that is larger than the number of steps that are left is
never met. -/
theorem runFrom_congr (ctl : Control) {bound bound' index : ℕ} {collected : List (ℕ × Sample K)}
    (hsteps : 0 < ctl.steps) (hbound : ctl.steps - ctl.doneSteps < bound)
    (hbound' : ctl.steps - ctl.doneSteps < bound') (stage : Stage K (Pool K D)) :
    runFrom bound ctl index collected stage = runFrom bound' ctl index collected stage := by
  induction bound generalizing ctl bound' index collected stage with
  | zero => exact absurd hbound (Nat.not_lt_zero _)
  | succ bound ih =>
    obtain ⟨bound', rfl⟩ : ∃ b, bound' = b + 1 := ⟨bound' - 1, by omega⟩
    rw [runFrom_succ, runFrom_succ]
    split
    · next hrunning =>
      have hleft := (Control.tick_iff hsteps).mp hrunning
      refine congrArg (Rand.bind _) (funext ?_)
      rintro ⟨⟨report, taken⟩, stage'⟩
      dsimp only
      cases report.failure with
      | some e => rfl
      | none =>
        have hlater := lt_doneSteps_afterSlice ctl taken
        have hsame : (afterSlice ctl taken).steps = ctl.steps := rfl
        exact ih (afterSlice ctl taken) hsteps (by omega) (by omega) stage'
    · rfl

end Told

section Slices

variable {stage stage' : Stage K (Pool K D)} {which taken : ℕ} {slice : Control}

/-- A slice runs one of the chains, which takes the place of what it was. -/
theorem runSlice_apply {c : Chain K D} (hc : stage.subject.chains[which]? = some c) :
    runSlice which slice stage =
      (Chain.run slice ⟨c, stage.names, stage.tally, stage.records⟩).bind fun (report, after) =>
        .done ((report, after.subject.samples - c.samples),
          ⟨{ stage.subject with chains := stage.subject.chains.set which after.subject },
            after.names, after.tally, after.records⟩) := by
  have hrun : runSlice which slice stage =
      ((SafeWalk.onMember which (fun inner => (Chain.run slice inner).bind fun (report, after) =>
        .done ((report, after.subject.samples - inner.subject.samples), after)) :
          SafeWalk K (ChainGroup K D) _)
        ⟨stage.subject.chains, stage.names, stage.tally, stage.records⟩).bind fun (outcome, inner) =>
          .done (outcome.getD (⟨[], none⟩, 0), ⟨{ stage.subject with chains := inner.subject },
            inner.names, inner.tally, inner.records⟩) := by
    change Rand.bind (Rand.bind _ _) _ = _
    rw [Rand.bind_assoc]
    rfl
  rw [hrun, SafeWalk.onMember]
  dsimp only
  rw [hc]
  dsimp only
  rw [Rand.bind_assoc, Rand.bind_assoc]
  rfl

/-- A slice that does not fail takes as many samples as it was given steps. -/
theorem of_yields_runSlice (hsteps : 0 < slice.steps) (hwhich : which < stage.subject.chains.length)
    {report : Report (Sample K)} (hnone : report.failure = none)
    (h : Rand.Yields (runSlice which slice stage) ((report, taken), stage')) :
    taken = slice.steps ∧ stage'.subject.sliceSteps = stage.subject.sliceSteps ∧
      ∃ m, stage.subject.chains.samples[which]? = some m ∧
        stage'.subject.chains.samples = stage.subject.chains.samples.set which (m + slice.steps) := by
  have hc := List.getElem?_eq_getElem hwhich
  rw [runSlice_apply hc, Chain.run_eq_rounds hsteps, Rand.bind_assoc, Rand.yields_bind] at h
  obtain ⟨⟨rs, after⟩, hyields, heq⟩ := h
  cases heq
  have hwent := Chain.went_of_yields_rounds hyields
  have hsamples : after.subject.samples = stage.subject.chains[which].samples + slice.steps := by
    rw [hwent.path.samples_eq hnone, hwent.length_eq hnone]
  refine ⟨by omega, rfl, stage.subject.chains[which].samples, ?_, ?_⟩
  · rw [ChainGroup.samples, List.getElem?_map, hc]
    rfl
  · rw [← hsamples]
    exact List.map_set

theorem grow_set {ns : List ℕ} {m : ℕ} (told : Slice) (hm : ns[told.which]? = some m)
    (later : List Slice) :
    ((ns.set told.which (m + told.taken)).mapIdx fun i k => k + takenBy i later) =
      ns.mapIdx fun i k => k + takenBy i (told :: later) := by
  refine List.ext_getElem? fun i => ?_
  rw [List.getElem?_mapIdx, List.getElem?_mapIdx, takenBy_cons]
  by_cases hi : told.which = i
  · subst hi
    obtain ⟨hlt, -⟩ := List.getElem?_eq_some_iff.mp hm
    rw [List.getElem?_set_self hlt, hm, if_pos rfl]
    simp [Nat.add_assoc]
  · rw [List.getElem?_set_ne hi, if_neg hi, Nat.zero_add]

theorem lt_slices_iff (steps k : ℕ) {sliceSteps : ℕ} (h : 0 < sliceSteps) :
    k < (steps + sliceSteps - 1) / sliceSteps ↔ k * sliceSteps < steps := by
  rw [← Nat.succ_le_iff, Nat.le_div_iff_mul_le h, Nat.succ_mul]
  omega

/-- What is counted when a slice begins, and what it takes, is what is counted when the next one
begins. -/
theorem add_min_sub {k s n : ℕ} (h : k * s ≤ n) :
    k * s + min s (n - k * s) = min ((k + 1) * s) n := by
  rw [Nat.succ_mul]
  omega

omit [Scalar K] in
theorem length_samples (g : ChainGroup K D) : g.samples.length = g.length := List.length_map _

/-- What slices come to that do not fail and begin with the one of an index: they are laid out as
planned, each chain grows by what it is given, and together they grow by the steps that were left.
-/
structure Ran (ctl : Control) (index : ℕ) (stage ended : Stage K (Pool K D)) (slices : List Slice) :
    Prop where
  slices_eq : slices = (List.range' index
    ((ctl.steps + max stage.subject.sliceSteps 1 - 1) / max stage.subject.sliceSteps 1 - index)).map
      (planned stage.subject.chains.length (max stage.subject.sliceSteps 1) ctl.steps)
  samples_eq : ended.subject.chains.samples =
    stage.subject.chains.samples.mapIdx fun i m => m + takenBy i slices
  sum_eq : ended.subject.chains.samples.sum =
    stage.subject.chains.samples.sum + (ctl.steps - ctl.doneSteps)

omit [Scalar K] in
theorem Ran.nil {ctl : Control} {index : ℕ} (hused : ctl.steps ≤ ctl.doneSteps)
    (hnoMore : (ctl.steps + max stage.subject.sliceSteps 1 - 1) / max stage.subject.sliceSteps 1 ≤
      index) : Ran ctl index stage stage [] := by
  refine ⟨?_, ?_, ?_⟩
  · rw [Nat.sub_eq_zero_of_le hnoMore]
    rfl
  · exact (List.ext_getElem? fun i => by simp [takenBy]).symm
  · rw [Nat.sub_eq_zero_of_le hused, Nat.add_zero]

omit [Scalar K] in
/-- A slice that begins where the ones before it end takes what it was planned to take, and the
others follow it. -/
theorem Ran.cons {ctl : Control} {index m : ℕ} {between ended : Stage K (Pool K D)}
    {later : List Slice} (hsteps : 0 < ctl.steps) (hleft : ctl.doneSteps < ctl.steps)
    (hbegun : ctl.doneSteps = index * max stage.subject.sliceSteps 1)
    (htaken : taken = (sliceControl stage.subject.sliceSteps ctl.tick.2).steps)
    (hsame : between.subject.sliceSteps = stage.subject.sliceSteps)
    (hm : stage.subject.chains.samples[index % stage.subject.chains.length]? = some m)
    (hsamples : between.subject.chains.samples =
      stage.subject.chains.samples.set (index % stage.subject.chains.length) (m + taken))
    (h : Ran (afterSlice ctl taken) (index + 1) between ended later) :
    Ran ctl index stage ended
      (⟨index % stage.subject.chains.length, ctl.tick.2.doneSteps,
        (sliceControl stage.subject.sliceSteps ctl.tick.2).steps, taken⟩ :: later) := by
  have hpos : 0 < max stage.subject.sliceSteps 1 := lt_max_of_lt_right Nat.zero_lt_one
  have hlength := steps_sliceControl hsteps stage.subject.sliceSteps
  have hcount : between.subject.chains.length = stage.subject.chains.length := by
    rw [← length_samples, hsamples, List.length_set, length_samples]
  have hlimit : (afterSlice ctl taken).steps = ctl.steps := rfl
  obtain ⟨hslices, hgrown, hsum⟩ := h
  refine ⟨?_, ?_, ?_⟩
  · have hthis : (⟨index % stage.subject.chains.length, ctl.tick.2.doneSteps,
        (sliceControl stage.subject.sliceSteps ctl.tick.2).steps, taken⟩ : Slice) =
          planned stage.subject.chains.length (max stage.subject.sliceSteps 1) ctl.steps index := by
      rw [planned, Slice.mk.injEq, ← hbegun]
      exact ⟨rfl, rfl, hlength, htaken.trans hlength⟩
    have hmore := (lt_slices_iff ctl.steps index hpos).mpr (hbegun ▸ hleft)
    have hfewer := Nat.sub_add_cancel (Nat.sub_pos_of_lt hmore)
    rw [Nat.sub_sub] at hfewer
    rw [hthis, hslices, hsame, hcount, hlimit, ← hfewer, List.range'_succ]
    rfl
  · rw [hgrown, hsamples]
    exact grow_set ⟨_, _, _, taken⟩ hm later
  · rw [hsum, hsamples, sum_set_add hm, doneSteps_afterSlice ctl (by omega), hlimit]
    omega

/-- Slices that do not fail are those that were planned. -/
theorem ran_of_yields_tellFrom (ctl : Control) (index : ℕ) {bound : ℕ}
    {collected : List (ℕ × Sample K)} {stage ended : Stage K (Pool K D)}
    {report : Report (ℕ × Sample K)} {slices : List Slice}
    (hsteps : 0 < ctl.steps) (hchains : 0 < stage.subject.chains.length)
    (hdone : ctl.doneSteps = min (index * max stage.subject.sliceSteps 1) ctl.steps)
    (hbound : ctl.steps - ctl.doneSteps < bound) (hnone : report.failure = none)
    (h : Rand.Yields (tellFrom bound ctl index collected stage) ((report, slices), ended)) :
    Ran ctl index stage ended slices := by
  induction bound generalizing ctl index collected stage report slices with
  | zero => exact absurd hbound (Nat.not_lt_zero _)
  | succ bound ih =>
    have hpos : 0 < max stage.subject.sliceSteps 1 := lt_max_of_lt_right Nat.zero_lt_one
    have hmore := lt_slices_iff ctl.steps index hpos
    rw [tellFrom] at h
    dsimp only at h
    split at h
    · next hrunning =>
      have hleft := (Control.tick_iff hsteps).mp hrunning
      -- there is another slice, so all before it had their full length
      have hbegun : ctl.doneSteps = index * max stage.subject.sliceSteps 1 := by omega
      have hlength := steps_sliceControl hsteps stage.subject.sliceSteps
      obtain ⟨⟨⟨first, taken⟩, between⟩, hfirst, hrest⟩ := (Rand.yields_bind ..).mp h
      dsimp only at hrest
      cases hfailure : first.failure with
      | some e =>
        rw [hfailure] at hrest
        cases hrest
        cases hnone
      | none =>
        rw [hfailure] at hrest
        obtain ⟨⟨⟨final, later⟩, ended'⟩, hlater, heq⟩ := (Rand.yields_bind ..).mp hrest
        cases heq
        obtain ⟨htaken, hsame, m, hm, hsamples⟩ := of_yields_runSlice (by omega)
          (Nat.mod_lt index hchains) hfailure hfirst
        rw [← htaken] at hsamples
        have hcount : between.subject.chains.length = stage.subject.chains.length := by
          rw [← length_samples, hsamples, List.length_set, length_samples]
        have hcounted : (afterSlice ctl taken).doneSteps = ctl.doneSteps + taken :=
          doneSteps_afterSlice ctl (by omega)
        have hlimit : (afterSlice ctl taken).steps = ctl.steps := rfl
        refine .cons hsteps hleft hbegun htaken hsame hm hsamples (ih (afterSlice ctl taken)
          (index + 1) hsteps (hcount ▸ hchains) ?_ (by omega) hnone hlater)
        rw [hcounted, hsame, hlimit, htaken, hlength, hbegun, add_min_sub (hbegun ▸ hleft.le)]
    · next hrunning =>
      have hused := Nat.not_lt.mp (mt (Control.tick_iff hsteps).mpr hrunning)
      cases h
      exact .nil hused (Nat.not_lt.mp (mt hmore.mp (by omega)))

end Slices

theorem run_eq_runFrom {ctl : Control} {stage : Stage K (Pool K D)}
    (hchains : stage.subject.chains ≠ []) :
    run ctl stage = runFrom (ctl.stepBound + 1) ctl.start 0 [] stage := by
  have hrun : run ctl stage = (if stage.subject.chains.isEmpty then pure ⟨[], none⟩
      else runFrom (ctl.stepBound + 1) ctl.start 0 [] :
        SafeWalk K (Pool K D) (Report (ℕ × Sample K))) stage := rfl
  rw [hrun, if_neg (by simpa using hchains)]

/-- A pool with chains shares the steps of a run among them, whatever larger bound its loop is
given. If no slice fails, the slices go round the chains; all of them have the same length but the
last, which has what is left; none is empty, and when one begins no more steps have been counted
than there are. Each chain grows by the samples of its slices, and all of them by the steps of the
run. -/
theorem run_shares_steps {ctl : Control} (hsteps : 0 < ctl.steps) {stage : Stage K (Pool K D)}
    (hchains : stage.subject.chains ≠ []) :
    (∀ bound, ctl.steps < bound → runFrom bound ctl.start 0 [] stage = run ctl stage) ∧
    run ctl stage = (tell ctl stage).bind (fun ((report, _), ended) => .done (report, ended)) ∧
    ∀ report slices ended, Rand.Yields (tell ctl stage) ((report, slices), ended) →
      report.failure = none →
        let n := stage.subject.chains.length
        let s := max stage.subject.sliceSteps 1
        slices = ((List.range ((ctl.steps + s - 1) / s)).map fun k =>
          ⟨k % n, k * s + 1, min s (ctl.steps - k * s), min s (ctl.steps - k * s)⟩) ∧
        (∀ slice ∈ slices.dropLast, slice.taken = s) ∧
        (∀ slice ∈ slices, slice.counted ≤ ctl.steps ∧ 0 < slice.length ∧
          slice.taken = slice.length) ∧
        ended.subject.chains.samples =
          (stage.subject.chains.samples.mapIdx fun i m => m + takenBy i slices) ∧
        ended.subject.chains.samples.sum = stage.subject.chains.samples.sum + ctl.steps := by
  have hbound : ctl.stepBound = ctl.steps := if_neg (by omega)
  refine ⟨fun bound hlt => ?_, ?_, ?_⟩
  · rw [run_eq_runFrom hchains, hbound]
    exact runFrom_congr ctl.start hsteps hlt (Nat.lt_succ_self _) stage
  · rw [run_eq_runFrom hchains, runFrom_eq_tellFrom]
    rfl
  · intro report slices ended hyields hnone n s
    have hs : 0 < s := by omega
    obtain ⟨hslices, hgrown, hsum⟩ := ran_of_yields_tellFrom ctl.start 0 hsteps
      (List.length_pos_of_ne_nil hchains) (by rw [Nat.zero_mul, Nat.zero_min]; rfl)
      (by rw [hbound]; exact Nat.lt_succ_of_le (Nat.sub_le _ _)) hnone hyields
    rw [Nat.sub_zero, ← List.range_eq_range'] at hslices
    have hslices : slices =
      (List.range ((ctl.steps + s - 1) / s)).map (planned n s ctl.steps) := hslices
    refine ⟨hslices, ?_, ?_, hgrown, hsum⟩
    · intro slice hslice
      rw [hslices, ← List.map_dropLast, List.dropLast_eq_take, List.take_range, List.length_range]
        at hslice
      obtain ⟨k, hk, rfl⟩ := List.mem_map.mp hslice
      have hlater : k + 1 < (ctl.steps + s - 1) / s := by
        rw [List.mem_range] at hk
        omega
      have hlt := (lt_slices_iff ctl.steps _ hs).mp hlater
      rw [Nat.succ_mul] at hlt
      change min s (ctl.steps - k * s) = s
      omega
    · intro slice hslice
      rw [hslices] at hslice
      obtain ⟨k, hk, rfl⟩ := List.mem_map.mp hslice
      have hlt := (lt_slices_iff ctl.steps _ hs).mp (List.mem_range.mp hk)
      refine ⟨?_, ?_, rfl⟩
      · change k * s + 1 ≤ ctl.steps
        omega
      · change 0 < min s (ctl.steps - k * s)
        omega

/-- Without restarts some draws lead chains that may go on through slices of which none fails. -/
theorem exists_yields_tellFrom {I : Chain K D → Prop} (hI : Chain.GoesOn I) (ctl : Control)
    {bound index : ℕ} (hsteps : 0 < ctl.steps) (hnever : ctl.restart = 0)
    (collected : List (ℕ × Sample K)) (stage : Stage K (Pool K D))
    (hchains : 0 < stage.subject.chains.length) (hall : ∀ c ∈ stage.subject.chains, I c) :
    ∃ report slices ended,
      Rand.Yields (tellFrom bound ctl index collected stage) ((report, slices), ended) ∧
        report.failure = none ∧ ∀ c ∈ ended.subject.chains, I c := by
  induction bound generalizing ctl index collected stage with
  | zero => exact ⟨_, _, stage, rfl, rfl, hall⟩
  | succ bound ih =>
    rw [tellFrom]
    dsimp only
    split
    · next hrunning =>
      have hslice : 0 < (sliceControl stage.subject.sliceSteps ctl.tick.2).steps := by
        have hleft := (Control.tick_iff hsteps).mp hrunning
        rw [steps_sliceControl hsteps]
        omega
      obtain ⟨c, hc⟩ : ∃ c, stage.subject.chains[index % stage.subject.chains.length]? = some c :=
        ⟨_, List.getElem?_eq_getElem (Nat.mod_lt index hchains)⟩
      obtain ⟨rs, after, hrounds, hnone, hafter⟩ :=
        hI.exists_rounds (sliceControl stage.subject.sliceSteps ctl.tick.2) hnever
          (sliceControl stage.subject.sliceSteps ctl.tick.2).steps
          ⟨c, stage.names, stage.tally, stage.records⟩ (hall c (List.mem_of_getElem? hc))
      let turned : Stage K (Pool K D) := ⟨⟨stage.subject.chains.set
        (index % stage.subject.chains.length) after.subject, stage.subject.sliceSteps⟩,
        after.names, after.tally, after.records⟩
      have hturned : Rand.Yields (runSlice (index % stage.subject.chains.length)
          (sliceControl stage.subject.sliceSteps ctl.tick.2) stage)
          ((⟨Chain.due (sliceControl stage.subject.sliceSteps ctl.tick.2) 0 rs, none⟩,
            after.subject.samples - c.samples), turned) := by
        rw [runSlice_apply hc, Chain.run_eq_rounds hslice, ← hnone]
        exact (Rand.yields_bind ..).mpr ⟨_, (Rand.yields_bind ..).mpr ⟨_, hrounds, rfl⟩, rfl⟩
      have hall' : ∀ d ∈ turned.subject.chains, I d := fun d hd => by
        rcases List.mem_or_eq_of_mem_set hd with hd | rfl
        · exact hall d hd
        · exact hafter
      obtain ⟨report, slices, ended, hlater, hreport, hended⟩ := ih
        (afterSlice ctl (after.subject.samples - c.samples)) hsteps hnever _ turned
        (by rwa [List.length_set]) hall'
      exact ⟨report, _ :: slices, ended, (Rand.yields_bind ..).mpr ⟨_, hturned,
        (Rand.yields_bind ..).mpr ⟨_, hlater, rfl⟩⟩, hreport, hended⟩
    · exact ⟨_, _, stage, rfl, rfl, hall⟩

theorem exists_yields_tell {I : Chain K D → Prop} (hI : Chain.GoesOn I) {ctl : Control}
    (hsteps : 0 < ctl.steps) (hnever : ctl.restart = 0) (stage : Stage K (Pool K D))
    (hchains : stage.subject.chains ≠ []) (hall : ∀ c ∈ stage.subject.chains, I c) :
    ∃ report slices ended, Rand.Yields (tell ctl stage) ((report, slices), ended) ∧
      report.failure = none ∧ ∀ c ∈ ended.subject.chains, I c :=
  exists_yields_tellFrom hI ctl.start hsteps hnever [] stage (List.length_pos_of_ne_nil hchains) hall

open Chain in
/-- Two chains share three steps in slices of two. All of their steps may be accepted, and then both
come from the pair to the constant. -/
theorem run_shares_steps_terms :
    let c : Chain Exact ℕ := fresh (countingTermsBy .regeneration) (countingSample Grammar.pairTerm)
    let stage : Stage Exact (Pool Exact ℕ) := ⟨⟨[c, c], 2⟩, ⟨0⟩, ⟨0, 0⟩, []⟩
    let ctl : Control := .ofFields 3 0 0 0 0
    0 < ctl.steps ∧ stage.subject.chains ≠ [] ∧ ∃ report slices ended,
      Rand.Yields (tell ctl stage) ((report, slices), ended) ∧ report.failure = none ∧
      slices = [⟨0, 1, 2, 2⟩, ⟨1, 3, 1, 1⟩] ∧
      ended.subject.chains.samples = [2, 1] ∧
      (∀ c ∈ ended.subject.chains, c.acceptances = c.samples ∧
        c.current.tree = Grammar.constantTerm) ∧
      ended.subject.chains.samples.sum = stage.subject.chains.samples.sum + ctl.steps := by
  intro c stage ctl
  have hall : ∀ d ∈ stage.subject.chains, Accepting 0 d := by
    rintro d (_ | ⟨_, _ | ⟨_, ⟨⟩⟩⟩)
    · exact accepting_fresh
    · exact accepting_fresh
  have hsamples : stage.subject.chains.samples = [0, 0] := rfl
  have hcount : stage.subject.chains.length = 2 := rfl
  have hslice : stage.subject.sliceSteps = 2 := rfl
  have hthree : ctl.steps = 3 := rfl
  have hnever : ctl.restart = 0 := rfl
  -- nothing is to be evaluated any more
  clear_value stage ctl
  have hsteps : 0 < ctl.steps := by omega
  have hchains : stage.subject.chains ≠ [] := List.ne_nil_of_length_pos (by omega)
  obtain ⟨report, slices, ended, hyields, hnone, hended⟩ :=
    exists_yields_tell (goesOn_accepting 0) hsteps hnever stage hchains hall
  obtain ⟨-, -, htold⟩ := run_shares_steps hsteps hchains
  obtain ⟨hslices, -, -, hgrown, hsum⟩ := htold report slices ended hyields hnone
  have hslices : slices = [⟨0, 1, 2, 2⟩, ⟨1, 3, 1, 1⟩] := by
    rw [hslices, hcount, hslice, hthree]
    decide
  have hgrown : ended.subject.chains.samples = [2, 1] := by
    rw [hgrown, hsamples, hslices]
    decide
  have hsampled : 0 ∉ ended.subject.chains.samples := by
    rw [hgrown]
    decide
  exact ⟨hsteps, hchains, report, slices, ended, hyields, hnone, hslices, hgrown,
    Accepting.at_constant hended hsampled, hsum⟩

end ScopedGrammar.Pool
