import ScopedGrammar.Proofs.Chain.Slices

/-!
# What slices report

A pool burns and thins within each slice, and not over all that a chain samples. Whether a sample is
reported depends therefore on its number in the slice: what is left of its number in the run when it
is divided by the length of a slice. Only without burning, and if the period divides the length of a
slice, does this come to the same; and a pool whose slices are no longer than the burn-in reports
nothing.
-/
namespace ScopedGrammar

/-- If all lists but the last have the same length, what is done by the numbers in each of them is
done by the numbers in all of them, divided by that length. -/
theorem filterMap_chunks {α β : Type} (g : α → ℕ → Option β) {s : ℕ} {chunks : List (List α)}
    (hfull : chunks.Pairwise fun chunk _ => chunk.length = s) (hle : ∀ chunk ∈ chunks, chunk.length ≤ s)
    (k : ℕ) :
    (chunks.flatMap fun chunk => (chunk.zipIdx 1).filterMap fun p => g p.1 p.2) =
      (chunks.flatten.zipIdx (k * s + 1)).filterMap fun p => g p.1 ((p.2 - 1) % s + 1) := by
  have hchunk : ∀ chunk : List α, chunk.length ≤ s → ∀ k,
      ((chunk.zipIdx (k * s + 1)).filterMap fun p => g p.1 ((p.2 - 1) % s + 1)) =
        (chunk.zipIdx 1).filterMap fun p => g p.1 p.2 := by
    intro chunk hle k
    rw [← List.map_snd_add_zipIdx_eq_zipIdx, List.filterMap_map]
    refine List.filterMap_congr ?_
    rintro ⟨a, i⟩ hmem
    obtain ⟨hfirst, hlast, -⟩ := List.mem_zipIdx hmem
    have hnumber : (i + k * s - 1) % s + 1 = i := by
      rw [Nat.sub_add_comm hfirst, Nat.add_mul_mod_self_right, Nat.mod_eq_of_lt (by omega)]
      omega
    exact congrArg (g a) hnumber
  induction chunks generalizing k with
  | nil => rfl
  | cons chunk chunks ih =>
    obtain ⟨hfirst, hlater⟩ := List.pairwise_cons.mp hfull
    have hrest := ih hlater (fun c hc => hle c (List.mem_cons_of_mem chunk hc)) (k + 1)
    rw [List.flatMap_cons, List.flatten_cons, List.zipIdx_append, List.filterMap_append,
      hchunk chunk (hle chunk List.mem_cons_self), hrest]
    cases chunks with
    | nil => simp
    | cons c chunks =>
      rw [hfirst c List.mem_cons_self, Nat.succ_mul, Nat.add_right_comm]

namespace Pool

open Chain (Round rounds due Path)

/-- A slice that was run, with the rounds that its chain went through. -/
structure Stretch (K D : Type) extends Slice where
  rounds : List (Round K D)

namespace Stretch

variable {K D : Type}

/-- What a stretch reports, with the index of its chain. -/
def reported (ctl : Control) (t : Stretch K D) : List (ℕ × Sample K) :=
  (due ctl 0 t.rounds).map fun x => (t.which, x)

/-- The failure that ended a stretch, if one did. -/
def failure (t : Stretch K D) : Option SampleError := Chain.failure? t.rounds

end Stretch

/-- What stretches report that follow one another. -/
def reportOf {K D : Type} (ctl : Control) (told : List (Stretch K D)) : Report (ℕ × Sample K) :=
  ⟨told.flatMap (·.reported ctl), told.findSome? Stretch.failure⟩

/-- The rounds that a chain went through in some stretches. -/
def roundsOn {K D : Type} (which : ℕ) (told : List (Stretch K D)) : List (Round K D) :=
  (told.filter (·.which == which)).flatMap (·.rounds)

variable {K D : Type} [Scalar K]

/-- Run one chain for a slice: the rounds that it goes through, and the number of samples that it
took. -/
def tellSlice (which : ℕ) (slice : Control) : SafeWalk K (Pool K D) (List (Round K D) × ℕ) :=
  fun stage =>
    match stage.subject.chains[which]? with
    | none => .done (([], 0), stage)
    | some c =>
        (rounds slice slice.steps ⟨c, stage.names, stage.tally, stage.records⟩).bind
          fun (rs, after) => .done ((rs, after.subject.samples - c.samples),
            ⟨{ stage.subject with chains := stage.subject.chains.set which after.subject },
              after.names, after.tally, after.records⟩)

/-- Run slices in turn and tell the rounds of each. -/
def tellRoundsFrom : ℕ → Control → ℕ → SafeWalk K (Pool K D) (List (Stretch K D))
  | 0, _, _ => fun stage => .done ([], stage)
  | bound + 1, ctl, index => fun stage =>
      if ctl.tick.1 then
        let which := index % stage.subject.chains.length
        let slice := sliceControl stage.subject.sliceSteps ctl.tick.2
        (tellSlice which slice stage).bind fun ((rs, taken), stage) =>
          let told : Stretch K D := ⟨⟨which, ctl.tick.2.doneSteps, slice.steps, taken⟩, rs⟩
          match told.failure with
          | some _ => .done ([told], stage)
          | none =>
              (tellRoundsFrom bound (afterSlice ctl taken) (index + 1) stage).bind
                fun (later, stage) => .done (told :: later, stage)
      else .done ([], stage)

/-- Run a pool with chains and tell the rounds of each slice. -/
def tellRounds (ctl : Control) : SafeWalk K (Pool K D) (List (Stretch K D)) :=
  tellRoundsFrom (ctl.stepBound + 1) ctl.start 0

section Told

variable {ctl : Control} {stage stage' : Stage K (Pool K D)} {which taken : ℕ}

theorem tellSlice_apply {slice : Control} {c : Chain K D}
    (hc : stage.subject.chains[which]? = some c) : tellSlice which slice stage =
      (rounds slice slice.steps ⟨c, stage.names, stage.tally, stage.records⟩).bind
        fun (rs, after) => .done ((rs, after.subject.samples - c.samples),
          ⟨{ stage.subject with chains := stage.subject.chains.set which after.subject },
            after.names, after.tally, after.records⟩) := by
  rw [tellSlice, hc]

/-- To run a slice is to tell its rounds, of which only those that are due are reported. -/
theorem runSlice_eq_tellSlice {slice : Control} (hsteps : 0 < slice.steps)
    (hwhich : which < stage.subject.chains.length) : runSlice which slice stage =
      (tellSlice which slice stage).bind fun ((rs, taken), after) =>
        .done ((⟨due slice 0 rs, Chain.failure? rs⟩, taken), after) := by
  have hc := List.getElem?_eq_getElem hwhich
  rw [runSlice_apply hc, tellSlice_apply hc, Chain.run_eq_rounds hsteps, Rand.bind_assoc,
    Rand.bind_assoc]
  rfl

/-- What is known of the rounds of a slice. -/
structure WentOn (which : ℕ) (s s' : Pool K D) (rs : List (Round K D)) (taken : ℕ) : Prop where
  sliceSteps_eq : s'.sliceSteps = s.sliceSteps
  length_eq : s'.chains.length = s.chains.length
  others : ∀ m, m ≠ which → s'.chains[m]? = s.chains[m]?
  path : ∀ c, s.chains[which]? = some c → ∃ c', s'.chains[which]? = some c' ∧ Path c rs c'
  taken_eq : Chain.failure? rs = none → taken = rs.length

theorem wentOn_of_yields_tellSlice {slice : Control} {rs : List (Round K D)}
    (hwhich : which < stage.subject.chains.length)
    (h : Rand.Yields (tellSlice which slice stage) ((rs, taken), stage')) :
    WentOn which stage.subject stage'.subject rs taken := by
  have hc := List.getElem?_eq_getElem hwhich
  rw [tellSlice_apply hc] at h
  obtain ⟨⟨rs', after⟩, hrounds, heq⟩ := (Rand.yields_bind ..).mp h
  cases heq
  have hpath := (Chain.went_of_yields_rounds hrounds).path
  refine ⟨rfl, List.length_set, fun m hm => List.getElem?_set_ne hm.symm, fun c hc' => ?_, ?_⟩
  · obtain rfl := Option.some.inj (hc.symm.trans hc')
    exact ⟨_, List.getElem?_set_self hwhich, hpath⟩
  · intro hnone
    have hsamples := hpath.samples_eq hnone
    dsimp only at hsamples
    omega

theorem steps_sliceControl_pos (hsteps : 0 < ctl.steps) (hrunning : ctl.tick.1 = true)
    (sliceSteps : ℕ) : 0 < (sliceControl sliceSteps ctl.tick.2).steps := by
  have hleft := (Control.tick_iff hsteps).mp hrunning
  rw [steps_sliceControl hsteps]
  omega

omit [Scalar K] in
theorem reportOf_congr (ctl ctl' : Control) (hburn : ctl.burn = ctl'.burn)
    (hthin : ctl.thin = ctl'.thin) (told : List (Stretch K D)) :
    reportOf ctl told = reportOf ctl' told := by
  simp only [reportOf, Stretch.reported, Chain.due_congr ctl ctl' hburn hthin]

omit [Scalar K] in
theorem reportOf_cons (ctl : Control) (t : Stretch K D) (told : List (Stretch K D)) :
    reportOf ctl (t :: told) = ⟨t.reported ctl ++ (reportOf ctl told).reported,
      t.failure.or (reportOf ctl told).failure⟩ := by
  cases h : t.failure <;> simp [reportOf, h]

/-- To run slices is to tell the rounds of each, and of these only the reports. -/
theorem tellFrom_eq_tellRoundsFrom (bound : ℕ) (ctl : Control) (index : ℕ)
    (collected : List (ℕ × Sample K)) (stage : Stage K (Pool K D)) (hsteps : 0 < ctl.steps)
    (hchains : 0 < stage.subject.chains.length) :
    tellFrom bound ctl index collected stage =
      (tellRoundsFrom bound ctl index stage).bind fun (told, ended) =>
        .done ((⟨collected.reverse ++ (reportOf ctl told).reported, (reportOf ctl told).failure⟩,
          told.map (·.toSlice)), ended) := by
  induction bound generalizing ctl index collected stage with
  | zero =>
    rw [tellRoundsFrom, Rand.done_bind]
    exact congrArg (fun reported => Rand.done (((⟨reported, none⟩ : Report (ℕ × Sample K)), []), stage))
      (List.append_nil _).symm
  | succ bound ih =>
    have hwhich := Nat.mod_lt index hchains
    rw [tellFrom, tellRoundsFrom]
    dsimp only
    split
    · next hrunning =>
      rw [runSlice_eq_tellSlice (steps_sliceControl_pos hsteps hrunning _) hwhich, Rand.bind_assoc,
        Rand.bind_assoc]
      refine Rand.bind_congr ?_
      rintro ⟨⟨rs, taken⟩, between⟩ hyields
      have hcount := (wentOn_of_yields_tellSlice hwhich hyields).length_eq
      -- a slice has a control of its own, but it burns and thins as that of the run does
      have hdue : due (sliceControl stage.subject.sliceSteps ctl.tick.2) 0 rs = due ctl 0 rs :=
        Chain.due_congr _ ctl rfl rfl 0 rs
      rw [Rand.done_bind]
      dsimp only [Stretch.failure]
      cases hfailure : Chain.failure? rs with
      | some e =>
        simp [Rand.done_bind, reportOf, Stretch.reported, Stretch.failure, hfailure, hdue]
      | none =>
        dsimp only
        rw [ih (afterSlice ctl taken) (index + 1) _ between hsteps (hcount ▸ hchains), Rand.bind_assoc,
          Rand.bind_assoc]
        refine congrArg (Rand.bind _) (funext ?_)
        rintro ⟨later, ended⟩
        rw [Rand.done_bind, Rand.done_bind]
        simp [reportOf_cons, reportOf_congr (afterSlice ctl taken) ctl rfl rfl, Stretch.reported,
          Stretch.failure, hfailure, hdue]
    · rw [Rand.done_bind]
      exact congrArg
        (fun reported => Rand.done (((⟨reported, none⟩ : Report (ℕ × Sample K)), []), stage))
        (List.append_nil _).symm

omit [Scalar K] in
theorem roundsOn_cons (m : ℕ) (t : Stretch K D) (told : List (Stretch K D)) :
    roundsOn m (t :: told) = (if t.which = m then t.rounds else []) ++ roundsOn m told := by
  by_cases h : t.which = m <;> simp [roundsOn, h]

omit [Scalar K] in
/-- A chain goes through as many rounds as its slices take samples, if each takes one with a round.
-/
theorem length_roundsOn {told : List (Stretch K D)} (h : ∀ t ∈ told, t.taken = t.rounds.length) (m : ℕ) :
    (roundsOn m told).length = takenBy m (told.map (·.toSlice)) := by
  induction told with
  | nil => rfl
  | cons t told ih =>
    rw [List.forall_mem_cons] at h
    rw [roundsOn_cons, List.length_append, ih h.2, List.map_cons, takenBy_cons, h.1]
    split <;> rfl

/-- Stretches none of which fails take a sample with each round, and lead every chain along its
rounds. -/
theorem path_of_yields_tellRoundsFrom {bound : ℕ} (ctl : Control) (index : ℕ)
    {stage ended : Stage K (Pool K D)} {told : List (Stretch K D)}
    (hchains : 0 < stage.subject.chains.length) (hnone : ∀ t ∈ told, t.failure = none)
    (h : Rand.Yields (tellRoundsFrom bound ctl index stage) (told, ended)) :
    (∀ t ∈ told, t.taken = t.rounds.length) ∧ ∀ m c, stage.subject.chains[m]? = some c →
      ∃ c', ended.subject.chains[m]? = some c' ∧ Path c (roundsOn m told) c' := by
  induction bound generalizing ctl index stage told with
  | zero =>
    cases h
    exact ⟨by simp, fun m c hc => ⟨c, hc, .nil c⟩⟩
  | succ bound ih =>
    rw [tellRoundsFrom] at h
    dsimp only at h
    split at h
    · obtain ⟨⟨⟨rs, taken⟩, between⟩, hslice, hrest⟩ := (Rand.yields_bind ..).mp h
      obtain ⟨-, hlength, hothers, hpath, htaken⟩ :=
        wentOn_of_yields_tellSlice (Nat.mod_lt index hchains) hslice
      dsimp only [Stretch.failure] at hrest
      cases hfailure : Chain.failure? rs with
      | some e =>
        rw [hfailure] at hrest
        cases hrest
        rw [List.forall_mem_singleton, Stretch.failure, hfailure] at hnone
        cases hnone
      | none =>
        rw [hfailure] at hrest
        obtain ⟨⟨later, ended'⟩, hlater, heq⟩ := (Rand.yields_bind ..).mp hrest
        cases heq
        obtain ⟨hcounts, hpaths⟩ := ih (afterSlice ctl taken) (index + 1) (hlength ▸ hchains)
          (fun t ht => hnone t (List.mem_cons_of_mem _ ht)) hlater
        refine ⟨List.forall_mem_cons.mpr ⟨htaken hfailure, hcounts⟩, fun m c hc => ?_⟩
        rw [roundsOn_cons]
        dsimp only
        -- the other chains are left as they were by this slice
        by_cases hm : index % stage.subject.chains.length = m
        · rw [if_pos hm]
          obtain ⟨c', hc', hfirst⟩ := hpath c (hm ▸ hc)
          obtain ⟨c'', hc'', hrest⟩ := hpaths m c' (hm ▸ hc')
          exact ⟨c'', hc'', hfirst.append hrest⟩
        · rw [if_neg hm]
          exact hpaths m c ((hothers m (Ne.symm hm)).trans hc)
    · cases h
      exact ⟨by simp, fun m c hc => ⟨c, hc, .nil c⟩⟩

theorem taken_planned (chains steps : ℕ) {s : ℕ} (hs : 0 < s) :
    let slices := (List.range ((steps + s - 1) / s)).map (planned chains s steps)
    (slices.Pairwise fun slice _ => slice.taken = s) ∧ ∀ slice ∈ slices, slice.taken ≤ s := by
  refine ⟨List.pairwise_map.mpr (List.pairwise_lt_range.imp_of_mem fun {k k'} _ hk' hlt => ?_), ?_⟩
  · have hbegun := (lt_slices_iff steps k' hs).mp (List.mem_range.mp hk')
    have hmore := Nat.mul_le_mul_right s (Nat.succ_le_of_lt hlt)
    rw [Nat.succ_mul] at hmore
    change min s (steps - k * s) = s
    omega
  · simp [planned]

omit [Scalar K] in
theorem reported_filter (ctl : Control) (told : List (Stretch K D)) (m : ℕ) :
    ((reportOf ctl told).reported.filter (·.1 == m)).map Prod.snd =
      ((told.filter (·.which == m)).map (·.rounds)).flatMap (due ctl 0) := by
  induction told with
  | nil => rfl
  | cons t told ih =>
    rw [reportOf_cons, List.filter_append, List.map_append, ih, List.filter_cons]
    by_cases h : t.which = m
    · simp [Stretch.reported, h, List.filter_map, Function.comp_def]
    · simp [Stretch.reported, h, List.filter_map, Function.comp_def]

end Told

/-- The number in its slice that a sample has whose number in the run is given; both count from one.
-/
def numberInSlice (s i : ℕ) : ℕ := (i - 1) % s + 1

theorem numberInSlice_le {s : ℕ} (hs : 0 < s) (i : ℕ) : numberInSlice s i ≤ s :=
  Nat.succ_le_of_lt (Nat.mod_lt _ hs)

/-- A number that divides the length of a slice divides both numbers of a sample or neither. -/
theorem dvd_numberInSlice_iff {d s i : ℕ} (hd : d ∣ s) (hi : 0 < i) :
    d ∣ numberInSlice s i ↔ d ∣ i := by
  have hsplit : numberInSlice s i + s * ((i - 1) / s) = i := by
    have hmod := Nat.mod_add_div (i - 1) s
    rw [numberInSlice]
    omega
  calc d ∣ numberInSlice s i ↔ d ∣ numberInSlice s i + s * ((i - 1) / s) :=
        (Nat.dvd_add_left (Dvd.dvd.mul_right hd _)).symm
    _ ↔ d ∣ i := by rw [hsplit]

/-- Without burning, and if the period divides the length of a slice, it does not matter whether
samples are numbered in their slice or in the run. -/
theorem reports_numberInSlice_iff {ctl : Control} {s i : ℕ} (hburn : ctl.burn = 0)
    (hthin : ctl.thin ≤ 1 ∨ ctl.thin ∣ s) (hi : 0 < i) :
    ctl.Reports (numberInSlice s i) ↔ ctl.Reports i := by
  have hpos : 0 < numberInSlice s i := Nat.succ_pos _
  rcases hthin with hthin | hthin
  · simp [Control.Reports, hburn, hthin, hpos, hi]
  · simp [Control.Reports, hburn, hpos, hi, dvd_numberInSlice_iff hthin hi]

/-- What a run makes of one chain: it goes through its rounds, and of these are reported the ones
whose numbers in their slices ask for it. -/
structure Reported (ctl : Control) (s : ℕ) (told : List (Stretch K D)) (m : ℕ) (c c' : Chain K D) :
    Prop where
  path : Path c (roundsOn m told) c'
  failure_eq : Chain.failure? (roundsOn m told) = none
  reported_eq : ((reportOf ctl told).reported.filter (·.1 == m)).map Prod.snd =
    ((roundsOn m told).zipIdx 1).filterMap fun p =>
      if ctl.Reports (numberInSlice s p.2) then some p.1.chain.current else none

namespace Reported

variable {ctl : Control} {s m : ℕ} {told : List (Stretch K D)} {c c' : Chain K D}

theorem eq_nil (h : Reported ctl s told m c c') (hs : 0 < s) (hburn : s ≤ ctl.burn) :
    ((reportOf ctl told).reported.filter (·.1 == m)).map Prod.snd = [] := by
  rw [h.reported_eq, List.filterMap_eq_nil_iff]
  intro p _
  have hle := numberInSlice_le hs p.2
  exact if_neg fun hreports => absurd hreports.1 (by omega)

/-- Without burning, and if the period divides the length of a slice, all is reported that is due by
the numbers in the run. -/
theorem eq_due (h : Reported ctl s told m c c') (hburn : ctl.burn = 0)
    (hthin : ctl.thin ≤ 1 ∨ ctl.thin ∣ s) :
    ((reportOf ctl told).reported.filter (·.1 == m)).map Prod.snd = due ctl 0 (roundsOn m told) := by
  rw [h.reported_eq, Chain.due_of_none h.failure_eq]
  refine List.filterMap_congr ?_
  rintro ⟨r, i⟩ hmem
  exact if_congr (reports_numberInSlice_iff hburn hthin (List.mem_zipIdx hmem).1) rfl rfl

end Reported

section Runs

variable {ctl : Control} {stage ended : Stage K (Pool K D)}

theorem run_eq_tellRounds (hsteps : 0 < ctl.steps) (hchains : stage.subject.chains ≠ []) :
    run ctl stage = (tellRounds ctl stage).bind fun out => .done (reportOf ctl out.1, out.2) := by
  rw [run_eq_runFrom hchains, runFrom_eq_tellFrom, tellFrom_eq_tellRoundsFrom _ ctl.start 0 [] stage
    hsteps (List.length_pos_of_ne_nil hchains), Rand.bind_assoc]
  rfl

theorem tell_eq_tellRounds (hsteps : 0 < ctl.steps) (hchains : stage.subject.chains ≠ []) :
    tell ctl stage = (tellRounds ctl stage).bind fun (told, ended) =>
      .done ((reportOf ctl told, told.map (·.toSlice)), ended) := by
  rw [tell, tellFrom_eq_tellRoundsFrom _ ctl.start 0 [] stage hsteps
    (List.length_pos_of_ne_nil hchains)]
  rfl

/-- Stretches that do not fail are laid out as planned. -/
theorem toSlice_of_yields_tellRounds (hsteps : 0 < ctl.steps) (hchains : stage.subject.chains ≠ [])
    {told : List (Stretch K D)} (hnone : (reportOf ctl told).failure = none)
    (h : Rand.Yields (tellRounds ctl stage) (told, ended)) :
    told.map (·.toSlice) = (List.range ((ctl.steps + max stage.subject.sliceSteps 1 - 1) /
      max stage.subject.sliceSteps 1)).map (planned stage.subject.chains.length
        (max stage.subject.sliceSteps 1) ctl.steps) := by
  have hpos := List.length_pos_of_ne_nil hchains
  have hbound : ctl.stepBound = ctl.steps := if_neg (by omega)
  have htell : Rand.Yields (tell ctl stage) ((reportOf ctl told, told.map (·.toSlice)), ended) := by
    rw [tell_eq_tellRounds hsteps hchains]
    exact (Rand.yields_bind ..).mpr ⟨_, h, rfl⟩
  have hran := ran_of_yields_tellFrom ctl.start 0 hsteps hpos
    (by rw [Nat.zero_mul, Nat.zero_min]; rfl)
    (by rw [hbound]; exact Nat.lt_succ_of_le (Nat.sub_le _ _)) hnone htell
  rw [hran.slices_eq, Nat.sub_zero, ← List.range_eq_range']
  rfl

theorem reported_of_yields_tellRounds (hsteps : 0 < ctl.steps)
    (hchains : stage.subject.chains ≠ []) {told : List (Stretch K D)}
    (hnone : (reportOf ctl told).failure = none)
    (h : Rand.Yields (tellRounds ctl stage) (told, ended)) {m : ℕ} {c : Chain K D}
    (hc : stage.subject.chains[m]? = some c) :
    ∃ c', ended.subject.chains[m]? = some c' ∧
      Reported ctl (max stage.subject.sliceSteps 1) told m c c' := by
  have hs : 0 < max stage.subject.sliceSteps 1 := lt_max_of_lt_right Nat.zero_lt_one
  have hfine : ∀ t ∈ told, t.failure = none := List.findSome?_eq_none_iff.mp hnone
  obtain ⟨hcounts, hpaths⟩ :=
    path_of_yields_tellRoundsFrom ctl.start 0 (List.length_pos_of_ne_nil hchains) hfine h
  obtain ⟨hfull, hle⟩ := taken_planned stage.subject.chains.length ctl.steps hs
  rw [← toSlice_of_yields_tellRounds hsteps hchains hnone h] at hfull hle
  obtain ⟨c', hc', hpath⟩ := hpaths m c hc
  refine ⟨c', hc', hpath, ?_, ?_⟩
  · refine Chain.failure?_eq_none_iff.mpr fun r hr => ?_
    obtain ⟨t, ht, hr⟩ := List.mem_flatMap.mp hr
    exact Chain.failure?_eq_none_iff.mp (hfine t (List.mem_of_mem_filter ht)) r hr
  · have hmine : ∀ t ∈ told.filter (·.which == m), t.taken = t.rounds.length := fun t ht =>
      hcounts t (List.mem_of_mem_filter ht)
    have hchunks : ((told.filter (·.which == m)).map (·.rounds)).Pairwise fun chunk _ =>
        chunk.length = max stage.subject.sliceSteps 1 :=
      List.pairwise_map.mpr (((List.pairwise_map.mp hfull).filter _).imp_of_mem
        fun ht _ htaken => (hmine _ ht).symm.trans htaken)
    have hshort : ∀ chunk ∈ (told.filter (·.which == m)).map (·.rounds),
        chunk.length ≤ max stage.subject.sliceSteps 1 :=
      List.forall_mem_map.mpr fun t ht => (hmine t ht).symm.trans_le
        (hle _ (List.mem_map_of_mem (List.mem_of_mem_filter ht)))
    have hdue : ∀ chunk ∈ (told.filter (·.which == m)).map (·.rounds), due ctl 0 chunk =
        (chunk.zipIdx 1).filterMap fun p => if ctl.Reports p.2 then some p.1.chain.current else none :=
      List.forall_mem_map.mpr fun t ht =>
        Chain.due_of_none (hfine t (List.mem_of_mem_filter ht)) ctl 0
    have hnumbers := filterMap_chunks (fun (r : Round K D) i =>
      if ctl.Reports i then some r.chain.current else none) hchunks hshort 0
    rw [reported_filter, List.flatMap_congr hdue, hnumbers, Nat.zero_mul]
    rfl

/-- A run of a pool is one of slices whose rounds are told. If none of them fails, each chain takes
a sample with every round of its own. Of these a sample is reported by its number in the slice and
not by its number in the run. So nothing is reported of slices that are no longer than the burn-in;
and what the chain would report by itself is reported only where nothing is burned and the period
divides the length of a slice. -/
theorem reports_by_slice (hsteps : 0 < ctl.steps) (hchains : stage.subject.chains ≠ []) :
    run ctl stage = (tellRounds ctl stage).bind (fun out => .done (reportOf ctl out.1, out.2)) ∧
    ∀ told ended, Rand.Yields (tellRounds ctl stage) (told, ended) →
      (reportOf ctl told).failure = none →
        let s := max stage.subject.sliceSteps 1
        ∀ m c, stage.subject.chains[m]? = some c →
          let rs := roundsOn m told
          let reported := ((reportOf ctl told).reported.filter (·.1 == m)).map Prod.snd
          ∃ c', ended.subject.chains[m]? = some c' ∧ Path c rs c' ∧
            c'.samples = c.samples + rs.length ∧
            reported = ((rs.zipIdx 1).filterMap fun p =>
              if ctl.burn < (p.2 - 1) % s + 1 ∧ (ctl.thin ≤ 1 ∨ ctl.thin ∣ (p.2 - 1) % s + 1) then
                some p.1.chain.current
              else none) ∧
            (s ≤ ctl.burn → reported = []) ∧
            (ctl.burn = 0 → ctl.thin ≤ 1 ∨ ctl.thin ∣ s → reported = due ctl 0 rs) := by
  refine ⟨run_eq_tellRounds hsteps hchains, ?_⟩
  intro told ended h hnone s m c hc rs reported
  obtain ⟨c', hc', hreported⟩ := reported_of_yields_tellRounds hsteps hchains hnone h hc
  have hs : 0 < s := lt_max_of_lt_right Nat.zero_lt_one
  exact ⟨c', hc', hreported.path, hreported.path.samples_eq hreported.failure_eq,
    hreported.reported_eq, hreported.eq_nil hs, hreported.eq_due⟩

/-- Without restarts some draws lead chains that may go on through stretches of which none fails. -/
theorem exists_yields_tellRounds {I : Chain K D → Prop} (hI : Chain.GoesOn I)
    (hsteps : 0 < ctl.steps) (hnever : ctl.restart = 0) (hchains : stage.subject.chains ≠ [])
    (hall : ∀ c ∈ stage.subject.chains, I c) : ∃ told ended,
      Rand.Yields (tellRounds ctl stage) (told, ended) ∧ (reportOf ctl told).failure = none ∧
        ∀ c ∈ ended.subject.chains, I c := by
  obtain ⟨report, slices, ended, hyields, hnone, hended⟩ :=
    exists_yields_tell hI hsteps hnever stage hchains hall
  rw [tell_eq_tellRounds hsteps hchains] at hyields
  obtain ⟨⟨told, after⟩, htold, heq⟩ := (Rand.yields_bind ..).mp hyields
  cases heq
  exact ⟨told, _, htold, hnone, hended⟩

end Runs

section Made

variable {σ : Type} {p : Problem K D} {t : Tree K} {score : Score K}

/-- If a tree may be generated, all chains of a pool may be made from it. -/
theorem exists_yields_ofPrior (hlasting : p.model.allowance = none)
    (hscore : p.model.logPosterior p.grammar t p.data = .ok score)
    (hgenerated : ∀ names, ∃ names',
      (p.grammar.generateRetrying p.grammar.start p.proposer.maxAttempts).Yields names (.ok t) names')
    (size : ℕ) (start : Stage K σ) : ∃ made, Rand.Yields ((ofPrior p size : Walk K σ _) start)
      (.ok ⟨List.replicate size (Chain.fresh p ⟨t, score⟩), defaultSlice⟩, made) := by
  have hmade : ∀ stage : Stage K σ, ∃ stage' : Stage K σ, Rand.Yields
      ((Chain.ofPrior p : Walk K σ _) stage) (.ok (Chain.fresh p ⟨t, score⟩), stage') := by
    intro stage
    obtain ⟨names, hgenerated⟩ := hgenerated stage.names
    exact ⟨_, Walk.yields_bind.mpr (.inr ⟨t, _, (Rand.yields_bind ..).mpr ⟨_, hgenerated, rfl⟩,
      Chain.yields_ofTree hlasting hscore _⟩)⟩
  have hchains : ∀ stage : Stage K σ, ∃ stage' : Stage K σ, Rand.Yields
      ((startChains p size : Walk K σ _) stage)
      (.ok (List.replicate size (Chain.fresh p ⟨t, score⟩)), stage') := by
    induction size with
    | zero => exact fun stage => ⟨stage, rfl⟩
    | succ size ih =>
      intro stage
      obtain ⟨first, hfirst⟩ := hmade stage
      obtain ⟨last, hlast⟩ := ih first
      refine ⟨last, Walk.yields_bind.mpr (.inr ⟨_, first, hfirst, ?_⟩)⟩
      exact Walk.yields_bind.mpr (.inr ⟨_, last, hlast, rfl⟩)
  obtain ⟨made, hchains⟩ := hchains start
  exact ⟨made, Walk.yields_bind.mpr (.inr ⟨_, made, hchains, rfl⟩)⟩

end Made

section Terms

open Chain

/-- The chains of a pool about terms may all be made from a term that needs no names. -/
theorem exists_ofPrior_countingTermsBy (kernel : Kernel Exact) {t : Tree Exact}
    (ht : Grammar.NamelessTerm t) (size : ℕ) :
    ∃ s made, Rand.Yields ((ofPrior (countingTermsBy kernel) size : Walk Exact Unit _)
      ⟨(), ⟨0⟩, ⟨0, 0⟩, []⟩) (.ok s, made) ∧
        s.chains = List.replicate size (fresh (countingTermsBy kernel) (countingSample t)) := by
  obtain ⟨made, hmade⟩ := exists_yields_ofPrior (σ := Unit) (p := countingTermsBy kernel) rfl
    (logPosterior_countingTerms t).1 (fun names => ht.exists_yields_generateRetrying names 3) size
    ⟨(), ⟨0⟩, ⟨0, 0⟩, []⟩
  exact ⟨_, made, hmade, rfl⟩

/-- Two chains about terms share three steps in slices of two. All steps may be accepted. If two
samples are burned, nothing of the first chain is reported; if every second one is reported, it is
the same that the chain would report by itself. -/
theorem reports_by_slice_terms :
    let burning : Control := .ofFields 3 2 0 0 0
    let thinning : Control := .ofFields 3 0 2 0 0
    ∃ s made, Rand.Yields ((ofPrior (countingTermsBy .regeneration) 2 : Walk Exact Unit _)
        ⟨(), ⟨0⟩, ⟨0, 0⟩, []⟩) (.ok s, made) ∧
      let stage : Stage Exact _ := ⟨{ s with sliceSteps := 2 }, made.names, made.tally, made.records⟩
      stage.subject.chains ≠ [] ∧ 0 < burning.steps ∧ 0 < thinning.steps ∧
      (∃ told ended, Rand.Yields (tellRounds burning stage) (told, ended) ∧
        (reportOf burning told).failure = none ∧
        (∀ c ∈ ended.subject.chains, c.acceptances = c.samples) ∧
        ((reportOf burning told).reported.filter (·.1 == 0)).map Prod.snd = []) ∧
      ∃ told ended, Rand.Yields (tellRounds thinning stage) (told, ended) ∧
        (reportOf thinning told).failure = none ∧
        (∀ c ∈ ended.subject.chains, c.acceptances = c.samples) ∧
        ((reportOf thinning told).reported.filter (·.1 == 0)).map Prod.snd =
          due thinning 0 (roundsOn 0 told) := by
  intro burning thinning
  obtain ⟨s, made, hmade, hs⟩ :=
    exists_ofPrior_countingTermsBy .regeneration Grammar.namelessTerm_pairTerm 2
  refine ⟨s, made, hmade, ?_⟩
  intro stage
  have hall : ∀ c ∈ stage.subject.chains, Accepting 0 c := by
    intro c hc
    have hc : c ∈ s.chains := hc
    rw [hs] at hc
    obtain rfl := List.eq_of_mem_replicate hc
    exact accepting_fresh
  have hchains : stage.subject.chains ≠ [] := by simp [stage, hs]
  have hc := List.getElem?_eq_getElem (List.length_pos_of_ne_nil hchains)
  have hburning : 0 < burning.steps := by decide
  have hthinning : 0 < thinning.steps := by decide
  refine ⟨hchains, hburning, hthinning, ?_, ?_⟩
  · obtain ⟨told, ended, hyields, hnone, hended⟩ :=
      exists_yields_tellRounds (goesOn_accepting 0) hburning rfl hchains hall
    obtain ⟨-, hslices⟩ := reports_by_slice hburning hchains
    obtain ⟨c', -, -, -, -, hnothing, -⟩ := hslices told ended hyields hnone 0 _ hc
    exact ⟨told, ended, hyields, hnone, fun c hc => (hended c hc).acceptances_eq, hnothing le_rfl⟩
  · obtain ⟨told, ended, hyields, hnone, hended⟩ :=
      exists_yields_tellRounds (goesOn_accepting 0) hthinning rfl hchains hall
    obtain ⟨-, hslices⟩ := reports_by_slice hthinning hchains
    obtain ⟨c', -, -, -, -, -, hsame⟩ := hslices told ended hyields hnone 0 _ hc
    exact ⟨told, ended, hyields, hnone, fun c hc => (hended c hc).acceptances_eq,
      hsame rfl (.inr (dvd_refl 2))⟩

/-- A chain about terms takes two steps in slices of one. With one sample burned the pool reports
nothing of it, though its second sample is due. -/
theorem not_reports_due_terms :
    let ctl : Control := .ofFields 2 1 0 0 0
    ∃ s made told ended, Rand.Yields ((ofPrior (countingTermsBy .delete) 1 : Walk Exact Unit _)
        ⟨(), ⟨0⟩, ⟨0, 0⟩, []⟩) (.ok s, made) ∧
      let stage : Stage Exact _ := ⟨{ s with sliceSteps := 1 }, made.names, made.tally, made.records⟩
      Rand.Yields (tellRounds ctl stage) (told, ended) ∧
      Rand.Yields (run ctl stage) (reportOf ctl told, ended) ∧ (reportOf ctl told).failure = none ∧
      (roundsOn 0 told).length = 2 ∧ (due ctl 0 (roundsOn 0 told)).length = 1 ∧
      ((reportOf ctl told).reported.filter (·.1 == 0)).map Prod.snd = [] := by
  intro ctl
  obtain ⟨s, made, hmade, hs⟩ :=
    exists_ofPrior_countingTermsBy .delete Grammar.namelessTerm_constantTerm 1
  let stage : Stage Exact _ := ⟨{ s with sliceSteps := 1 }, made.names, made.tally, made.records⟩
  have hlength : stage.subject.chains.length = 1 := by simp [stage, hs]
  have hstuck : ∀ c ∈ stage.subject.chains, c.Stuck := by
    intro c hc
    have hc : c ∈ s.chains := hc
    rw [hs] at hc
    obtain rfl := List.eq_of_mem_replicate hc
    exact stuck_constantTerm rfl rfl
  have hsteps : 0 < ctl.steps := by decide
  have hpos : 0 < stage.subject.chains.length := hlength ▸ Nat.zero_lt_one
  have hchains : stage.subject.chains ≠ [] := List.ne_nil_of_length_pos hpos
  have hslice : max stage.subject.sliceSteps 1 = 1 := max_self 1
  obtain ⟨told, ended, hyields, hnone, -⟩ :=
    exists_yields_tellRounds goesOn_stuck hsteps rfl hchains hstuck
  obtain ⟨c', -, hreported⟩ := reported_of_yields_tellRounds hsteps hchains hnone hyields
    (List.getElem?_eq_getElem hpos)
  obtain ⟨hcounts, -⟩ := path_of_yields_tellRoundsFrom ctl.start 0 hpos
    (List.findSome?_eq_none_iff.mp hnone) hyields
  have htwo : (roundsOn 0 told).length = 2 := by
    rw [length_roundsOn hcounts, toSlice_of_yields_tellRounds hsteps hchains hnone hyields, hslice,
      show stage.subject.chains.length = 1 from hlength]
    decide
  have hrun : Rand.Yields (run ctl stage) (reportOf ctl told, ended) := by
    rw [run_eq_tellRounds hsteps hchains]
    exact (Rand.yields_bind ..).mpr ⟨_, hyields, rfl⟩
  obtain ⟨r, r', htwo'⟩ := List.length_eq_two.mp htwo
  refine ⟨s, made, told, ended, hmade, hyields, hrun, hnone, htwo, ?_, ?_⟩
  · rw [Chain.due_of_none hreported.failure_eq, htwo']
    rfl
  · exact hreported.eq_nil (hslice ▸ Nat.zero_lt_one) hslice.le

end Terms

end Pool

end ScopedGrammar
