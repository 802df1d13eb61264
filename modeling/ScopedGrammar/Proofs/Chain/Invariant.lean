import ScopedGrammar.Proofs.Chain.Step

/-!
# Invariants of chains

A chain changes its current sample only by the moves that it accepts and by restarts, and does not
change its problem. So what these keep is kept by every sample that is taken and by a whole run,
whatever is accepted, rejected or reported on the way.
-/
namespace ScopedGrammar.Chain

variable {K D : Type} [Scalar K]

/-- An invariant of a chain and of the names issued. It looks at nothing but the problem and the
current sample, and is not lost as names are taken. A chain that has it makes only moves that keep
it, should they be accepted, and restarts only where it holds. -/
structure Invariant (I : Chain K D → NameSupply → Prop) : Prop where
  congr : ∀ {c c' : Chain K D} {s}, I c s → c'.problem = c.problem → c'.current = c.current → I c' s
  mono : ∀ {c : Chain K D} {s s' : NameSupply}, I c s → s.issued ≤ s'.issued → I c s'
  move : ∀ {c : Chain K D} {s}, I c s →
    (c.problem.proposer.proposeOnce c.problem.grammar c.current.tree).Leads s fun attempt s' =>
      ∀ t fb, attempt = .moved t fb → ∀ score, c.Takes t score → I { c with current := ⟨t, score⟩ } s'
  fresh : ∀ {c : Chain K D} {s}, I c s →
    (c.problem.grammar.generateRetrying c.current.tree.nonterminal
      c.problem.proposer.maxAttempts).Leads s fun t s' =>
        ∀ score, c.problem.model.Gives c.problem.grammar t c.problem.data score →
          I { c with current := ⟨t, score⟩ } s'

namespace Invariant

variable {I : Chain K D → NameSupply → Prop}

theorem above (h : Invariant I) (s₀ : NameSupply) :
    Invariant fun (c : Chain K D) s => I c s ∧ s₀.issued ≤ s.issued where
  congr hI hproblem hcurrent := ⟨h.congr hI.1 hproblem hcurrent, hI.2⟩
  mono hI hle := ⟨h.mono hI.1 hle, Nat.le_trans hI.2 hle⟩
  move hI := (h.move hI.1).imp fun _ _ _ hle hkept t fb hattempt score hscore =>
    ⟨hkept t fb hattempt score hscore, Nat.le_trans hI.2 hle⟩
  fresh hI := (h.fresh hI.1).imp fun _ _ _ hle hkept score hscore =>
    ⟨hkept score hscore, Nat.le_trans hI.2 hle⟩

variable (h : Invariant I)
include h

/-- A step keeps an invariant, whether the move is accepted or not. -/
theorem keeps_step : (step : Walk K (Chain K D) Bool).Keeps I := by
  rw [step_eq]
  intro stage hI
  refine (Walk.Ensures.update (h.congr hI rfl rfl)).bind fun _ stage hI _ => ?_
  refine (Walk.Ensures.subject hI).bind fun c stage hI hc => ?_
  obtain ⟨rfl, rfl⟩ := hc
  refine (Walk.Ensures.ofSampler (h.move hI) fun s' hle => h.mono hI hle).bind
    fun attempt stage' hI' hmoved => ?_
  obtain ⟨hsubject, hmoved⟩ := hmoved
  refine ensures_judge _ attempt hI' (h.congr hI' rfl rfl) fun t fb hattempt score hscore accepted => ?_
  obtain ⟨hproblem, hcurrent⟩ := decide_eq accepted ⟨t, score⟩ stage'.subject
  cases accepted
  · exact h.congr hI' hproblem hcurrent
  · refine h.congr (hmoved t fb hattempt score hscore) ?_ hcurrent
    rw [hproblem, hsubject]

/-- A restart keeps an invariant. -/
theorem keeps_restart : (restart : Walk K (Chain K D) Unit).Keeps I := by
  intro stage hI
  refine (Walk.Ensures.subject hI).bind fun c stage hI hc => ?_
  obtain ⟨rfl, rfl⟩ := hc
  refine (Walk.Ensures.ofSampler (h.fresh hI) fun s' hle => h.mono hI hle).bind
    fun t stage₁ hI₁ hfresh => ?_
  obtain ⟨hsubject₁, hfresh⟩ := hfresh
  refine (Walk.Ensures.assess hI₁).bind fun score stage₂ hI₂ hscore => ?_
  obtain ⟨hsubject₂, hnames₂, hscore⟩ := hscore
  have hkept := hfresh score hscore
  rw [← hnames₂] at hkept
  have hcurrent : I { stage₂.subject with
      current := ⟨t, score⟩, best := score.posterior, stepsSinceImprovement := 0 } stage₂.names := by
    refine h.congr hkept ?_ rfl
    rw [hsubject₂, hsubject₁]
  exact (Walk.Ensures.update hcurrent).keeps

theorem keeps_tryRestart (after : ℕ) : (tryRestart after : Walk K (Chain K D) Unit).Keeps I := by
  intro stage hI
  refine (Walk.Ensures.record hI).bind fun _ stage hI _ => ?_
  refine (h.keeps_restart stage hI).tryCatch fun e stage hI => ?_
  split
  · refine (Walk.Ensures.record hI).bind fun _ stage hI _ => ?_
    exact (Walk.Ensures.update (h.congr hI rfl rfl)).keeps
  · exact .throw hI

/-- Taking a sample keeps an invariant. -/
theorem keeps_takeSample (ctl : Control) : (takeSample ctl : Walk K (Chain K D) Unit).Keeps I := by
  intro stage hI
  have htrack := trackImprovement_eq stage.subject
  refine (Walk.Ensures.update (h.congr hI htrack.1 htrack.2)).bind fun _ stage hI _ => ?_
  refine (Walk.Ensures.subject hI).bind fun c stage hI _ => ?_
  have hrest : ∀ stage : Stage K (Chain K D), I stage.subject stage.names →
      (do
        Walk.update fun c => { c with samples := c.samples + 1 }
        let c ← Walk.subject
        if 0 < ctl.print && c.samples % ctl.print == 0 then
          Walk.record (.progress c.samples c.acceptanceRate c.current) :
        Walk K (Chain K D) Unit).Ensures I stage fun _ _ => True := by
    intro stage hI
    refine (Walk.Ensures.update (h.congr hI rfl rfl)).bind fun _ stage hI _ => ?_
    refine (Walk.Ensures.subject hI).bind fun c stage hI _ => ?_
    split
    · exact (Walk.Ensures.record hI).keeps
    · exact .pure hI trivial
  split
  · exact (h.keeps_tryRestart _ stage hI).bind fun _ stage hI _ => hrest stage hI
  · exact (h.keeps_step stage hI).bind fun _ stage hI _ => hrest stage hI

/-- What is reported is the current sample of a chain that has the invariant. -/
theorem ensures_advanceWithin {bound : ℕ} {stage : Stage K (Chain K D × Control)}
    (hI : I stage.subject.1 stage.names) :
    (advanceWithin bound : Walk K (Chain K D × Control) _).Ensures (fun a s => I a.1 s) stage
      fun sample _ => ∀ a, sample = some a → ∃ c s, I c s ∧ c.current = a := by
  induction bound generalizing stage with
  | zero => exact .pure hI (by simp)
  | succ bound ih =>
    refine (Walk.Ensures.subject hI).bind fun subject stage hI _ => ?_
    refine (Walk.Ensures.update hI).bind fun _ stage hI _ => ?_
    split
    · have htake : Walk.Keeps (Walk.onPart Prod.fst (fun c a => (c, a.2))
          (takeSample subject.2.tick.2) : Walk K (Chain K D × Control) Unit)
          (fun a s => I a.1 s) :=
        (h.keeps_takeSample _).onPart (fun _ _ h => h) (fun _ _ _ h => h)
      refine (htake stage hI).bind fun _ stage hI _ => ?_
      refine (Walk.Ensures.subject hI).bind fun reached stage hI hreached => ?_
      obtain ⟨rfl, rfl⟩ := hreached
      obtain ⟨⟨c, ctl⟩, names, tally, records⟩ := stage
      dsimp only
      split
      · exact .pure hI fun a ha => ⟨c, names, hI, Option.some.inj ha⟩
      · exact ih hI
    · exact .pure hI (by simp)

theorem ensures_advance (stage : Stage K (Chain K D × Control))
    (hI : I stage.subject.1 stage.names) :
    (advance : Walk K (Chain K D × Control) _).Ensures (fun a s => I a.1 s) stage
      fun sample _ => ∀ a, sample = some a → ∃ c s, I c s ∧ c.current = a := by
  refine (Walk.Ensures.update hI).bind fun _ stage hI _ => ?_
  refine (Walk.Ensures.subject hI).bind fun subject stage hI _ => ?_
  exact h.ensures_advanceWithin hI

theorem of_yields_run {ctl : Control} {stage stage' : Stage K (Chain K D)}
    (hI : I stage.subject stage.names) {report : Report (Sample K)}
    (hrun : Rand.Yields (run ctl stage) (report, stage')) :
    I stage'.subject stage'.names ∧ ∀ a ∈ report.reported, ∃ c s, I c s ∧ c.current = a := by
  obtain ⟨inner, hcollect, hsubject, hnames⟩ := Walk.of_yields_onPart hrun
  obtain ⟨hI', hreported⟩ := SafeWalk.of_yields_collect (I := fun a s => I a.1 s)
    (Q := fun a : Sample K => ∃ c s, I c s ∧ c.current = a)
    h.ensures_advance (by simp) hI hcollect
  exact ⟨hsubject ▸ hnames ▸ hI', hreported⟩

end Invariant

end ScopedGrammar.Chain
