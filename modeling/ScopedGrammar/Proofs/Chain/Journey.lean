import ScopedGrammar.Proofs.Chain.Calls
import ScopedGrammar.Proofs.Chain.Rounds

/-!
# Journeys

A chain that is driven on, again and again and under changing controls, goes through one long
sequence of rounds. What a round says of itself is all that is kept of the control that it was made
under.
-/
namespace ScopedGrammar.Chain

variable {K D : Type} [Scalar K]

/-- Go through so many rounds under each of some controls in turn, whether those before failed or
not. -/
def journey : List (Control × ℕ) → SafeWalk K (Chain K D) (List (Round K D))
  | [] => fun stage => .done ([], stage)
  | (ctl, n) :: legs => fun stage => (rounds ctl n stage).bind fun (rs, stage) =>
      (journey legs stage).bind fun (later, stage) => .done (rs ++ later, stage)

/-- Driving a chain on comes to a journey under the same controls. -/
theorem exists_journey (drives : List Drive) : ∃ legs : List (Control × ℕ),
    legs.map (·.1) = drives.map Drive.control ∧ ∀ stage : Stage K (Chain K D),
      Walk.callAll (drives.map Drive.make) stage = (journey legs stage).bind fun (_, ended) =>
        .done ((), ended) := by
  induction drives with
  | nil => exact ⟨[], rfl, fun _ => rfl⟩
  | cons d drives ih =>
    obtain ⟨n, hrounds⟩ := d.exists_rounds (K := K) (D := D)
    obtain ⟨legs, hcontrols, hlegs⟩ := ih
    refine ⟨(d.control, n) :: legs, congrArg (d.control :: ·) hcontrols, fun stage => ?_⟩
    rw [List.map_cons, Walk.callAll_cons, hrounds, Rand.bind_assoc, journey]
    dsimp only
    rw [Rand.bind_assoc]
    refine congrArg (Rand.bind _) (funext ?_)
    rintro ⟨rs, between⟩
    rw [Rand.done_bind]
    dsimp only
    rw [hlegs, Rand.bind_assoc]
    rfl

/-- The rounds of a journey follow one another, each under one of its controls. -/
theorem path_of_yields_journey {legs : List (Control × ℕ)} {stage ended : Stage K (Chain K D)}
    {rs : List (Round K D)} (h : Rand.Yields (journey legs stage) (rs, ended)) :
    Path stage.subject rs ended.subject ∧
      ∀ r ∈ rs, r.patience ∈ legs.map (·.1.restart) := by
  induction legs generalizing stage rs with
  | nil =>
    cases h
    exact ⟨.nil _, by simp⟩
  | cons leg legs ih =>
    obtain ⟨⟨first, between⟩, hfirst, hrest⟩ := (Rand.yields_bind ..).mp h
    obtain ⟨⟨later, ended'⟩, hlater, heq⟩ := (Rand.yields_bind ..).mp hrest
    cases heq
    have hwent := went_of_yields_rounds hfirst
    obtain ⟨hpath, hpatience⟩ := ih hlater
    refine ⟨hwent.path.append hpath, fun r hr => ?_⟩
    rcases List.mem_append.mp hr with hr | hr
    · rw [hwent.patience_eq r hr]
      exact List.mem_cons_self
    · exact List.mem_cons_of_mem _ (hpatience r hr)

end ScopedGrammar.Chain
