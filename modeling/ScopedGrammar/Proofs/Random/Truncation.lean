import ScopedGrammar.Proofs.Random.Outcome

/-!
# Truncated computations

A computation may be given up once it is known that nothing that it may still come to is wanted. Up
to there it makes the draws of the computation that goes on. So on the same random words the two
come to the same wanted outcomes, with the same words left, and only unwanted ones are lost.
-/
namespace ScopedGrammar

namespace Rand

variable {K α β γ δ : Type}

/-- The first computation makes the draws of the second, and where it is not given up, they end in
outcomes that are related. It is given up where all that the second may still come to is lost. -/
inductive Truncates (R : α → β → Prop) (gone : α → Prop) (lost : β → Prop) :
    Rand K α → Rand K β → Prop
  | done {a : α} {b : β} (h : R a b) : Truncates R gone lost (done a) (done b)
  | stop {a : α} {y : Rand K β} (ha : gone a) (hy : ∀ b, y.Yields b → lost b) :
      Truncates R gone lost (done a) y
  | weighted {ws : List K} {hws : ws ≠ []} {next : Fin ws.length → Rand K α}
      {next' : Fin ws.length → Rand K β} (h : ∀ i, Truncates R gone lost (next i) (next' i)) :
      Truncates R gone lost (weighted ws hws next) (weighted ws hws next')
  | uniform {how : Reduction} {n : Nat} {hn : 0 < n} {next : Fin n → Rand K α}
      {next' : Fin n → Rand K β} (h : ∀ i, Truncates R gone lost (next i) (next' i)) :
      Truncates R gone lost (uniform how n hn next) (uniform how n hn next')
  | chance {how : Trial} {p : K} {next : Bool → Rand K α} {next' : Bool → Rand K β}
      (h : ∀ i, Truncates R gone lost (next i) (next' i)) :
      Truncates R gone lost (chance how p next) (chance how p next')

namespace Truncates

variable {R : α → β → Prop} {gone : α → Prop} {lost : β → Prop}

theorem refl {R : α → α → Prop} {lost : α → Prop} (h : ∀ a, R a a) (x : Rand K α) :
    Truncates R gone lost x x := by
  induction x with
  | done a => exact .done (h a)
  | weighted ws hws next ih => exact .weighted ih
  | uniform how n hn next ih => exact .uniform ih
  | chance how p next ih => exact .chance ih

/-- What follows is truncated as well, if nothing follows where the computation has been given up,
and nothing else than what is lost where that goes on. -/
theorem bind {R' : γ → δ → Prop} {gone' : γ → Prop} {lost' : δ → Prop} {x : Rand K α} {y : Rand K β}
    {f : α → Rand K γ} {f' : β → Rand K δ} (h : Truncates R gone lost x y)
    (hf : ∀ a b, R a b → Truncates R' gone' lost' (f a) (f' b))
    (hgone : ∀ a, gone a → ∃ c, f a = Rand.done c ∧ gone' c)
    (hlost : ∀ b, lost b → ∀ d, (f' b).Yields d → lost' d) :
    Truncates R' gone' lost' (x.bind f) (y.bind f') := by
  induction h with
  | done h => exact hf _ _ h
  | stop ha hy =>
    obtain ⟨c, hc, hgone'⟩ := hgone _ ha
    rw [done_bind, hc]
    refine .stop hgone' fun d hd => ?_
    obtain ⟨b, hb, hd⟩ := (yields_bind ..).mp hd
    exact hlost b (hy b hb) d hd
  | weighted _ ih => exact .weighted ih
  | uniform _ ih => exact .uniform ih
  | chance _ ih => exact .chance ih

theorem yields {x : Rand K α} {y : Rand K β} (h : Truncates R gone lost x y) {a : α}
    (ha : x.Yields a) : gone a ∨ ∃ b, y.Yields b ∧ R a b := by
  induction h with
  | done h => exact .inr ⟨_, rfl, ha ▸ h⟩
  | stop hgone => exact .inl (ha ▸ hgone)
  | weighted _ ih | uniform _ ih | chance _ ih =>
    obtain ⟨i, hi⟩ := ha
    exact (ih i hi).imp_right fun ⟨b, hb, hab⟩ => ⟨b, ⟨i, hb⟩, hab⟩

/-- On the same words the two end alike, or the first is given up and what the second ends in is
lost. -/
theorem run {x : Rand Float α} {y : Rand Float β} (h : Truncates R gone lost x y) (words : Words) :
    R (x.run words).1 (y.run words).1 ∧ (x.run words).2 = (y.run words).2 ∨
      gone (x.run words).1 ∧ lost (y.run words).1 := by
  induction h generalizing words with
  | done h => exact .inl ⟨h, rfl⟩
  | stop ha hy => exact .inr ⟨ha, hy _ (yields_run _ words)⟩
  | weighted _ ih =>
    rw [Rand.run, Rand.run]
    exact ih _ _
  | @uniform how n _ _ _ _ ih =>
    rw [Rand.run, Rand.run]
    generalize Words.below (Words.width how) n Words.period words = drawn
    exact ih _ _
  | @chance how p _ _ _ ih =>
    rw [Rand.run, Rand.run]
    generalize Words.decideTrial how p words = decided
    exact ih _ _

end Truncates

end Rand

namespace Sampler

variable {K α β γ δ : Type}

/-- Two samplers have come to results that are related or to the same failure, and have taken as
many names. -/
inductive Agree (R : α → β → Prop) :
    Except SampleError α × NameSupply → Except SampleError β × NameSupply → Prop
  | ok {a : α} {b : β} {s : NameSupply} (h : R a b) : Agree R (.ok a, s) (.ok b, s)
  | error (e : SampleError) (s : NameSupply) : Agree R (.error e, s) (.error e, s)

/-- The first sampler does what the second does, but is given up for the size of what it makes where
all results that the second may still come to are lost. -/
def Truncates (x : Sampler K α) (y : Sampler K β) (s : NameSupply) (R : α → β → Prop)
    (lost : β → Prop) : Prop :=
  Rand.Truncates (Agree R) (fun a => a.1 = .error .sizeExceeded)
    (fun b => ∀ v, b.1 = .ok v → lost v) (x s) (y s)

namespace Truncates

variable {x : Sampler K α} {y : Sampler K β} {s : NameSupply} {R : α → β → Prop} {lost : β → Prop}

theorem pure {a : α} {b : β} (h : R a b) :
    Truncates (Pure.pure a : Sampler K α) (Pure.pure b) s R lost :=
  .done (.ok h)

theorem throw (e : SampleError) :
    Truncates (MonadExcept.throw e : Sampler K α) (MonadExcept.throw e) s R lost :=
  .done (.error e s)

theorem stop (h : ∀ v s', y.Yields s (.ok v) s' → lost v) :
    Truncates (MonadExcept.throw .sizeExceeded : Sampler K α) y s R lost := by
  refine Rand.Truncates.stop rfl fun (r, s') hr v hv => ?_
  obtain rfl : r = .ok v := hv
  exact h v s' hr

theorem refl (x : Sampler K α) : Truncates x x s Eq fun _ => False := by
  refine Rand.Truncates.refl (fun (r, s') => ?_) (x s)
  cases r with
  | ok a => exact .ok rfl
  | error e => exact .error e s'

/-- What follows is truncated as well, if it goes on from what is lost to what is lost only. -/
theorem bind {f : α → Sampler K γ} {f' : β → Sampler K δ} {R' : γ → δ → Prop} {lost' : δ → Prop}
    (h : Truncates x y s R lost)
    (hf : ∀ a b s', R a b → Truncates (f a) (f' b) s' R' lost')
    (hlost : ∀ b, lost b → ∀ s' d s'', (f' b).Yields s' (.ok d) s'' → lost' d) :
    Truncates (x >>= f) (y >>= f') s R' lost' := by
  rw [Truncates, bind_apply, bind_apply]
  refine Rand.Truncates.bind h ?_ ?_ ?_
  · rintro _ _ (⟨hab⟩ | ⟨e, s'⟩)
    · exact hf _ _ _ hab
    · exact .done (.error e s')
  · rintro ⟨_, s'⟩ rfl
    exact ⟨_, rfl, rfl⟩
  · rintro ⟨e | b, s'⟩ hb ⟨r, s''⟩ hr d hd
    · cases hd.symm.trans (congrArg Prod.fst hr.symm)
    · obtain rfl : r = .ok d := hd
      exact hlost b (hb b rfl) s' d s'' hr

/-- What is lost stays so where nothing is drawn behind it. -/
theorem bind_pure {f : α → Sampler K γ} {f' : β → Sampler K δ} {R' : γ → δ → Prop}
    {lost' : δ → Prop} (h : Truncates x y s R lost)
    (hf : ∀ a b s', R a b → Truncates (f a) (f' b) s' R' lost')
    (hlost : ∀ b, lost b → ∃ d, f' b = Pure.pure d ∧ lost' d) :
    Truncates (x >>= f) (y >>= f') s R' lost' := by
  refine h.bind hf fun b hb s' d s'' hd => ?_
  obtain ⟨d', hpure, hd'⟩ := hlost b hb
  rw [hpure] at hd
  obtain ⟨heq, -⟩ := (yields_pure ..).mp hd
  exact Except.ok.inj heq ▸ hd'

theorem yields_ok (h : Truncates x y s R lost) {a : α} {s' : NameSupply} (ha : x.Yields s (.ok a) s') :
    ∃ b, y.Yields s (.ok b) s' ∧ R a b := by
  rcases Rand.Truncates.yields h ha with hgone | ⟨b, hb, ⟨hab⟩⟩
  · cases hgone
  · exact ⟨_, hb, hab⟩

/-- On the same words the two come to the same, or the first is given up and the result of the
second, if there is one, is lost. -/
theorem run {x y : Sampler Float α} {kept lost : α → Prop}
    (h : Truncates x y s (fun a b => a = b ∧ kept b) lost) (words : Words) :
    (Rand.run (x s) words = Rand.run (y s) words ∧
        ∀ a, (Rand.run (y s) words).1.1 = .ok a → kept a) ∨
      ((Rand.run (x s) words).1.1 = .error .sizeExceeded ∧
        ∀ a, (Rand.run (y s) words).1.1 = .ok a → lost a) := by
  rcases Rand.Truncates.run h words with ⟨hagree, hwords⟩ | hgone
  · refine .inl ?_
    generalize Rand.run (x s) words = cut at hagree hwords
    generalize Rand.run (y s) words = full at hagree hwords
    obtain ⟨cut, ws⟩ := cut
    obtain ⟨full, ws'⟩ := full
    obtain rfl : ws = ws' := hwords
    rcases hagree with ⟨rfl, hkept⟩ | ⟨e, s'⟩
    · exact ⟨rfl, fun a ha => Except.ok.inj ha ▸ hkept⟩
    · exact ⟨rfl, fun a ha => nomatch ha⟩
  · exact .inr hgone

end Truncates

end Sampler

end ScopedGrammar
