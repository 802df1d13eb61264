import Mathlib.Data.List.Basic
import ScopedGrammar.Random.Sampler
import ScopedGrammar.Random.Words

/-!
# Outcomes of random computations

An outcome is what a random computation may come to if every draw may fall on each of its indices.
Whatever a run on random words ends in is an outcome, so what holds of all outcomes holds of every
run. The outcomes of a sampler come with the supply of names that it leaves.
-/
namespace ScopedGrammar

namespace Rand

variable {K α β : Type}

/-- Some way through the draws ends in the value. -/
def Yields : Rand K α → α → Prop
  | done a, b => a = b
  | weighted _ _ next, b => ∃ i, (next i).Yields b
  | uniform _ _ _ next, b => ∃ i, (next i).Yields b
  | chance _ _ next, b => ∃ i, (next i).Yields b

@[simp] theorem yields_done (a b : α) : (done a : Rand K α).Yields b ↔ a = b := Iff.rfl

@[simp] theorem yields_bind (x : Rand K α) (f : α → Rand K β) (b : β) :
    (x.bind f).Yields b ↔ ∃ a, x.Yields a ∧ (f a).Yields b := by
  induction x with
  | done a => simp
  | weighted ws h next ih => simp only [bind, Yields, ih]; grind
  | uniform how n h next ih => simp only [bind, Yields, ih]; grind
  | chance how p next ih => simp only [bind, Yields, ih]; grind

theorem bind_congr {x : Rand K α} {f f' : α → Rand K β} (h : ∀ a, x.Yields a → f a = f' a) :
    x.bind f = x.bind f' := by
  induction x with
  | done a => exact h a rfl
  | weighted ws hw next ih =>
    exact congrArg (weighted ws hw) (funext fun i => ih i fun a ha => h a ⟨i, ha⟩)
  | uniform how n hn next ih =>
    exact congrArg (uniform how n hn) (funext fun i => ih i fun a ha => h a ⟨i, ha⟩)
  | chance how p next ih =>
    exact congrArg (chance how p) (funext fun i => ih i fun a ha => h a ⟨i, ha⟩)

/-- Every random computation may come to something. -/
theorem exists_yields (x : Rand K α) : ∃ a, x.Yields a := by
  induction x with
  | done a => exact ⟨a, rfl⟩
  | weighted ws h next ih =>
    obtain ⟨a, ha⟩ := ih ⟨0, List.length_pos_of_ne_nil h⟩
    exact ⟨a, _, ha⟩
  | uniform how n h next ih =>
    obtain ⟨a, ha⟩ := ih ⟨0, h⟩
    exact ⟨a, _, ha⟩
  | chance how p next ih =>
    obtain ⟨a, ha⟩ := ih true
    exact ⟨a, _, ha⟩

/-- A run goes on with the words that are left. -/
theorem run_bind (x : Rand Float α) (f : α → Rand Float β) (ws : Words) :
    (x.bind f).run ws = (f (x.run ws).1).run (x.run ws).2 := by
  induction x generalizing ws with
  | done a => rfl
  | weighted weights h next ih =>
    rw [bind, run, run]
    exact ih _ _
  | uniform how n h next ih =>
    rw [bind, run, run]
    generalize Words.below (Words.width how) n Words.period ws = drawn
    exact ih _ _
  | chance how p next ih =>
    rw [bind, run, run]
    generalize Words.decideTrial how p ws = decided
    exact ih _ _

/-- A run on random words ends in an outcome. -/
theorem yields_run (x : Rand Float α) (ws : Words) : x.Yields (x.run ws).1 := by
  induction x generalizing ws with
  | done a => rfl
  | weighted weights h next ih =>
    rw [run]
    exact ⟨_, ih _ _⟩
  | uniform how n h next ih =>
    rw [run]
    generalize Words.below (Words.width how) n Words.period ws = drawn
    exact ⟨_, ih _ _⟩
  | chance how p next ih =>
    rw [run]
    generalize Words.decideTrial how p ws = decided
    exact ⟨_, ih _ _⟩

end Rand

namespace Sampler

variable {K α β : Type}

/-- The sampler may come to a result and leave a supply of names, where it finds another one. -/
def Yields (x : Sampler K α) (s : NameSupply) (r : Except SampleError α) (s' : NameSupply) : Prop :=
  Rand.Yields (x s) (r, s')

theorem bind_apply (x : Sampler K α) (f : α → Sampler K β) (s : NameSupply) :
    (x >>= f) s = Rand.bind (x s) fun
      | (.ok a, s') => f a s'
      | (.error e, s') => .done (.error e, s') := by
  change Rand.bind (x s) _ = _
  congr 1
  funext ⟨r, s'⟩
  cases r <;> rfl

/-- What follows matters for the results that the sampler may come to only. -/
theorem bind_congr {x : Sampler K α} {f f' : α → Sampler K β} {s : NameSupply}
    (h : ∀ a s', x.Yields s (.ok a) s' → f a s' = f' a s') : (x >>= f) s = (x >>= f') s := by
  rw [bind_apply, bind_apply]
  refine Rand.bind_congr fun (r, s') hr => ?_
  cases r with
  | ok a => exact h a s' hr
  | error e => rfl

@[simp] theorem yields_pure (a : α) (s s' : NameSupply) (r : Except SampleError α) :
    Yields (pure a : Sampler K α) s r s' ↔ r = .ok a ∧ s' = s := by
  change (Except.ok a, s) = (r, s') ↔ _
  grind

@[simp] theorem yields_throw (e : SampleError) (s s' : NameSupply) (r : Except SampleError α) :
    Yields (throw e : Sampler K α) s r s' ↔ r = .error e ∧ s' = s := by
  change (Except.error e, s) = (r, s') ↔ _
  grind

@[simp] theorem yields_bind_ok (x : Sampler K α) (f : α → Sampler K β) (s s'' : NameSupply) (b : β) :
    Yields (x >>= f) s (.ok b) s'' ↔
      ∃ a s', Yields x s (.ok a) s' ∧ Yields (f a) s' (.ok b) s'' := by
  simp only [Yields, bind_apply, Rand.yields_bind, Prod.exists]
  constructor
  · rintro ⟨r | a, s', hx, hf⟩
    · cases hf
    · exact ⟨a, s', hx, hf⟩
  · rintro ⟨a, s', hx, hf⟩
    exact ⟨.ok a, s', hx, hf⟩

@[simp] theorem yields_bind_error (x : Sampler K α) (f : α → Sampler K β) (s s'' : NameSupply)
    (e : SampleError) :
    Yields (x >>= f) s (.error e) s'' ↔ Yields x s (.error e) s'' ∨
      ∃ a s', Yields x s (.ok a) s' ∧ Yields (f a) s' (.error e) s'' := by
  simp only [Yields, bind_apply, Rand.yields_bind, Prod.exists]
  constructor
  · rintro ⟨r | a, s', hx, hf⟩
    · cases hf
      exact .inl hx
    · exact .inr ⟨a, s', hx, hf⟩
  · rintro (hx | ⟨a, s', hx, hf⟩)
    · exact ⟨.error e, s'', hx, rfl⟩
    · exact ⟨.ok a, s', hx, hf⟩

@[simp] theorem yields_ofNaming (x : Naming α) (s s' : NameSupply) (r : Except SampleError α) :
    Yields (ofNaming x : Sampler K α) s r s' ↔ r = .ok (x s).1 ∧ s' = (x s).2 := by
  change (Except.ok (x s).1, (x s).2) = (r, s') ↔ _
  grind

@[simp] theorem yields_ofNamingExcept (x : ExceptT SampleError Naming α) (s s' : NameSupply)
    (r : Except SampleError α) :
    Yields (ofNamingExcept x : Sampler K α) s r s' ↔ r = (x s).1 ∧ s' = (x s).2 := by
  change x s = (r, s') ↔ _
  rw [Prod.ext_iff, eq_comm, @eq_comm _ (x s).2]

@[simp] theorem yields_getOrFail (e : SampleError) (x : Option α) (s s' : NameSupply)
    (r : Except SampleError α) :
    Yields (getOrFail e x : Sampler K α) s r s' ↔ r = x.elim (.error e) .ok ∧ s' = s := by
  cases x
  · exact yields_throw e s s' r
  · exact yields_pure _ s s' r

@[simp] theorem yields_ofGrammar (x : Except GrammarError α) (s s' : NameSupply)
    (r : Except SampleError α) :
    Yields (ofGrammar x : Sampler K α) s r s' ↔ r = x.mapError .grammar ∧ s' = s := by
  cases x
  · exact yields_throw _ s s' r
  · exact yields_pure _ s s' r

theorem tryCatch_apply (x : Sampler K α) (f : SampleError → Sampler K α) (s : NameSupply) :
    (tryCatch x f : Sampler K α) s = Rand.bind (x s) fun
      | (.ok a, s') => .done (.ok a, s')
      | (.error e, s') => f e s' := by
  change Rand.bind (x s) _ = _
  congr 1
  funext ⟨r, s'⟩
  cases r <;> rfl

theorem yields_tryCatch (x : Sampler K α) (f : SampleError → Sampler K α) (s s'' : NameSupply)
    (r : Except SampleError α) :
    Yields (tryCatch x f) s r s'' ↔ (∃ a, r = .ok a ∧ Yields x s (.ok a) s'') ∨
      ∃ e s', Yields x s (.error e) s' ∧ Yields (f e) s' r s'' := by
  simp only [Yields, tryCatch_apply, Rand.yields_bind, Prod.exists]
  constructor
  · rintro ⟨e | a, s', hx, hf⟩
    · exact .inr ⟨e, s', hx, hf⟩
    · cases hf
      exact .inl ⟨a, rfl, hx⟩
  · rintro (⟨a, rfl, hx⟩ | ⟨e, s', hx, hf⟩)
    · exact ⟨.ok a, s'', hx, rfl⟩
    · exact ⟨.error e, s', hx, hf⟩

end Sampler

section Choices

variable {K α : Type}

theorem of_yields_weightedIndex [Scalar K] {weights : List K} {s s' : NameSupply}
    {r : Except SampleError (Option (Fin weights.length))}
    (h : (weightedIndex weights).Yields s r s') :
    s' = s ∧ ((∃ i, r = .ok i) ∨ offer weights = .unbounded) := by
  unfold weightedIndex at h
  split at h
  next => exact ⟨((Sampler.yields_pure ..).mp h).2, .inl ⟨_, ((Sampler.yields_pure ..).mp h).1⟩⟩
  next hw => exact ⟨((Sampler.yields_throw ..).mp h).2, .inr hw⟩
  next =>
    obtain ⟨i, hi⟩ := h
    cases hi
    exact ⟨rfl, .inl ⟨_, rfl⟩⟩

theorem mem_of_yields_weightedChoice [Scalar K] {weight : α → K} {xs : List α}
    {s s' : NameSupply} {r : Option α} (h : (weightedChoice weight xs).Yields s (.ok r) s') :
    s' = s ∧ ∀ x ∈ r, x ∈ xs := by
  obtain ⟨i, s₁, hi, hr⟩ := (Sampler.yields_bind_ok ..).mp h
  obtain ⟨hr, rfl⟩ := (Sampler.yields_pure ..).mp hr
  obtain ⟨rfl, -⟩ := of_yields_weightedIndex hi
  refine ⟨rfl, fun x hx => ?_⟩
  cases i with
  | none => simp_all
  | some i =>
    have : x = xs.get (i.cast (List.length_map weight)) := by simp_all
    exact this ▸ List.get_mem ..

/-- A uniform choice takes a member of the list, or says that there is none. It never fails. -/
theorem of_yields_uniformChoice {xs : List α} {s s' : NameSupply}
    {r : Except SampleError (Option α)} (h : (uniformChoice xs : Sampler K _).Yields s r s') :
    s' = s ∧ ((xs = [] ∧ r = .ok none) ∨ ∃ x ∈ xs, r = .ok (some x)) := by
  unfold uniformChoice at h
  split at h
  next hpos =>
    obtain ⟨i, hi⟩ : ∃ i : Fin xs.length, (Except.ok (some (xs.get i)), s) = (r, s') := h
    cases hi
    exact ⟨rfl, .inr ⟨_, List.get_mem .., rfl⟩⟩
  next hpos =>
    obtain ⟨rfl, rfl⟩ := (Sampler.yields_pure ..).mp h
    exact ⟨rfl, .inl ⟨List.eq_nil_of_length_eq_zero (by omega), rfl⟩⟩

end Choices

end ScopedGrammar
