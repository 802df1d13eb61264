import ScopedGrammar.Proofs.Random.Expectation
import ScopedGrammar.Proofs.Random.Leads

/-!
# What samplers ensure

A sampler ensures a property if every result that it may come to has it, and every failure is one
that a fresh draw may avoid. Names are only ever added, so what was issued stays issued. Guarantees
are put together along the sampler, draw by draw.
-/
namespace ScopedGrammar.Sampler

variable {K α β : Type}

/-- Whatever the sampler comes to, no name is taken back; a result has the property, and a failure
is recoverable. -/
def Ensures (x : Sampler K α) (s : NameSupply) (P : α → NameSupply → Prop) : Prop :=
  ∀ r s', x.Yields s r s' → s.issued ≤ s'.issued ∧ (∀ a, r = .ok a → P a s') ∧
    ∀ e, r = .error e → e.isRecoverable = true

theorem Leads.ensures {x : Sampler K α} {s : NameSupply} {P : α → NameSupply → Prop}
    (h : x.Leads s P) (hany : x.Ensures s fun _ _ => True) : x.Ensures s P := fun r s' hr =>
  ⟨(h r s' hr).1, (h r s' hr).2, (hany r s' hr).2.2⟩

namespace Ensures

variable {x : Sampler K α} {f : α → Sampler K β} {s : NameSupply} {P P' : α → NameSupply → Prop}
  {Q : β → NameSupply → Prop}

theorem of_ok (h : x.Ensures s P) {a : α} {s' : NameSupply} (ha : x.Yields s (.ok a) s') :
    s.issued ≤ s'.issued ∧ P a s' :=
  ⟨(h _ _ ha).1, (h _ _ ha).2.1 a rfl⟩

theorem imp (h : x.Ensures s P)
    (himp : ∀ a s', x.Yields s (.ok a) s' → s.issued ≤ s'.issued → P a s' → P' a s') :
    x.Ensures s P' := by
  intro r s' hr
  obtain ⟨hle, hok, herror⟩ := h r s' hr
  refine ⟨hle, fun a ha => ?_, herror⟩
  subst ha
  exact himp a s' hr hle (hok a rfl)

/-- What follows may rely on what was ensured before. -/
theorem bind (h : x.Ensures s P)
    (hf : ∀ a s', s.issued ≤ s'.issued → P a s' → (f a).Ensures s' Q) : (x >>= f).Ensures s Q := by
  intro r s'' hr
  cases r with
  | ok b =>
    obtain ⟨a, s', ha, hb⟩ := (yields_bind_ok ..).mp hr
    obtain ⟨hle, hP⟩ := h.of_ok ha
    obtain ⟨hle', hrest⟩ := hf a s' hle hP _ _ hb
    exact ⟨Nat.le_trans hle hle', hrest⟩
  | error e =>
    rcases (yields_bind_error ..).mp hr with hx | ⟨a, s', ha, hb⟩
    · obtain ⟨hle, -, herror⟩ := h _ _ hx
      refine ⟨hle, by simp, fun e' he' => ?_⟩
      cases he'
      exact herror e rfl
    · obtain ⟨hle, hP⟩ := h.of_ok ha
      obtain ⟨hle', hrest⟩ := hf a s' hle hP _ _ hb
      exact ⟨Nat.le_trans hle hle', hrest⟩

theorem pure {a : α} (h : P a s) : Ensures (Pure.pure a : Sampler K α) s P := by
  intro r s' hr
  obtain ⟨rfl, rfl⟩ := (yields_pure ..).mp hr
  refine ⟨Nat.le_refl _, fun b hb => ?_, by simp⟩
  cases hb
  exact h

theorem throw {e : SampleError} (h : e.isRecoverable = true) :
    Ensures (MonadExcept.throw e : Sampler K α) s P := by
  intro r s' hr
  obtain ⟨rfl, rfl⟩ := (yields_throw ..).mp hr
  refine ⟨Nat.le_refl _, by simp, fun e' he' => ?_⟩
  cases he'
  exact h

theorem ofNaming {x : Naming α} (hle : s.issued ≤ (x s).2.issued) (h : P (x s).1 (x s).2) :
    Ensures (Sampler.ofNaming x : Sampler K α) s P := by
  intro r s' hr
  obtain ⟨rfl, rfl⟩ := (yields_ofNaming ..).mp hr
  refine ⟨hle, fun b hb => ?_, by simp⟩
  cases hb
  exact h

theorem getOrFail {e : SampleError} {x : Option α} (he : e.isRecoverable = true)
    (h : ∀ a, x = some a → P a s) : Ensures (Sampler.getOrFail e x : Sampler K α) s P := by
  cases x with
  | none => exact throw he
  | some a => exact pure (h a rfl)

theorem uniformChoice {xs : List α} : Ensures (ScopedGrammar.uniformChoice xs : Sampler K _) s
    fun x s' => s' = s ∧ ∀ a, x = some a → a ∈ xs := by
  intro r s' hr
  obtain ⟨rfl, hnone | ⟨a, ha, hr⟩⟩ := of_yields_uniformChoice hr
  · obtain ⟨-, rfl⟩ := hnone
    refine ⟨Nat.le_refl _, fun x hx => ⟨rfl, fun a ha => ?_⟩, by simp⟩
    cases hx
    cases ha
  · subst hr
    refine ⟨Nat.le_refl _, fun x hx => ⟨rfl, fun b hb => ?_⟩, by simp⟩
    cases hx
    cases hb
    exact ha

end Ensures

section Exact

open Exact

variable {α : Type}

/-- Weights that are not negative never lack a finite sum. -/
theorem offer_ne_unbounded {ws : List Exact} (h : ∀ w ∈ ws, w.Nonneg) : offer ws ≠ .unbounded := by
  rcases (sum_toReal_nonneg h).eq_or_lt with hzero | hpos
  · rw [offer_eq_nothing h hzero.symm]
    simp
  · rw [offer_eq_proper h hpos]
    simp

theorem Ensures.weightedIndex {ws : List Exact} (h : ∀ w ∈ ws, w.Nonneg) {s : NameSupply} :
    Ensures (ScopedGrammar.weightedIndex ws) s fun _ s' => s' = s := by
  intro r s' hr
  obtain ⟨rfl, hok | hbad⟩ := of_yields_weightedIndex hr
  · obtain ⟨i, rfl⟩ := hok
    exact ⟨Nat.le_refl _, fun _ _ => rfl, by simp⟩
  · exact absurd hbad (offer_ne_unbounded h)

theorem Ensures.weightedChoice {weight : α → Exact} {xs : List α}
    (h : ∀ x ∈ xs, (weight x).Nonneg) {s : NameSupply} :
    Ensures (ScopedGrammar.weightedChoice weight xs) s
      fun x s' => s' = s ∧ ∀ a, x = some a → a ∈ xs := by
  have hws : ∀ w ∈ xs.map weight, w.Nonneg := by simpa using h
  refine Ensures.imp (P := fun _ _ => True) ?_ fun x s' hx _ _ => ?_
  · exact (Ensures.weightedIndex hws).bind fun i s' _ _ => Ensures.pure trivial
  · obtain ⟨rfl, hmem⟩ := mem_of_yields_weightedChoice hx
    exact ⟨rfl, fun a ha => hmem a ha⟩

end Exact

end ScopedGrammar.Sampler
