import ScopedGrammar.Proofs.Random.Outcome

/-!
# What samplers lead to

A sampler leads to a property if every result that it may come to has it, whatever the weights that
it draws by. Failures may be of any kind, but they take no name back either, so a caller may go on
after one. Such facts are put together along the sampler, draw by draw.
-/
namespace ScopedGrammar.Sampler

variable {K α β : Type}

/-- Whatever the sampler comes to, no name is taken back, and a result has the property. -/
def Leads (x : Sampler K α) (s : NameSupply) (P : α → NameSupply → Prop) : Prop :=
  ∀ r s', x.Yields s r s' → s.issued ≤ s'.issued ∧ ∀ a, r = .ok a → P a s'

namespace Leads

variable {x : Sampler K α} {f : α → Sampler K β} {s : NameSupply} {P P' : α → NameSupply → Prop}
  {Q : β → NameSupply → Prop}

theorem of_ok (h : x.Leads s P) {a : α} {s' : NameSupply} (ha : x.Yields s (.ok a) s') :
    s.issued ≤ s'.issued ∧ P a s' :=
  ⟨(h _ _ ha).1, (h _ _ ha).2 a rfl⟩

theorem imp (h : x.Leads s P)
    (himp : ∀ a s', x.Yields s (.ok a) s' → s.issued ≤ s'.issued → P a s' → P' a s') :
    x.Leads s P' := by
  intro r s' hr
  obtain ⟨hle, hok⟩ := h r s' hr
  refine ⟨hle, fun a ha => ?_⟩
  subst ha
  exact himp a s' hr hle (hok a rfl)

/-- What follows may rely on what was led to before. -/
theorem bind (h : x.Leads s P)
    (hf : ∀ a s', s.issued ≤ s'.issued → P a s' → (f a).Leads s' Q) : (x >>= f).Leads s Q := by
  have hrest : ∀ {a s'} r s'', x.Yields s (.ok a) s' → (f a).Yields s' r s'' →
      s.issued ≤ s''.issued ∧ ∀ b, r = .ok b → Q b s'' := by
    intro a s' r s'' ha hr
    obtain ⟨hle, hP⟩ := h.of_ok ha
    obtain ⟨hle', hok⟩ := hf a s' hle hP r s'' hr
    exact ⟨Nat.le_trans hle hle', hok⟩
  intro r s'' hr
  cases r with
  | ok b =>
    obtain ⟨a, s', ha, hb⟩ := (yields_bind_ok ..).mp hr
    exact hrest _ _ ha hb
  | error e =>
    rcases (yields_bind_error ..).mp hr with hx | ⟨a, s', ha, hb⟩
    · exact ⟨(h _ _ hx).1, by simp⟩
    · exact hrest _ _ ha hb

theorem pure {a : α} (h : P a s) : Leads (Pure.pure a : Sampler K α) s P := by
  intro r s' hr
  obtain ⟨rfl, rfl⟩ := (yields_pure ..).mp hr
  refine ⟨Nat.le_refl _, fun b hb => ?_⟩
  cases hb
  exact h

theorem throw {e : SampleError} : Leads (MonadExcept.throw e : Sampler K α) s P := by
  intro r s' hr
  obtain ⟨rfl, rfl⟩ := (yields_throw ..).mp hr
  exact ⟨Nat.le_refl _, by simp⟩

theorem tryCatch {handle : SampleError → Sampler K α} (h : x.Leads s P)
    (hhandle : ∀ e s', s.issued ≤ s'.issued → (handle e).Leads s' P) :
    Leads (MonadExcept.tryCatch x handle : Sampler K α) s P := by
  intro r s'' hr
  rcases (yields_tryCatch ..).mp hr with ⟨a, rfl, ha⟩ | ⟨e, s', he, hr⟩
  · exact h _ _ ha
  · obtain ⟨hle, -⟩ := h _ _ he
    obtain ⟨hle', hok⟩ := hhandle e s' hle r s'' hr
    exact ⟨Nat.le_trans hle hle', hok⟩

theorem ofNaming {x : Naming α} (hle : s.issued ≤ (x s).2.issued) (h : P (x s).1 (x s).2) :
    Leads (Sampler.ofNaming x : Sampler K α) s P := by
  intro r s' hr
  obtain ⟨rfl, rfl⟩ := (yields_ofNaming ..).mp hr
  refine ⟨hle, fun b hb => ?_⟩
  cases hb
  exact h

theorem getOrFail {e : SampleError} {x : Option α} (h : ∀ a, x = some a → P a s) :
    Leads (Sampler.getOrFail e x : Sampler K α) s P := by
  cases x with
  | none => exact throw
  | some a => exact pure (h a rfl)

theorem uniformChoice {xs : List α} : Leads (ScopedGrammar.uniformChoice xs : Sampler K _) s
    fun x s' => s' = s ∧ ∀ a, x = some a → a ∈ xs := by
  intro r s' hr
  obtain ⟨rfl, ⟨-, rfl⟩ | ⟨a, ha, rfl⟩⟩ := of_yields_uniformChoice hr
  · exact ⟨Nat.le_refl _, by simp⟩
  · exact ⟨Nat.le_refl _, by simpa using ha⟩

theorem weightedIndex [Scalar K] {weights : List K} :
    Leads (ScopedGrammar.weightedIndex weights) s fun _ s' => s' = s := by
  intro r s' hr
  obtain ⟨rfl, -⟩ := of_yields_weightedIndex hr
  exact ⟨Nat.le_refl _, fun _ _ => rfl⟩

theorem weightedChoice [Scalar K] {weight : α → K} {xs : List α} :
    Leads (ScopedGrammar.weightedChoice weight xs) s fun x s' => s' = s ∧ ∀ a, x = some a → a ∈ xs := by
  have hany : Leads (ScopedGrammar.weightedChoice weight xs) s fun _ _ => True :=
    weightedIndex.bind fun i s' _ _ => pure trivial
  exact hany.imp fun x s' hx _ _ => mem_of_yields_weightedChoice hx

end Leads

end ScopedGrammar.Sampler
