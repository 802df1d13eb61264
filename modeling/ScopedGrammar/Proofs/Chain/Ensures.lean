import ScopedGrammar.Chain.Basic
import ScopedGrammar.Proofs.Random.Ensures

/-!
# What walks ensure

A walk keeps an invariant of its subject and of the names issued if every stage that it may come to
has it, whether the walk fails there or not. Of a result one may say more. As with samplers, such
guarantees are put together along the walk.
-/
namespace ScopedGrammar

/-- The model may come to the score of a tree, after some number of evaluations. -/
def Model.Gives {K D : Type} [Scalar K] (m : Model K D) (g : Grammar K) (t : Tree K) (data : List D)
    (score : Score K) : Prop :=
  ∃ made, (m.assess g t data made).1 = .ok score

namespace Walk

variable {K σ τ α β : Type}

section Apply

theorem bind_apply (x : Walk K σ α) (f : α → Walk K σ β) (stage : Stage K σ) :
    (x >>= f) stage = Rand.bind (x stage) fun
      | (.ok a, stage') => f a stage'
      | (.error e, stage') => .done (.error e, stage') := by
  change Rand.bind (x stage) _ = _
  congr 1
  funext ⟨r, stage'⟩
  cases r <;> rfl

theorem tryCatch_apply (x : Walk K σ α) (f : SampleError → Walk K σ α) (stage : Stage K σ) :
    (tryCatch x f : Walk K σ α) stage = Rand.bind (x stage) fun
      | (.ok a, stage') => .done (.ok a, stage')
      | (.error e, stage') => f e stage' := by
  change Rand.bind (x stage) _ = _
  congr 1
  funext ⟨r, stage'⟩
  cases r <;> rfl

theorem ofSampler_bind_apply (x : Sampler K α) (f : α → Walk K σ β) (stage : Stage K σ) :
    (ofSampler x >>= f : Walk K σ β) stage = Rand.bind (x stage.names) fun
      | (.ok a, s') => f a { stage with names := s' }
      | (.error e, s') => .done (.error e, { stage with names := s' }) := by
  rw [bind_apply]
  change Rand.bind (Rand.bind (x stage.names) _) _ = _
  rw [Rand.bind_assoc]
  congr 1
  funext ⟨r, s'⟩
  cases r <;> rfl

theorem assess_apply [Scalar K] {D : Type} (m : Model K D) (g : Grammar K) (t : Tree K)
    (data : List D) (stage : Stage K σ) : (assess m g t data : Walk K σ (Score K)) stage =
      .done ((m.assess g t data stage.tally).1.mapError .grammar,
        { stage with tally := (m.assess g t data stage.tally).2 }) := by
  unfold assess
  rw [bind_apply]
  change Rand.bind (.done ((.ok stage : Except SampleError (Stage K σ)), stage)) _ = _
  rw [Rand.done_bind]
  dsimp only
  generalize m.assess g t data stage.tally = outcome
  obtain ⟨score | e, tally⟩ := outcome
  · rfl
  · rfl

end Apply

/-- Whatever the walk comes to, the stage that it leaves has the invariant, and a result has the
property there. -/
def Ensures (x : Walk K σ α) (I : σ → NameSupply → Prop) (stage : Stage K σ)
    (P : α → Stage K σ → Prop) : Prop :=
  ∀ r stage', Rand.Yields (x stage) (r, stage') →
    I stage'.subject stage'.names ∧ ∀ a, r = .ok a → P a stage'

/-- The walk keeps the invariant from every stage that has it. -/
def Keeps (x : Walk K σ α) (I : σ → NameSupply → Prop) : Prop :=
  ∀ stage, I stage.subject stage.names → x.Ensures I stage fun _ _ => True

namespace Ensures

variable {x : Walk K σ α} {f : α → Walk K σ β} {I : σ → NameSupply → Prop} {stage : Stage K σ}
  {P P' : α → Stage K σ → Prop} {Q : β → Stage K σ → Prop}

theorem imp (h : x.Ensures I stage P)
    (himp : ∀ a stage', I stage'.subject stage'.names → P a stage' → P' a stage') :
    x.Ensures I stage P' := by
  intro r stage' hr
  obtain ⟨hI, hok⟩ := h r stage' hr
  exact ⟨hI, fun a ha => himp a stage' hI (hok a ha)⟩

theorem keeps (h : x.Ensures I stage P) : x.Ensures I stage fun _ _ => True :=
  h.imp fun _ _ _ _ => trivial

theorem weaken {J : σ → NameSupply → Prop} (h : x.Ensures J stage P) (hIJ : ∀ a s, J a s → I a s) :
    x.Ensures I stage P := fun r stage' hr =>
  ⟨hIJ _ _ (h r stage' hr).1, (h r stage' hr).2⟩

theorem bind (h : x.Ensures I stage P)
    (hf : ∀ a stage', I stage'.subject stage'.names → P a stage' → (f a).Ensures I stage' Q) :
    (x >>= f).Ensures I stage Q := by
  intro r stage'' hr
  rw [bind_apply, Rand.yields_bind] at hr
  obtain ⟨⟨r', stage'⟩, hx, hrest⟩ := hr
  obtain ⟨hI, hok⟩ := h r' stage' hx
  cases r' with
  | ok a => exact hf a stage' hI (hok a rfl) r stage'' hrest
  | error e =>
    have heq : (Except.error e, stage') = (r, stage'') := hrest
    cases heq
    exact ⟨hI, fun a ha => by cases ha⟩

theorem pure {a : α} (hI : I stage.subject stage.names) (h : P a stage) :
    Ensures (Pure.pure a : Walk K σ α) I stage P := by
  intro r stage' hr
  have heq : (Except.ok a, stage) = (r, stage') := hr
  cases heq
  refine ⟨hI, fun b hb => ?_⟩
  cases hb
  exact h

theorem throw {e : SampleError} (hI : I stage.subject stage.names) :
    Ensures (MonadExcept.throw e : Walk K σ α) I stage P := by
  intro r stage' hr
  have heq : (Except.error e, stage) = (r, stage') := hr
  cases heq
  exact ⟨hI, fun b hb => by cases hb⟩

theorem tryCatch {handle : SampleError → Walk K σ α} (h : x.Ensures I stage P)
    (hhandle : ∀ e stage', I stage'.subject stage'.names → (handle e).Ensures I stage' P) :
    Ensures (MonadExcept.tryCatch x handle : Walk K σ α) I stage P := by
  intro r stage'' hr
  rw [Walk.tryCatch_apply, Rand.yields_bind] at hr
  obtain ⟨⟨r', stage'⟩, hx, hrest⟩ := hr
  obtain ⟨hI, hok⟩ := h r' stage' hx
  cases r' with
  | error e => exact hhandle e stage' hI r stage'' hrest
  | ok a =>
    have heq : (Except.ok a, stage') = (r, stage'') := hrest
    cases heq
    exact ⟨hI, hok⟩

theorem subject (hI : I stage.subject stage.names) :
    Ensures (Walk.subject : Walk K σ σ) I stage fun a stage' => a = stage.subject ∧ stage' = stage := by
  intro r stage' hr
  have heq : (Except.ok stage.subject, stage) = (r, stage') := hr
  cases heq
  refine ⟨hI, fun b hb => ?_⟩
  cases hb
  exact ⟨rfl, rfl⟩

theorem update {f : σ → σ} (hI : I (f stage.subject) stage.names) :
    Ensures (Walk.update f : Walk K σ Unit) I stage fun _ stage' =>
      stage'.subject = f stage.subject ∧ stage'.names = stage.names := by
  intro r stage' hr
  have heq : (Except.ok (), { stage with subject := f stage.subject }) = (r, stage') := hr
  cases heq
  exact ⟨hI, fun _ _ => ⟨rfl, rfl⟩⟩

theorem record {a : Record K} (hI : I stage.subject stage.names) :
    Ensures (Walk.record a : Walk K σ Unit) I stage fun _ stage' =>
      stage'.subject = stage.subject ∧ stage'.names = stage.names := by
  intro r stage' hr
  have heq : (Except.ok (), { stage with records := a :: stage.records }) = (r, stage') := hr
  cases heq
  exact ⟨hI, fun _ _ => ⟨rfl, rfl⟩⟩

theorem ofRand {x : Rand K α} (hI : I stage.subject stage.names) :
    Ensures (Walk.ofRand x : Walk K σ α) I stage fun _ stage' => stage' = stage := by
  intro r stage' hr
  obtain ⟨a, -, heq⟩ := (Rand.yields_bind ..).mp hr
  cases heq
  exact ⟨hI, fun _ _ => rfl⟩

theorem ofSampler {x : Sampler K α} {Q : α → NameSupply → Prop} (hx : x.Leads stage.names Q)
    (hI : ∀ s', stage.names.issued ≤ s'.issued → I stage.subject s') :
    Ensures (Walk.ofSampler x : Walk K σ α) I stage fun a stage' =>
      stage'.subject = stage.subject ∧ Q a stage'.names := by
  intro r stage' hr
  obtain ⟨⟨a, s'⟩, ha, heq⟩ := (Rand.yields_bind ..).mp hr
  cases heq
  obtain ⟨hle, hok⟩ := hx _ s' ha
  exact ⟨hI s' hle, fun b hb => ⟨rfl, hok b hb⟩⟩

theorem assess [Scalar K] {D : Type} {m : Model K D} {g : Grammar K} {t : Tree K} {data : List D}
    (hI : I stage.subject stage.names) :
    Ensures (Walk.assess m g t data : Walk K σ (Score K)) I stage fun score stage' =>
      stage'.subject = stage.subject ∧ stage'.names = stage.names ∧ m.Gives g t data score := by
  intro r stage' hr
  rw [assess_apply, Rand.yields_done] at hr
  obtain ⟨hscore, rfl⟩ := Prod.mk.inj hr
  refine ⟨hI, fun score hok => ⟨rfl, rfl, stage.tally, ?_⟩⟩
  rw [hok] at hscore
  cases hgiven : (m.assess g t data stage.tally).1 with
  | error e => simp [hgiven, Except.mapError] at hscore
  | ok score' =>
    rw [hgiven] at hscore
    cases hscore
    rfl

end Ensures

/-- A walk on a part of the subject comes to what the walk on the part alone comes to. -/
theorem of_yields_onPart {part : σ → τ} {putBack : τ → σ → σ} {x : SafeWalk K τ α}
    {stage stage' : Stage K σ} {a : α} (h : Rand.Yields (onPart part putBack x stage) (a, stage')) :
    ∃ inner, Rand.Yields (x ⟨part stage.subject, stage.names, stage.tally, stage.records⟩)
      (a, inner) ∧ stage'.subject = putBack inner.subject stage.subject ∧
        stage'.names = inner.names := by
  obtain ⟨⟨b, inner⟩, hx, heq⟩ := (Rand.yields_bind ..).mp h
  cases heq
  exact ⟨inner, hx, rfl, rfl⟩

theorem Ensures.onOwn {a : τ} {x : Walk K τ α} {I : σ → NameSupply → Prop}
    {J : τ → NameSupply → Prop} {Q : α → NameSupply → Prop} {stage : Stage K σ}
    (h : x.Ensures J ⟨a, stage.names, stage.tally, stage.records⟩ fun r inner => Q r inner.names)
    (hI : ∀ b s, J b s → I stage.subject s) :
    Ensures (Walk.onOwn a x : Walk K σ α) I stage fun r stage' => Q r stage'.names := by
  intro r stage' hr
  obtain ⟨⟨b, inner⟩, hx, heq⟩ := (Rand.yields_bind ..).mp hr
  cases heq
  obtain ⟨hJ, hok⟩ := h r inner hx
  exact ⟨hI _ _ hJ, hok⟩

theorem Keeps.onPart {part : σ → τ} {putBack : τ → σ → σ} {x : Walk K τ α}
    {I : σ → NameSupply → Prop} {J : τ → NameSupply → Prop} (h : x.Keeps J)
    (hpart : ∀ a s, I a s → J (part a) s) (hput : ∀ b a s, J b s → I (putBack b a) s) :
    Keeps (Walk.onPart part putBack x : Walk K σ α) I := by
  intro stage hI r stage' hr
  obtain ⟨inner, hx, hsubject, hnames⟩ := of_yields_onPart hr
  have hJ := (h ⟨part stage.subject, stage.names, stage.tally, stage.records⟩
    (hpart _ _ hI) r inner hx).1
  rw [hsubject, hnames]
  exact ⟨hput _ _ _ hJ, fun _ _ => trivial⟩

end Walk

namespace SafeWalk

variable {K σ α : Type}

/-- A run keeps the invariant of the walks that it is made of, and whatever it has collected in the
end was reported by one of them. -/
theorem of_yields_collect {next : Walk K σ (Option α)} {I : σ → NameSupply → Prop} {Q : α → Prop}
    (hnext : ∀ stage, I stage.subject stage.names →
      next.Ensures I stage fun a _ => ∀ b, a = some b → Q b)
    {bound : ℕ} {collected : List α} (hcollected : ∀ a ∈ collected, Q a) {stage stage' : Stage K σ}
    (hI : I stage.subject stage.names) {report : Report α}
    (h : Rand.Yields (collect next bound collected stage) (report, stage')) :
    I stage'.subject stage'.names ∧ ∀ a ∈ report.reported, Q a := by
  have hstop : ∀ (collected : List α) (e : Option SampleError) (stage₁ : Stage K σ),
      (∀ a ∈ collected, Q a) → I stage₁.subject stage₁.names →
      (Report.mk collected.reverse e, stage₁) = (report, stage') →
        I stage'.subject stage'.names ∧ ∀ a ∈ report.reported, Q a := by
    rintro collected e stage₁ hQ hI ⟨⟩
    exact ⟨hI, fun a ha => hQ a (List.mem_reverse.mp ha)⟩
  induction bound generalizing collected stage with
  | zero => exact hstop collected none stage hcollected hI h
  | succ bound ih =>
    obtain ⟨⟨r, stage₁⟩, hr, hrest⟩ := (Rand.yields_bind ..).mp h
    obtain ⟨hI₁, hok⟩ := hnext stage hI r stage₁ hr
    match r, hok, hrest with
    | .error e, _, hrest => exact hstop collected (some e) stage₁ hcollected hI₁ hrest
    | .ok none, _, hrest => exact hstop collected none stage₁ hcollected hI₁ hrest
    | .ok (some a), hok, hrest =>
      exact ih (List.forall_mem_cons.mpr ⟨hok (some a) rfl a rfl, hcollected⟩) hI₁ hrest

end SafeWalk

end ScopedGrammar
