import ScopedGrammar.Chain.Tempering
import ScopedGrammar.Proofs.Chain.Invariant

/-!
# Invariants under tempering

Chains that take turns keep what each of them keeps alone, since the others are left as they are
while one is walked on and only more names are issued. An exchange hands the current sample of one
chain to another; it keeps an invariant by which such samples may change places.
-/
namespace ScopedGrammar.Tempering

variable {K D : Type} [Scalar K]

/-- A chain starts where it is told to if it is the coldest, and from a fresh tree otherwise. -/
theorem startChains_cons {σ : Type} (p : Problem K D) (t : Tree K) (cold : Bool) (temperature : K)
    (temperatures : List K) : (startChains p t cold (temperature :: temperatures) : Walk K σ _) =
      Chain.ofTree p t >>= fun c =>
        (if cold then pure c else Walk.onOwn c (do Chain.restart; Walk.subject)) >>= fun c =>
          startChains p t false temperatures >>= fun cs =>
            pure ({ c with
              temperatures := { c.temperatures with likelihood := temperature } } :: cs) := by
  cases cold <;> rfl

/-- Every chain has the invariant. -/
def All (I : Chain K D → NameSupply → Prop) (s : Tempering K D) (names : NameSupply) : Prop :=
  ∀ c ∈ s.chains, I c names

/-- An invariant of chains by which their current samples may change places. -/
structure Invariant (I : Chain K D → NameSupply → Prop) : Prop extends Chain.Invariant I where
  exchange : ∀ {c d : Chain K D} {s}, I c s → I d s → I { c with current := d.current } s

variable {I : Chain K D → NameSupply → Prop} {s : Tempering K D} {names names' : NameSupply}

namespace Invariant

variable (h : Invariant I)
include h

theorem all_mono (hI : All I s names) (hle : names.issued ≤ names'.issued) : All I s names' :=
  fun c hc => h.mono (hI c hc) hle

/-- An exchange keeps the invariant of the chains. -/
theorem all_exchange {i j : ℕ} {chains : ChainGroup K D} (hI : ∀ c ∈ chains, I c names) :
    ∀ c ∈ Tempering.exchange i j chains, I c names := by
  intro c hc
  unfold Tempering.exchange at hc
  split at hc
  · next a b ha hb =>
    have haI := hI a (List.mem_of_getElem? ha)
    have hbI := hI b (List.mem_of_getElem? hb)
    rcases List.mem_or_eq_of_mem_set hc with hc | rfl
    · rcases List.mem_or_eq_of_mem_set hc with hc | rfl
      · exact hI c hc
      · exact h.exchange haI hbI
    · exact h.exchange hbI haI
  · exact hI c hc

/-- A proposed exchange keeps the invariant, whether it is accepted or not. -/
theorem keeps_proposeSwap (k : ℕ) : (proposeSwap k : Walk K (Tempering K D) Unit).Keeps (All I) := by
  intro stage hI
  refine (Walk.Ensures.subject hI).bind fun s stage hI _ => ?_
  split
  · next lower upper _ _ =>
    have haccept : (acceptSwap (swapLogRatio lower upper) : Walk K (Tempering K D) Bool).Ensures
        (All I) stage fun _ _ => True := by
      unfold acceptSwap
      split
      · exact .pure hI trivial
      · split
        · exact .pure hI trivial
        · exact (Walk.Ensures.ofRand hI).keeps
    refine haccept.bind fun accepted stage hI _ => ?_
    refine (Walk.Ensures.record hI).bind fun _ stage hI _ => ?_
    refine (Walk.Ensures.update ?_).keeps
    cases accepted
    · exact hI
    · exact h.all_exchange hI
  · exact .pure hI trivial

theorem keeps_swap : (swap : Walk K (Tempering K D) Unit).Keeps (All I) := by
  intro stage hI
  refine (Walk.Ensures.subject hI).bind fun s stage hI _ => ?_
  split
  · next hpos =>
    have hdraw : (uniformIndex .fullWord (s.chains.length - 1) hpos : Sampler K _).Leads stage.names
        fun _ _ => True := by
      intro r s' hr
      obtain ⟨i, -, hi⟩ := (Rand.yields_bind ..).mp hr
      cases hi
      exact ⟨Nat.le_refl _, fun _ _ => trivial⟩
    refine (Walk.Ensures.ofSampler hdraw fun s' hle => h.all_mono hI hle).bind
      fun i stage hI _ => ?_
    exact h.keeps_proposeSwap _ stage hI
  · exact .pure hI trivial

theorem keeps_swapIfDue : (swapIfDue : Walk K (Tempering K D) Unit).Keeps (All I) := by
  intro stage hI
  refine (Walk.Ensures.subject hI).bind fun s stage hI _ => ?_
  split
  · exact (h.keeps_swap stage hI).bind fun _ stage hI _ => (Walk.Ensures.update hI).keeps
  · exact .pure hI trivial

/-- While one chain goes on, the others keep the invariant as more names are issued. -/
theorem keeps_onChainAndControl (i : ℕ) :
    Walk.Keeps (advance.onChainAndControl i Chain.advance : Walk K (Tempering K D × Control) _)
      (fun a names => All I a.1 names) := by
  intro stage hI r stage' hr
  unfold advance.onChainAndControl at hr
  split at hr
  · cases hr
    exact ⟨hI, fun _ _ => trivial⟩
  · next c hc =>
    obtain ⟨⟨outcome, inner⟩, hx, heq⟩ := (Rand.yields_bind ..).mp hr
    cases heq
    have hcI := hI c (List.mem_of_getElem? hc)
    obtain ⟨⟨hnew, hle⟩, -⟩ := (h.toInvariant.above stage.names).ensures_advance
      ⟨(c, stage.subject.2), stage.names, stage.tally, stage.records⟩
      ⟨hcI, Nat.le_refl _⟩ outcome inner hx
    refine ⟨fun d hd => ?_, fun _ _ => trivial⟩
    rcases List.mem_or_eq_of_mem_set hd with hd | rfl
    · exact h.mono (hI d hd) hle
    · exact hnew

theorem keeps_advance : (advance : Walk K (Tempering K D × Control) _).Keeps
    (fun a names => All I a.1 names) := by
  intro stage hI
  refine (Walk.Ensures.subject hI).bind fun subject stage hI _ => ?_
  dsimp only
  split
  · exact .pure hI trivial
  · refine (Walk.Ensures.update hI).bind fun _ stage hI _ => ?_
    have hswap : Walk.Keeps (Walk.onPart Prod.fst (fun s' a => (s', a.2)) swapIfDue :
        Walk K (Tempering K D × Control) Unit) (fun a names => All I a.1 names) :=
      h.keeps_swapIfDue.onPart (fun _ _ h => h) (fun _ _ _ h => h)
    refine (hswap stage hI).bind fun _ stage hI _ => ?_
    refine (Walk.Ensures.subject hI).bind fun subject stage hI _ => ?_
    refine (Walk.Ensures.update hI).bind fun _ stage hI _ => ?_
    exact (h.keeps_onChainAndControl _ stage hI).bind fun sample stage hI _ => .pure hI trivial

/-- Chains that take turns for a whole run keep the invariant. -/
theorem all_of_yields_run {ctl : Control} {stage stage' : Stage K (Tempering K D)}
    (hI : All I stage.subject stage.names) {report : Report (ℕ × Sample K)}
    (hrun : Rand.Yields (run ctl stage) (report, stage')) :
    All I stage'.subject stage'.names := by
  obtain ⟨inner, hcollect, hsubject, hnames⟩ := Walk.of_yields_onPart hrun
  obtain ⟨hI', -⟩ := SafeWalk.of_yields_collect (I := fun a names => All I a.1 names)
    (Q := fun _ : ℕ × Sample K => True)
    (fun stage hI => (h.keeps_advance stage hI).imp fun _ _ _ _ _ _ => trivial)
    (by simp) hI hcollect
  exact hsubject ▸ hnames ▸ hI'

/-- If a chain that starts from a tree has the invariant, so have all that start from it. -/
theorem ensures_startChains {σ : Type} {p : Problem K D} {t : Tree K}
    (hmade : ∀ {stage : Stage K σ}, names.issued ≤ stage.names.issued →
      (Chain.ofTree p t : Walk K σ _).Ensures (fun _ s => stage.names.issued ≤ s.issued) stage
        fun c stage' => I c stage'.names)
    (cold : Bool) (temperatures : List K) {stage : Stage K σ}
    (hle : names.issued ≤ stage.names.issued) :
    (startChains p t cold temperatures : Walk K σ _).Ensures
      (fun _ s => stage.names.issued ≤ s.issued) stage fun chains stage' =>
        ∀ c ∈ chains, I c stage'.names := by
  induction temperatures generalizing cold stage with
  | nil => exact .pure (Nat.le_refl _) (by simp)
  | cons temperature temperatures ih =>
    rw [startChains_cons]
    refine (hmade hle).bind fun c stage₁ hle₁ hc => ?_
    have hwarm : (if cold then pure c else Walk.onOwn c (do Chain.restart; Walk.subject) :
        Walk K σ (Chain K D)).Ensures (fun _ s => stage.names.issued ≤ s.issued) stage₁
          fun c stage' => I c stage'.names := by
      split
      · exact .pure hle₁ hc
      · refine Walk.Ensures.onOwn (J := fun c s => I c s ∧ stage.names.issued ≤ s.issued) (Q := I) ?_
          fun _ _ h => h.2
        refine ((h.toInvariant.above stage.names).keeps_restart _ ⟨hc, hle₁⟩).bind
          fun _ inner hI _ => ?_
        refine (Walk.Ensures.subject hI).imp fun d inner' hI' hd => ?_
        obtain ⟨rfl, rfl⟩ := hd
        exact hI'.1
    refine hwarm.bind fun c stage₂ hle₂ hc => ?_
    -- the names that the other chains take are only added to those of the first
    have hrest : (startChains p t false temperatures : Walk K σ _).Ensures
        (fun _ s => stage₂.names.issued ≤ s.issued) stage₂ fun cs stage' => ∀ d ∈ { c with
          temperatures := { c.temperatures with likelihood := temperature } } :: cs,
            I d stage'.names := by
      refine (ih false (Nat.le_trans hle hle₂)).imp fun cs stage₃ hle₃ hcs d hd => ?_
      rcases List.mem_cons.mp hd with rfl | hd
      · exact h.mono (h.congr hc rfl rfl) hle₃
      · exact hcs d hd
    exact (hrest.weaken fun _ _ => Nat.le_trans hle₂).bind fun cs stage₃ hle₃ hcs => .pure hle₃ hcs

end Invariant

end ScopedGrammar.Tempering
