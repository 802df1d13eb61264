import ScopedGrammar.Proofs.Grammar.Distribution
import ScopedGrammar.Proofs.Random.Ensures

/-!
# Generation fails only recoverably

If the weights are positive, a nonterminal that something can expand is expanded, or generation
gives up because the tree grows too deep or nothing is left to draw. Below each node the scope keeps
to variables of positive weight, so this holds on every level.
-/
namespace ScopedGrammar.Grammar

open Exact

variable {g : Grammar Exact} {S : Scope Exact} {nt : String} {s : NameSupply} {r : Rule Exact}

/-- Something visible can expand the symbol, or it is a nonterminal at least. -/
def Expandable (g : Grammar Exact) (S : Scope Exact) (nt : String) : Prop :=
  g.isNonterminal nt = true ∨ g.visibleRules nt S ≠ []

/-- A scope of which variables may be drawn: well named and of positive weights. -/
structure Drawable (S : Scope Exact) (s : NameSupply) : Prop where
  wellNamed : S.WellNamed s
  positive : ∀ v ∈ S, v.weight.Positive

theorem Drawable.mono {s' : NameSupply} (h : Drawable S s) (hle : s.issued ≤ s'.issued) :
    Drawable S s' :=
  ⟨h.wellNamed.mono hle, h.positive⟩

theorem Drawable.below (h : Drawable S s) (hpos : g.PositiveWeights) (hr : r ∈ g.visibleRules nt S) :
    Drawable (S.below (g.kindOf r s).1) (g.kindOf r s).2 := by
  obtain ⟨hmakes, -, -⟩ := kindOf_spec g r s
  obtain ⟨-, hwell⟩ := kindOf_fresh g r h.wellNamed
  refine ⟨hwell, fun v hv => ?_⟩
  rw [Scope.below_eq, List.mem_append, Option.mem_toList] at hv
  rcases hv with hv | hv
  · exact h.positive v hv
  · exact hmakes.positive_introduced hr hpos h.wellNamed.isVariableUse hv

theorem ensures_sampleRule (hpos : g.PositiveWeights) (hS : Drawable S s) (hnt : g.Expandable S nt) :
    (g.sampleRule nt S).Ensures s fun r s' => s' = s ∧ r ∈ g.visibleRules nt S := by
  have hknown : ¬ ((g.visibleRules nt S).isEmpty && !g.isNonterminal nt) = true := by
    rcases hnt with hnt | hnt
    · simp [hnt]
    · simp [hnt]
  have hdraw : g.sampleRule nt S = weightedChoice (·.weight) (g.visibleRules nt S) >>=
      Sampler.getOrFail .exhausted := by
    simp only [sampleRule, hknown]
    rfl
  rw [hdraw]
  refine (Sampler.Ensures.weightedChoice fun q hq =>
    (hpos.visible hS.positive q hq).nonneg).bind fun q s' _ hq => ?_
  obtain ⟨rfl, hmem⟩ := hq
  exact .getOrFail rfl fun a ha => ⟨rfl, hmem a ha⟩

theorem ensures_expandArgs {levels : ℕ}
    (ih : ∀ {S : Scope Exact} {nt : String} {s : NameSupply}, Drawable S s → g.Expandable S nt →
      (g.expandTraced levels S nt).Ensures s fun _ _ => True)
    (hS : Drawable S s) (symbols : List String) :
    (expandTraced.expandArgsTraced g (g.expandTraced levels) S symbols).Ensures s
      fun _ _ => True := by
  induction symbols generalizing s with
  | nil => exact .pure trivial
  | cons symbol symbols ihs =>
    unfold expandTraced.expandArgsTraced
    split
    · next hnt =>
      refine (ih hS (.inl hnt)).bind fun x s' hle _ => ?_
      exact (ihs (hS.mono hle)).bind fun y s'' _ _ => .pure trivial
    · exact (ihs hS).bind fun y s' _ _ => .pure trivial

/-- Expansion fails only recoverably. -/
theorem ensures_expandTraced (hpos : g.PositiveWeights) {levels : ℕ} (hS : Drawable S s)
    (hnt : g.Expandable S nt) : (g.expandTraced levels S nt).Ensures s fun _ _ => True := by
  induction levels generalizing S nt s with
  | zero => exact .throw rfl
  | succ levels ih =>
    rw [expandTraced_succ]
    refine (ensures_sampleRule hpos hS hnt).bind fun r s' _ hr => ?_
    obtain ⟨rfl, hr⟩ := hr
    have hbelow := hS.below hpos hr
    obtain ⟨-, hle, -⟩ := kindOf_spec g r s'
    unfold makeNode
    refine (Sampler.Ensures.ofNaming (P := fun kind s'' => Drawable (S.below kind) s'') hle
      hbelow).bind fun kind s'' _ hkind => ?_
    cases r.expansion with
    | none => exact .pure trivial
    | some symbols =>
      exact (ensures_expandArgs ih hkind symbols).bind fun x s' _ _ => .pure trivial

/-- Generation comes to a tree that is as it should be, or fails recoverably. -/
theorem ensures_generateIn (hpos : g.PositiveWeights) (hS : Drawable S s)
    (hnt : g.Expandable S nt) : (g.generateIn S nt).Ensures s fun t s' =>
      t.nonterminal = nt ∧ g.Complete t ∧ t.introducedNames = s.taken s' ∧ g.Derived s' S t := by
  have hany : (g.generateIn S nt).Ensures s fun _ _ => True := by
    rw [generateIn_eq_traced]
    exact (ensures_expandTraced hpos hS hnt).bind fun x s' _ _ => .pure trivial
  refine hany.imp fun t s' ht _ _ => ?_
  obtain ⟨rules, hexp⟩ := of_yields_generateIn ht
  exact ⟨hexp.nonterminal_eq, hexp.complete, hexp.introducedNames_eq, hexp.derived hS.wellNamed⟩

end ScopedGrammar.Grammar
