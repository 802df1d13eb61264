import ScopedGrammar.Proofs.Grammar.Plain
import ScopedGrammar.Proofs.Random.Leads

/-!
# What generation leads to

Whatever the weights of a grammar are, what it generates is a derived tree for the nonterminal asked
for, and a generation that fails takes no name back. No draw has to be possible for that, so nothing
is asked of the grammar.
-/
namespace ScopedGrammar.Grammar

variable {K : Type} [Scalar K] {g : Grammar K} {S : Scope K} {nt : String} {s : NameSupply}

theorem leads_sampleRule : (g.sampleRule nt S).Leads s fun _ _ => True := by
  unfold sampleRule
  dsimp only
  split
  · exact (Sampler.Leads.throw (P := fun _ _ => False)).bind fun _ _ _ hno => hno.elim
  · exact Sampler.Leads.weightedChoice.bind fun r s' _ _ => .getOrFail fun _ _ => trivial

theorem leads_expandArgs {levels : ℕ}
    (ih : ∀ {S : Scope K} {nt : String} {s : NameSupply},
      (g.expandTraced levels S nt).Leads s fun _ _ => True) (symbols : List String) :
    (expandTraced.expandArgsTraced g (g.expandTraced levels) S symbols).Leads s
      fun _ _ => True := by
  induction symbols generalizing s with
  | nil => exact .pure trivial
  | cons symbol symbols ihs =>
    unfold expandTraced.expandArgsTraced
    split
    · exact ih.bind fun x s' _ _ => ihs.bind fun y s'' _ _ => .pure trivial
    · exact ihs.bind fun y s' _ _ => .pure trivial

theorem leads_expandTraced (levels : ℕ) : (g.expandTraced levels S nt).Leads s fun _ _ => True := by
  induction levels generalizing S nt s with
  | zero => exact .throw
  | succ levels ih =>
    rw [expandTraced_succ]
    refine leads_sampleRule.bind fun r s' _ _ => ?_
    obtain ⟨-, hle, -⟩ := kindOf_spec g r s'
    unfold makeNode
    refine (Sampler.Leads.ofNaming (P := fun _ _ => True) hle trivial).bind fun kind s'' _ _ => ?_
    cases r.expansion with
    | none => exact .pure trivial
    | some symbols => exact (leads_expandArgs ih symbols).bind fun x s' _ _ => .pure trivial

/-- Generation leads to a tree that is as it should be. -/
theorem leads_generateIn (hS : S.WellNamed s) : (g.generateIn S nt).Leads s fun t s' =>
    t.nonterminal = nt ∧ g.Complete t ∧ t.introducedNames = s.taken s' ∧ g.Derived s' S t := by
  have hany : (g.generateIn S nt).Leads s fun _ _ => True := by
    rw [generateIn_eq_traced]
    exact (leads_expandTraced _).bind fun x s' _ _ => .pure trivial
  refine hany.imp fun t s' ht _ _ => ?_
  obtain ⟨rules, hexp⟩ := of_yields_generateIn ht
  exact ⟨hexp.nonterminal_eq, hexp.complete, hexp.introducedNames_eq, hexp.derived hS⟩

/-- Retrying leads to a derivable tree. -/
theorem leads_generateRetrying (hplain : g.PlainNames) (attempts : ℕ) :
    (g.generateRetrying nt attempts).Leads s fun t s' => g.Derivable s' t ∧ t.nonterminal = nt := by
  have hgenerate : ∀ s : NameSupply, (g.generate nt).Leads s fun t s' =>
      g.Derivable s' t ∧ t.nonterminal = nt := fun s =>
    (leads_generateIn .nil).imp fun t s' _ _ ⟨hroot, hcomplete, _, hderived⟩ =>
      ⟨⟨hderived, hderived.nonemptyTerminals hplain (by simp) hcomplete⟩, hroot⟩
  fun_induction generateRetrying g nt attempts generalizing s with
  | case1 => exact hgenerate s
  | case2 => exact hgenerate s
  | case3 attempts ih =>
    refine (hgenerate s).tryCatch fun e s' _ => ?_
    split
    · exact ih
    · exact .throw

end ScopedGrammar.Grammar
