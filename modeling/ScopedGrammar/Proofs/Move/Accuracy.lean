import ScopedGrammar.Proofs.Move.Closure

/-!
# Moves score exactly what they do

Between trees that can be generated the probability of a move is the exponential of its score. The
trees that a move comes to count as equal to the second tree if they differ from it by the names of
bound variables only, so it is the total over all of these that is scored.
-/
namespace ScopedGrammar

open Exact

namespace Grammar

variable {g : Grammar Exact} {s names : NameSupply} {x y : Tree Exact}

theorem Generable.reaches (hx : g.Generable s [] x) (hy : g.Generable names [] y)
    (hdepth : y.depth ≤ g.maxDepth) : g.Reaches x y :=
  ⟨hx.complete, hy.complete, hdepth⟩

theorem Generable.of_alike (hdist : g.DistinctSignatures) (hplain : g.PlainNames)
    (hy : g.Generable names [] y) (hx : g.Derivable s x) (h : x.alike y = true) :
    g.Generable s [] x ∧ x.Variant y := by
  have hvar := (Tree.alike_iff hdist hplain hx (hy.derivable hplain)).mp h
  exact ⟨⟨hx.toDerived, hy.complete.of_variantOver hvar.symm⟩, hvar⟩

/-- A move that keeps to derivable trees comes to a variant of a tree exactly if it comes to a tree
that is alike. -/
theorem Keeps.prob_alike {move : Sampler Exact (Tree Exact)} (h : g.Keeps s x move)
    (hdist : g.DistinctSignatures) (hplain : g.PlainNames) (hy : g.Derivable names y) :
    move.prob s (fun t => t.alike y = true) = move.prob s fun t => t.Variant y :=
  Sampler.prob_congr fun _ _ ht => Tree.alike_iff hdist hplain (h.of_ok ht).2.derivable hy

/-- A score that rates exactly how probable it is to come to a variant of a tree says how probable
it is to come to one that is alike. -/
theorem Keeps.exp_eq {move : Sampler Exact (Tree Exact)} (h : g.Keeps s x move)
    (hdist : g.DistinctSignatures) (hplain : g.PlainNames) (hy : g.Derivable names y)
    {exact : Prop} {lp : Exact} (hrates : Rates exact lp (move.prob s fun t => t.Variant y))
    (hexact : exact) : Scalar.exp lp = real (move.prob s fun t => t.alike y = true) := by
  rw [h.prob_alike hdist hplain hy, hrates.exp_eq hexact]

end Grammar

namespace Regeneration

variable {g : Grammar Exact} {w : SiteWeights Exact} {s names : NameSupply} {x y : Tree Exact}

/-- Regeneration scores exactly what it does: it turns a tree into another, be it the tree itself,
with a probability that is the exponential of the score. -/
theorem prob_propose_alike (hdist : g.DistinctSignatures) (hplain : g.PlainNames)
    (hpos : g.PositiveWeights) (hw : w.Nonneg) (hx : g.Generable s [] x)
    (hy : g.Generable names [] y) (hdepth : y.depth ≤ g.maxDepth) :
    ∃ lp, logProbability g w x y = .ok lp ∧
      Scalar.exp lp = real ((propose g w x).prob s fun t => t.alike y = true) := by
  have hg : g.Proper := ⟨hdist, hplain.noReservedNames, hpos⟩
  have hx' := hx.derivable hplain
  have hy' := hy.derivable hplain
  obtain ⟨lp, hlp, hrates⟩ := rates_propose hg hplain hw hx' hy'
  have hkeeps : g.Keeps s x (propose g w x) := keeps_propose hg hplain hw hx'
  exact ⟨lp, hlp, hkeeps.exp_eq hdist hplain hy' hrates (hx.reaches hy hdepth)⟩

/-- The function that returns its argument is regenerated as it was, also if leaves are left alone.
-/
theorem prob_propose_alike_identityTerm :
    let g : Grammar Exact := Grammar.terms
    let x : Tree Exact := Grammar.identityTerm
    let w : SiteWeights Exact := .leaves 0
    g.DistinctSignatures ∧ g.PlainNames ∧ g.PositiveWeights ∧ w.Nonneg ∧ g.Generable ⟨1⟩ [] x ∧
      x.depth ≤ g.maxDepth ∧ ∃ lp, logProbability g w x x = .ok lp ∧
        Scalar.exp lp = real ((propose g w x).prob ⟨1⟩ fun t => t.alike x = true) := by
  intro g x w
  have hw : w.Nonneg := ⟨0, le_rfl, zero_eq⟩
  have hx : g.Generable ⟨1⟩ [] x := ⟨Grammar.derived_identityTerm, Grammar.complete_identityTerm⟩
  have hdepth : x.depth ≤ g.maxDepth := by
    simp [x, g, Grammar.identityTerm, Tree.depth, Tree.heightArgs, Grammar.terms]
  exact ⟨Grammar.distinctSignatures_terms, Grammar.plainNames_terms, Grammar.positiveWeights_terms,
    hw, hx, hdepth, prob_propose_alike Grammar.distinctSignatures_terms Grammar.plainNames_terms
      Grammar.positiveWeights_terms hw hx hx hdepth⟩

end Regeneration

section Terms

variable {K : Type} [Scalar K]

/-- The constant applied to itself. -/
def Grammar.pairTerm : Tree K :=
  .node "T" "app" .plain (some [.subtree constantTerm, .subtree constantTerm])

theorem Grammar.generable_constantTerm (names : NameSupply) :
    (terms : Grammar Exact).Generable names [] constantTerm :=
  ⟨derived_constantTerm names, complete_constantTerm⟩

theorem Grammar.generable_pairTerm (names : NameSupply) :
    (terms : Grammar Exact).Generable names [] pairTerm := by
  have hsub : ∀ c, .subtree c ∈ (pairTerm : Tree Exact).args → c = constantTerm := by
    simp [pairTerm]
  have hnames : (pairTerm : Tree Exact).introducedNames = [] := rfl
  refine ⟨⟨.node ⟨"T", "app", some ["T", "T"], 1, .plain⟩ ?_ ⟨rfl, rfl⟩ fun c hc => ?_, ?_, .nil⟩,
    .node ?_ fun c hc => ?_⟩
  · simp [pairTerm, visibleRules, rulesFor_terms, allRules_terms]
  · obtain rfl := hsub c hc
    exact (derived_constantTerm names).derives
  · exact ⟨by simp [hnames], by simp [hnames], by simp [hnames]⟩
  · simp [pairTerm, constantTerm, Arg.asTree?, Arg.symbol, isNonterminal_terms]
  · obtain rfl := hsub c hc
    exact (generable_constantTerm names).complete

end Terms

namespace Insertion

variable {g : Grammar Exact} {w : SiteWeights Exact} {s names : NameSupply} {x y : Tree Exact}

/-- Insertion scores exactly what it does: whichever site, rule and slot it draws and whatever it
generates beside the slot, all that turns a tree into another adds up to the exponential of the
score. -/
theorem prob_insert_alike (hdist : g.DistinctSignatures) (hplain : g.PlainNames)
    (hpos : g.PositiveWeights) (hw : w.Nonneg) (hx : g.Generable s [] x)
    (hy : g.Generable names [] y) (hdepth : y.depth ≤ g.maxDepth) :
    ∃ lp, logProbability g w x y = .ok lp ∧
      Scalar.exp lp = real ((propose g w x).prob s fun t => t.alike y = true) := by
  have hg : g.Proper := ⟨hdist, hplain.noReservedNames, hpos⟩
  have hx' := hx.derivable hplain
  have hy' := hy.derivable hplain
  obtain ⟨lp, hlp, hrates⟩ := rates_propose hg hplain hw hx' hy'
  have hkeeps : g.Keeps s x (propose g w x) := keeps_propose hg hplain hw hx'
  exact ⟨lp, hlp, hkeeps.exp_eq hdist hplain hy' hrates (hx.reaches hy hdepth)⟩

/-- The constant becomes its application to itself by taking either place of it. -/
theorem prob_insert_alike_pairTerm :
    let g : Grammar Exact := Grammar.terms
    let x : Tree Exact := Grammar.constantTerm
    let y : Tree Exact := Grammar.pairTerm
    let w : SiteWeights Exact := .leaves 1
    g.DistinctSignatures ∧ g.PlainNames ∧ g.PositiveWeights ∧ w.Nonneg ∧ g.Generable ⟨0⟩ [] x ∧
      g.Generable ⟨0⟩ [] y ∧ y.depth ≤ g.maxDepth ∧ ∃ lp, logProbability g w x y = .ok lp ∧
        Scalar.exp lp = real ((propose g w x).prob ⟨0⟩ fun t => t.alike y = true) := by
  intro g x y w
  have hw : w.Nonneg := ⟨1, zero_le_one, rfl⟩
  have hdepth : y.depth ≤ g.maxDepth := by
    simp [y, g, Grammar.pairTerm, Grammar.constantTerm, Tree.depth, Tree.heightArgs, Grammar.terms]
  have hx := Grammar.generable_constantTerm ⟨0⟩
  have hy := Grammar.generable_pairTerm ⟨0⟩
  exact ⟨Grammar.distinctSignatures_terms, Grammar.plainNames_terms, Grammar.positiveWeights_terms,
    hw, hx, hy, hdepth, prob_insert_alike Grammar.distinctSignatures_terms
      Grammar.plainNames_terms Grammar.positiveWeights_terms hw hx hy hdepth⟩

end Insertion

end ScopedGrammar
