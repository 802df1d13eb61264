import ScopedGrammar.Proofs.Move.Accuracy
import ScopedGrammar.Proofs.Random.Totals

/-!
# What the scores of a move add up to

Deletion and copying take names over or issue new ones, so what they come to is counted by shapes:
trees that are alike have the same shape. Over all shapes the exponentials of the scores add up to
the probability that the move succeeds, and both moves succeed for certain wherever they have
something to work on.
-/
namespace ScopedGrammar

open Exact

namespace Grammar

variable {g : Grammar Exact} {s names : NameSupply} {x t : Tree Exact}

/-- Trees that can be generated, in whatever names, have the same shape if they are alike. -/
def sameShape (g : Grammar Exact) : Setoid {t : Tree Exact // ∃ names, g.Generable names [] t} where
  r s t := s.1.alike t.1 = true
  iseqv := by
    refine ⟨fun t => ?_, fun {s t} h => ?_, fun {s t u} h h' => ?_⟩
    · exact beq_self_eq_true t.1.canonical
    · exact beq_iff_eq.mpr (beq_iff_eq.mp h).symm
    · exact beq_iff_eq.mpr ((beq_iff_eq.mp h).trans (beq_iff_eq.mp h'))

/-- The trees that can be generated, up to the names of bound variables. -/
abbrev Shape (g : Grammar Exact) : Type := Quotient g.sameShape

namespace Shape

/-- A tree of the shape. -/
noncomputable def tree (c : g.Shape) : Tree Exact := c.out.1

theorem exists_generable (c : g.Shape) : ∃ names, g.Generable names [] c.tree := c.out.2

theorem existsUnique_alike (ht : g.Generable names [] t) :
    ∃! c : g.Shape, t.alike c.tree = true := by
  let t' : {t : Tree Exact // ∃ names, g.Generable names [] t} := ⟨t, names, ht⟩
  have hiff : ∀ c : g.Shape, t.alike c.tree = true ↔ ⟦t'⟧ = c := fun c =>
    (Quotient.eq.symm.trans (by rw [Quotient.out_eq]) : g.sameShape.r t' c.out ↔ ⟦t'⟧ = c)
  exact ⟨⟦t'⟧, (hiff _).mpr rfl, fun c hc => ((hiff c).mp hc).symm⟩

end Shape

theorem Keeps.hasSum_prob {move : Sampler Exact (Tree Exact)} (h : g.Keeps s x move)
    (hx : g.Generable s [] x) :
    HasSum (fun c : g.Shape => move.prob s fun t => t.alike c.tree = true)
      (move.prob s fun _ => True) := by
  refine Sampler.hasSum_prob fun t s' ht => ?_
  obtain ⟨-, hderivable, -, hcomplete⟩ := h.of_ok ht
  exact Shape.existsUnique_alike ⟨hderivable.toDerived, hcomplete hx.complete⟩

/-- If a move is certain to succeed and scores exactly what it does, the exponentials of its scores
add up to `1`. -/
theorem Keeps.hasSum_mass {move : Sampler Exact (Tree Exact)} (h : g.Keeps s x move)
    (hx : g.Generable s [] x) (hsuccess : (move.prob s fun _ => True) = 1)
    {score : Tree Exact → Exact} (hexp : ∀ names y, g.Generable names [] y →
      Scalar.exp (score y) = real (move.prob s fun t => t.alike y = true)) :
    HasSum (fun c : g.Shape => (score c.tree).mass) 1 := by
  have hmass : ∀ c : g.Shape, (score c.tree).mass =
      move.prob s fun t => t.alike c.tree = true := by
    intro c
    obtain ⟨names, hc⟩ := c.exists_generable
    rw [mass, hexp names c.tree hc, toReal_real]
  simp only [hmass]
  exact hsuccess ▸ h.hasSum_prob hx

end Grammar

variable {g : Grammar Exact} {w : SiteWeights Exact} {s names : NameSupply} {x m : Tree Exact}
  {p : Place}

namespace Deletion

open ScopedGrammar.Tree

/-- Something is promoted at a place with an argument that can be. -/
theorem prob_site_eq_one (hm : x.get? p = some m) (hslots : promotableSlots m ≠ [])
    (s : NameSupply) : (uniformChoice (promotableSlots m) >>= fun slot =>
      Sampler.getOrFail .proposalFailed ((slot.bind m.child?).bind (x.replace? p))).prob s
        (fun _ => True) = 1 := by
  have hterm : ∀ slot ∈ promotableSlots m, (Sampler.getOrFail .proposalFailed
      (((some slot).bind m.child?).bind (x.replace? p))).prob s (fun _ => True) = 1 := by
    intro slot hslot
    obtain ⟨c, hc, -⟩ := mem_promotableSlots.mp hslot
    obtain ⟨x', hx'⟩ := Option.isSome_iff_exists.mp
      ((isSome_replace? x c p).trans (by rw [hm]; rfl))
    rw [Option.bind_some, hc, Option.bind_some, hx']
    exact (Sampler.prob_pure ..).trans (if_pos trivial)
  have hlength : ((promotableSlots m).length : ℝ) ≠ 0 := by simpa using hslots
  rw [prob_uniformChoice (Sampler.prob_throw ..), List.map_congr_left hterm]
  simp [hlength]

theorem prob_success (hw : w.Nonneg) (hm : x.get? p = some m) (hslots : promotableSlots m ≠ [])
    (s : NameSupply) : (propose w x).prob s (fun _ => True) = 1 := by
  have hweight : ∀ q k, x.get? q = some k → (siteWeight w q k).Nonneg :=
    fun q k _ => weight_nonneg hw q k
  have hpos : 0 < x.siteSum (siteWeight w) := by
    refine siteSum_pos hweight hm ?_
    rw [siteWeight_of_promotable hslots]
    exact one_pos
  refine prob_drawSite_eq_one hweight hpos (Sampler.prob_throw ..) fun q k l hk hdrawn => ?_
  refine prob_site_eq_one hk (fun hnone => ?_) s
  rw [siteWeight, hnone, if_pos List.isEmpty_nil, zero_eq] at hdrawn
  exact lt_irrefl _ hdrawn

theorem propose_of_none (hw : w.Nonneg)
    (hnone : ¬ ∃ p m, x.get? p = some m ∧ promotableSlots m ≠ []) :
    propose w x = throw .proposalFailed := by
  have hweight : ∀ q k, x.get? q = some k → (siteWeight w q k).Nonneg :=
    fun q k _ => weight_nonneg hw q k
  have hzero : x.siteSum (siteWeight w) = 0 := by
    refine sum_map_eq_zero fun ⟨q, k⟩ hk => ?_
    have hslots : promotableSlots k = [] :=
      not_not.mp fun hslots => hnone ⟨q, k, mem_subnodes.mp hk, hslots⟩
    rw [siteWeight, hslots, if_pos List.isEmpty_nil]
    rfl
  rw [propose, drawSite_eq_none hweight hzero]
  rfl

theorem run_propose_of_none (hw : w.Nonneg)
    (hnone : ¬ ∃ p m, x.get? p = some m ∧ promotableSlots m ≠ []) (words : Words) :
    ((propose w x s).runExactly words).1 = (.error .proposalFailed, s) := by
  rw [propose_of_none hw hnone]
  rfl

/-- Deletion scores exactly what it does: it turns a tree into another, by whichever site and
argument, with the exponential of the score for its probability. Over all trees these add up to `1`
if some argument can take the place of its node; otherwise deletion always fails. -/
theorem prob_delete_alike (hdist : g.DistinctSignatures) (hplain : g.PlainNames) (hw : w.Nonneg)
    (hx : g.Generable s [] x) :
    (∀ names y, g.Generable names [] y → Scalar.exp (logProbability w x y) =
      real ((propose w x).prob s fun t => t.alike y = true)) ∧
    ((∃ p m, x.get? p = some m ∧ promotableSlots m ≠ []) →
      HasSum (fun c : g.Shape => (logProbability w x c.tree).mass) 1) ∧
    ((¬ ∃ p m, x.get? p = some m ∧ promotableSlots m ≠ []) →
      ∀ words, ((propose w x s).runExactly words).1 = (.error .proposalFailed, s)) := by
  have hkeeps : g.Keeps s x (propose w x) := keeps_propose hw (hx.derivable hplain)
  have hexp : ∀ names y, g.Generable names [] y → Scalar.exp (logProbability w x y) =
      real ((propose w x).prob s fun t => t.alike y = true) := fun names y hy =>
    hkeeps.exp_eq hdist hplain (hy.derivable hplain)
      (rates_propose hdist hplain hw (hx.derivable hplain) (hy.derivable hplain))
      ⟨hx.complete, hy.complete⟩
  refine ⟨hexp, fun ⟨p, m, hm, hslots⟩ => ?_, fun hnone => run_propose_of_none hw hnone⟩
  exact hkeeps.hasSum_mass hx (prob_success hw hm hslots s) hexp

/-- Of a pair either component is kept, so there is one way to end, in the constant. -/
theorem prob_delete_alike_pairTerm :
    let g : Grammar Exact := Grammar.terms
    let x : Tree Exact := Grammar.pairTerm
    let w : SiteWeights Exact := .leaves 0
    g.DistinctSignatures ∧ g.PlainNames ∧ w.Nonneg ∧ g.Generable ⟨0⟩ [] x ∧
      Scalar.exp (logProbability w x Grammar.constantTerm) =
        real ((propose w x).prob ⟨0⟩ fun t => t.alike Grammar.constantTerm = true) ∧
      HasSum (fun c : g.Shape => (logProbability w x c.tree).mass) 1 := by
  intro g x w
  have hw : w.Nonneg := ⟨0, le_rfl, zero_eq⟩
  have hx := Grammar.generable_pairTerm ⟨0⟩
  have hslots : promotableSlots x ≠ [] := by
    have hmem : 0 ∈ promotableSlots x :=
      mem_promotableSlots.mpr ⟨Grammar.constantTerm, rfl, rfl, fun v hv => nomatch hv⟩
    exact List.ne_nil_of_mem hmem
  obtain ⟨hexp, htotal, -⟩ :=
    prob_delete_alike Grammar.distinctSignatures_terms Grammar.plainNames_terms hw hx
  exact ⟨Grammar.distinctSignatures_terms, Grammar.plainNames_terms, hw, hx,
    hexp ⟨0⟩ Grammar.constantTerm (Grammar.generable_constantTerm ⟨0⟩),
    htotal ⟨[], x, get?_nil x, hslots⟩⟩

end Deletion

namespace Copying

open ScopedGrammar.Tree

/-- Wherever a source is drawn, a copy of it is put somewhere. -/
theorem prob_site_eq_one (hx : g.Derivable s x) (hm : x.get? p = some m) {s' : NameSupply}
    (hle : s.issued ≤ s'.issued) : (uniformChoice (targets x p) >>= fun target =>
      Sampler.getOrFail .proposalFailed target >>= fun target =>
        Sampler.ofNamingExcept (x.graftCopy p target)).prob s' (fun _ => True) = 1 := by
  have hterm : ∀ target ∈ targets x p,
      (Sampler.ofNamingExcept (x.graftCopy p target) : Sampler Exact _).prob s'
        (fun _ => True) = 1 := by
    intro target htarget
    rw [targets_eq hm] at htarget
    obtain ⟨spot, hspot, rfl⟩ := List.mem_map.mp htarget
    obtain ⟨hspot, hfits⟩ := List.mem_filter.mp hspot
    obtain ⟨n, hn, heq⟩ := mem_spots.mp hspot
    obtain ⟨x', -, hgraft⟩ := graftCopy_eq hx hle hm hn (heq ▸ hfits)
    rw [Sampler.prob_eq_mean, Sampler.mean_ofNamingExcept, hgraft]
    exact if_pos trivial
  have hself : p ∈ targets x p := by
    rw [targets_eq hm]
    exact List.mem_map.mpr ⟨spotAt x p m,
      List.mem_filter.mpr ⟨mem_spots.mpr ⟨m, hm, rfl⟩, fits_self _⟩, rfl⟩
  have hlength : ((targets x p).length : ℝ) ≠ 0 := by
    simpa using List.ne_nil_of_mem hself
  rw [prob_uniformChoice_getOrFail, List.map_congr_left hterm]
  simp [hlength]

theorem prob_success (hw : w.Nonneg) (hx : g.Derivable s x)
    (hsome : ∃ p m, x.get? p = some m ∧ (w.weight m).Positive) :
    (propose w x).prob s (fun _ => True) = 1 := by
  obtain ⟨p, m, hm, hpos⟩ := hsome
  have hweight : ∀ q k, x.get? q = some k → (w.weight k).Nonneg := fun _ k _ => hw.weight k
  refine prob_drawSite_eq_one hweight (siteSum_pos hweight hm hpos.toReal_pos)
    (Sampler.prob_throw ..) fun q k l hk _ => ?_
  exact prob_site_eq_one hx hk (Nat.le_refl _)

/-- Copying scores exactly what it does, and never fails if some node has any weight: it turns a
tree into another, be it the tree itself, by whichever source and target, with the exponential of
the score for its probability, and over all trees these add up to `1`. -/
theorem prob_copy_alike (hdist : g.DistinctSignatures) (hplain : g.PlainNames) (hw : w.Nonneg)
    (hx : g.Generable s [] x) (hsome : ∃ p m, x.get? p = some m ∧ (w.weight m).Positive) :
    (∀ words, ∃ t s', ((propose w x s).runExactly words).1 = (.ok t, s')) ∧
    (∀ names y, g.Generable names [] y → Scalar.exp (logProbability w x y) =
      real ((propose w x).prob s fun t => t.alike y = true)) ∧
    HasSum (fun c : g.Shape => (logProbability w x c.tree).mass) 1 := by
  have hkeeps : g.Keeps s x (propose w x) := keeps_propose hw (hx.derivable hplain)
  have hsuccess := prob_success hw (hx.derivable hplain) hsome
  have hexp : ∀ names y, g.Generable names [] y → Scalar.exp (logProbability w x y) =
      real ((propose w x).prob s fun t => t.alike y = true) := fun names y hy =>
    hkeeps.exp_eq hdist hplain (hy.derivable hplain)
      (rates_propose hdist hplain hw (hx.derivable hplain) (hy.derivable hplain) (Nat.le_refl _))
      ⟨hx.complete, hy.complete⟩
  exact ⟨Sampler.exists_run_eq_ok hsuccess, hexp, hkeeps.hasSum_mass hx hsuccess hexp⟩

/-- Copies within a pair of constants, where leaves count twice as much as other nodes. -/
theorem prob_copy_alike_pairTerm :
    let g : Grammar Exact := Grammar.terms
    let x : Tree Exact := Grammar.pairTerm
    let w : SiteWeights Exact := .leaves (real 2)
    g.DistinctSignatures ∧ g.PlainNames ∧ w.Nonneg ∧ g.Generable ⟨0⟩ [] x ∧
      (∃ p m, x.get? p = some m ∧ (w.weight m).Positive) ∧
      Scalar.exp (logProbability w x x) =
        real ((propose w x).prob ⟨0⟩ fun t => t.alike x = true) ∧
      HasSum (fun c : g.Shape => (logProbability w x c.tree).mass) 1 := by
  intro g x w
  have hw : w.Nonneg := ⟨2, zero_le_two, rfl⟩
  have hx := Grammar.generable_pairTerm ⟨0⟩
  have hsome : ∃ p m, x.get? p = some m ∧ (w.weight m).Positive :=
    ⟨[], x, get?_nil x, 1, one_pos, rfl⟩
  obtain ⟨-, hexp, htotal⟩ :=
    prob_copy_alike Grammar.distinctSignatures_terms Grammar.plainNames_terms hw hx hsome
  exact ⟨Grammar.distinctSignatures_terms, Grammar.plainNames_terms, hw, hx, hsome,
    hexp ⟨0⟩ x hx, htotal⟩

end Copying

end ScopedGrammar
