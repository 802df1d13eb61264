import ScopedGrammar.Proofs.Grammar.Guarantees
import ScopedGrammar.Proofs.Move.Kept

/-!
# Kernels fail only recoverably

Where weights are proper, a kernel makes a derivable tree of a derivable one, or it fails in a way
that a fresh draw may avoid: a place is there to be edited, what is to be expanded can be, and a
copy that fits is put.
-/
namespace ScopedGrammar

open Exact

theorem Grammar.Derivable.drawable {g : Grammar Exact} {s : NameSupply} {x m : Tree Exact} {p : Place}
    (h : g.Derivable s x) (hpos : g.PositiveWeights) (hm : x.get? p = some m) :
    Drawable (x.variablesAbove p) s := by
  have hat := h.weighted_at hpos hm
  exact ⟨hat.wellNamed, hat.positive⟩

open ScopedGrammar.Tree

variable {g : Grammar Exact} {w : SiteWeights Exact} {s s' : NameSupply}
  {x m : Tree Exact} {p : Place}

/-- What a kernel is to ensure of a tree. -/
abbrev Grammar.Keeps (g : Grammar Exact) (s : NameSupply) (x : Tree Exact)
    (move : Sampler Exact (Tree Exact)) : Prop :=
  move.Ensures s (g.Kept x)

/-- A kernel that draws a place fails only recoverably if it does so at each place. -/
theorem Tree.ensures_of_sites {weight : Place → Tree Exact → Exact}
    (hw : ∀ p n, x.get? p = some n → (weight p n).Nonneg)
    {f : Option (Place × Tree Exact × Exact) → Sampler Exact (Tree Exact)}
    (hnone : (f none).Ensures s fun _ _ => True)
    (hsome : ∀ p m l, x.get? p = some m → (f (some (p, m, l))).Ensures s fun _ _ => True) :
    (x.drawSite weight >>= f).Ensures s fun _ _ => True := by
  have hany : (x.drawSite weight).Ensures s fun _ _ => True := by
    unfold drawSite
    split
    · exact (Sampler.Ensures.weightedChoice fun y hy => hw y.1 y.2 (mem_subnodes.mp hy)).bind
        fun site s' _ _ => .pure trivial
    · exact .pure trivial
  refine ((leads_drawSite s).ensures hany).bind fun site s' _ hsite => ?_
  obtain ⟨rfl, hget⟩ := hsite
  cases site with
  | none => exact hnone
  | some y => exact hsome y.1 y.2.1 y.2.2 (hget y rfl)

/-- Regeneration keeps trees derivable. -/
theorem Regeneration.keeps_propose (hg : g.Proper) (hplain : g.PlainNames) (hw : w.Nonneg)
    (hx : g.Derivable s x) : g.Keeps s x (propose g w x) := by
  refine (leads_propose hplain hx).ensures ?_
  refine ensures_of_sites (fun _ k _ => hw.weight k) (.throw rfl) fun p m l hm => ?_
  obtain ⟨⟨q, hq, -⟩, -⟩ := Grammar.derives_iff.mp (hx.derived_at hm).derives
  refine (Grammar.ensures_generateIn hg.positive (hx.drawable hg.positive hm)
    (.inr (List.ne_nil_of_mem hq))).bind fun r s' hle hr => ?_
  obtain ⟨x', hx'⟩ := Option.isSome_iff_exists.mp
    ((isSome_replace? x r p).trans (by rw [hm]; rfl))
  rw [hx']
  exact .pure trivial

theorem Deletion.keeps_propose (hw : w.Nonneg) (hx : g.Derivable s x) :
    g.Keeps s x (propose w x) := by
  refine (leads_propose hx).ensures ?_
  refine ensures_of_sites (fun q k _ => weight_nonneg hw q k) (.throw rfl) fun p m l hm => ?_
  exact Sampler.Ensures.uniformChoice.bind fun slot s' _ _ => .getOrFail rfl fun _ _ => trivial

/-- Copying keeps trees derivable. -/
theorem Copying.keeps_propose (hw : w.Nonneg) (hx : g.Derivable s x) :
    g.Keeps s x (propose w x) := by
  refine (leads_propose hx).ensures ?_
  refine ensures_of_sites (fun _ k _ => hw.weight k) (.throw rfl) fun p m l hm => ?_
  refine Sampler.Ensures.uniformChoice.bind fun target s' _ htarget => ?_
  obtain ⟨rfl, hmem⟩ := htarget
  refine (Sampler.Ensures.getOrFail (P := fun q s'' => s'' = s' ∧ q ∈ targets x p) rfl
    fun q hq => ⟨rfl, hmem q hq⟩).bind fun q s'' _ hq => ?_
  obtain ⟨rfl, hq⟩ := hq
  obtain ⟨n, hn, hfits⟩ := exists_target hm hq
  obtain ⟨x', -, hgraft⟩ := graftCopy_eq hx (Nat.le_refl _) hm hn hfits
  intro r s' hr
  rw [Sampler.yields_ofNamingExcept, hgraft] at hr
  obtain ⟨rfl, rfl⟩ := hr
  obtain ⟨-, -, hle, -⟩ := (hx.derived_at hm).uniquify (Nat.le_refl s''.issued)
  exact ⟨hle, fun _ _ => trivial, by simp⟩

namespace Insertion

variable {slot k : ℕ} {S : Scope Exact} {inner : Tree Exact}

theorem ensures_fillArgs (hpos : g.PositiveWeights) (hS : Grammar.Drawable S s)
    (symbols : List String) :
    (fillArgs g S slot inner k symbols).Ensures s fun _ _ => True := by
  induction symbols generalizing k s with
  | nil =>
    rw [fillArgs]
    exact .pure trivial
  | cons symbol symbols ih =>
    rw [fillArgs_cons]
    have hfirst : (if k = slot then pure (.subtree inner) else fillSymbol g S symbol :
        Sampler Exact (Arg Exact)).Ensures s fun _ _ => True := by
      unfold fillSymbol
      split
      · exact .pure trivial
      · split
        · next hnt =>
          exact (Grammar.ensures_generateIn hpos hS (.inl hnt)).bind fun t s' _ _ => .pure trivial
        · exact .pure trivial
    exact hfirst.bind fun a s' hle _ => (ih (hS.mono hle)).bind fun as s'' _ _ => .pure trivial

/-- Insertion keeps trees derivable. -/
theorem keeps_propose (hg : g.Proper) (hplain : g.PlainNames) (hw : w.Nonneg)
    (hx : g.Derivable s x) : g.Keeps s x (propose g w x) := by
  refine (leads_propose hplain hx).ensures ?_
  rw [propose_eq]
  refine ensures_of_sites (fun q k _ => weight_nonneg hw q k) (.throw rfl) fun p m l hm => ?_
  refine Sampler.Ensures.uniformChoice.bind fun r? s' _ hr => ?_
  obtain ⟨rfl, hmem⟩ := hr
  refine (Sampler.Ensures.getOrFail (P := fun r s'' => s'' = s' ∧ r ∈ replicatingRules g x p) rfl
    fun r hr => ⟨rfl, hmem r hr⟩).bind fun r s'' _ hr => ?_
  obtain ⟨rfl, hr⟩ := hr
  refine Sampler.Ensures.uniformChoice.bind fun slot? s' _ hslot => ?_
  obtain ⟨rfl, -⟩ := hslot
  refine (Sampler.Ensures.getOrFail (P := fun _ s'' => s'' = s') rfl fun _ _ => rfl).bind
    fun slot s'' _ hs => ?_
  subst hs
  have hdraw := hx.drawable hg.positive hm
  obtain ⟨-, hle, -⟩ := Grammar.kindOf_spec g r s''
  refine (Sampler.Ensures.ofNaming (P := fun kind s₁ => Grammar.Drawable (Scope.below _ kind) s₁) hle
    (hdraw.below hg.positive ((mem_replicatingRules hm).mp hr).1)).bind fun kind s₁ _ hbelow => ?_
  refine (ensures_fillArgs hg.positive hbelow r.symbols).bind fun as s₂ _ _ => ?_
  obtain ⟨x', hx'⟩ := Option.isSome_iff_exists.mp
    ((isSome_replace? x (.node r.nonterminal r.name kind (some as)) p).trans (by rw [hm]; rfl))
  rw [hx']
  exact .pure trivial

end Insertion

/-- Every kernel keeps trees derivable and fails only recoverably. -/
theorem Kernel.keeps_propose {k : Kernel Exact} (hk : k.WellWeighted) (hg : g.Proper)
    (hplain : g.PlainNames) (hw : w.Nonneg) (hx : g.Derivable s x) :
    g.Keeps s x (k.propose g w x) := by
  induction hk with
  | regeneration => exact Regeneration.keeps_propose hg hplain hw hx
  | insert => exact Insertion.keeps_propose hg hplain hw hx
  | delete => exact Deletion.keeps_propose hw hx
  | copy => exact Copying.keeps_propose hw hx
  | @mixture components hnonneg hpos _ ih =>
    have hws : ∀ v ∈ components.map (·.1), v.Nonneg := by simpa using fun v k h => hnonneg (v, k) h
    rw [propose]
    refine (Sampler.Ensures.weightedIndex hws).bind fun i s' _ hs' => ?_
    subst hs'
    cases i with
    | none => exact .throw rfl
    | some i =>
      have hi : i.val < components.length := by simpa using i.isLt
      have hget : components[i.val]? = some components[i.val] := List.getElem?_eq_getElem hi
      dsimp only
      rw [proposeNth_eq hget]
      exact ih _ (List.getElem_mem hi)

end ScopedGrammar
