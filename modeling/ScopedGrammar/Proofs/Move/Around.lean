import ScopedGrammar.Proofs.Move.Filling
import ScopedGrammar.Proofs.Move.Rating
import ScopedGrammar.Proofs.Tree.Shifted

/-!
# Putting a node around a subtree

A node made by a rule and put around a subtree comes to a variant of another tree only if the rule
is the counterpart of that of the tree's node, and the slot holds what was there before. Then the
probability is that of generating what stands beside the slot.
-/
namespace ScopedGrammar.Insertion

open Exact ScopedGrammar.Tree

section Sampler

variable {K : Type}

theorem mem_replicatingRules {g : Grammar K} {t n : Tree K} {p : Place} {r : Rule K}
    (hn : t.get? p = some n) : r ∈ replicatingRules g t p ↔
      r ∈ g.visibleRules n.nonterminal (t.variablesAbove p) ∧ r.replicatingSlots ≠ [] := by
  rw [replicatingRules, hn]
  simp [Scope.above]

theorem expansion_eq_some {r : Rule K} {slot : ℕ} (h : slot ∈ r.replicatingSlots) :
    r.expansion = some r.symbols := by
  rw [Rule.mem_replicatingSlots] at h
  unfold Rule.symbols at h ⊢
  cases hexp : r.expansion with
  | none => simp [hexp] at h
  | some symbols => rfl

variable [Scalar K]

/-- Put a node made by a rule around a subtree that goes to one of its slots. -/
def around (g : Grammar K) (t : Tree K) (p : Place) (inner : Tree K) (r : Rule K) (slot : ℕ) :
    Sampler K (Tree K) := do
  let kind ← Sampler.ofNaming (g.kindOf r)
  let as ← fillArgs g (Scope.below (.above t p) kind) slot inner 0 r.symbols
  Sampler.getOrFail (.grammar (.invalidPlace p))
    (t.replace? p (.node r.nonterminal r.name kind (some as)))

/-- Put a node around the subtree at a place that was drawn. -/
def atSite (g : Grammar K) (t : Tree K) (p : Place) (inner : Tree K) : Sampler K (Tree K) :=
  uniformChoice (replicatingRules g t p) >>= fun r =>
    Sampler.getOrFail .proposalFailed r >>= fun r =>
      uniformChoice r.replicatingSlots >>= fun slot =>
        Sampler.getOrFail .proposalFailed slot >>= around g t p inner r

theorem propose_eq (g : Grammar K) (w : SiteWeights K) (t : Tree K) :
    propose g w t = t.drawSite (siteWeight g w t) >>= fun
      | none => throw .proposalFailed
      | some (p, inner, _) => atSite g t p inner := rfl

end Sampler

section Filled

variable {K : Type} {g : Grammar K} {s names : NameSupply} {x y m n : Tree K} {p : Place}
  {r : Rule K} {slot : ℕ}

theorem isInstance_of_filled {kind : NodeKind K} {S : Scope K} {as : List (Arg K)}
    {s' : NameSupply} (hmakes : g.Makes r kind) (hslot : slot ∈ r.replicatingSlots)
    (h : Filled g S slot m 0 r.symbols s as s') :
    g.IsInstance r (.node r.nonterminal r.name kind (some as)) := by
  refine ⟨?_, hmakes⟩
  rw [signature_node, Option.map_some, h.symbols_eq, ← expansion_eq_some hslot]
  rfl

theorem Filled.child?_slot {S : Scope K} {as : List (Arg K)} {s' : NameSupply}
    (h : Filled g S slot m 0 r.symbols s as s') (hslot : slot ∈ r.replicatingSlots)
    (nt name : String) (kind : NodeKind K) : (Tree.node nt name kind (some as)).child? slot = some m := by
  rw [Rule.mem_replicatingSlots, ← h.symbols_eq, List.getElem?_map] at hslot
  obtain ⟨a, ha, -⟩ := Option.map_eq_some_iff.mp hslot
  rw [child?_eq_some, args_node, Option.getD_some, ha]
  exact congrArg some (h.slot_eq slot a ha (Nat.zero_add slot))

/-- Arguments that correspond to others have the subtree correspond to what is at the slot. -/
theorem Filled.variantOver_slot {S : Scope K} {k : ℕ} {symbols : List String}
    {as bs : List (Arg K)} {s' : NameSupply} (h : Filled g S slot m k symbols s as s')
    {M : Matching} (hall : List.Forall₂ (Arg.VariantOver M) as bs) {j : ℕ} (hj : k + j = slot)
    {a : Arg K} (ha : bs[j]? = some a) : Arg.VariantOver M (.subtree m) a := by
  have hrel := forall₂_iff_getElem?.mp hall j
  rw [ha] at hrel
  cases hget : as[j]? with
  | none =>
    rw [hget] at hrel
    cases hrel
  | some b =>
    rw [hget] at hrel
    obtain rfl := h.slot_eq j b hget hj
    cases hrel with
    | some hrel => exact hrel

theorem nonterminal_eq_slot (hr : r.nonterminal = m.nonterminal)
    (hslot : slot ∈ r.replicatingSlots) :
    ∀ j symbol, r.symbols[j]? = some symbol → 0 + j = slot → m.nonterminal = symbol := by
  intro j symbol hj hk
  rw [Rule.mem_replicatingSlots, ← hk, Nat.zero_add, hj] at hslot
  rw [← hr, Option.some.inj hslot]

/-- What fills the slot corresponds to the argument there if it is alike to it. -/
theorem alikeAt_slot_iff (hdist : g.DistinctSignatures) (hplain : g.PlainNames) (hx : g.Derivable s x)
    (hy : g.Derivable names y) (hagree : AgreeOff Eq x y p) (hm : x.get? p = some m)
    (hn : y.get? p = some n) {kind : NodeKind K}
    (hrel : Option.Rel Rule.SameUpToName kind.introduced? n.kind.introduced?)
    (hnew : ∀ v, kind.introduced? = some v → v.name ∉ (x.variablesAbove p).map (·.name))
    {a : Arg K} (ha : n.args[slot]? = some a) :
    x.alikeAt p y (p ++ [slot]) = true ↔
      Arg.VariantOver ((Matching.along Eq x y p).below kind n.kind) (.subtree m) a := by
  cases a with
  | terminal z =>
    have hnone : y.get? (p ++ [slot]) = none := by
      simp [get?_append, hn, child?, ha, Arg.asTree?]
    refine iff_of_false (fun h => ?_) fun h => ?_
    · simp [alikeAt, canonicalAt, sameText, hnone] at h
    · cases h
  | subtree d =>
    have hvar := hagree.headsAlong.alikeAt_argument_iff hdist hplain hx hy hm hn
      (child?_eq_some.mpr ha) (N := (Matching.along Eq x y p).below kind n.kind) fun z hz u => ?_
    · rw [hvar]
      refine ⟨.subtree, fun h => ?_⟩
      cases h with
      | subtree h => exact h
    · rw [introduced?_eq]
      unfold Matching.below
      revert hrel hnew
      generalize kind.introduced? = v?
      generalize n.kind.introduced? = u?
      rintro (⟨hvu⟩ | _) hnew
      · next v w =>
        have hne : z ≠ v.name := fun heq => hnew v rfl (heq ▸ hz)
        simp [Matching.bind, hne]
      · simp

end Filled

variable {g : Grammar Exact} {s names : NameSupply} {x y m n : Tree Exact} {p : Place}
  {r q : Rule Exact} {slot : ℕ}

/-- A new node comes to a variant of a tree if the tree agrees off the place and the node
corresponds to the one there. -/
theorem prob_around (hm : x.get? p = some m) (hr : r.nonterminal = m.nonterminal) (s : NameSupply) :
    (around g x p m r slot).prob s (fun t => t.Variant y) =
      (fillArgs g (Scope.below (x.variablesAbove p) (g.kindOf r s).1) slot m 0 r.symbols).prob
        (g.kindOf r s).2 fun as => AgreeOff Eq x y p ∧ ∃ n, y.get? p = some n ∧
          (Tree.node r.nonterminal r.name (g.kindOf r s).1 (some as)).VariantOver
            (Matching.along Eq x y p) n := by
  rw [around, Sampler.prob_bind, Sampler.mean_ofNaming]
  exact prob_replace _ hm fun as s' _ => hr

theorem prob_around_eq_zero (hm : x.get? p = some m) (hr : r.nonterminal = m.nonterminal)
    (s : NameSupply) (hno : ¬ AgreeOff Eq x y p ∨
      ∀ n, y.get? p = some n → m.nonterminal ≠ n.nonterminal) :
    (around g x p m r slot).prob s (fun t => t.Variant y) = 0 := by
  rw [prob_around hm hr]
  refine Sampler.prob_eq_zero fun as s' _ ⟨hagree, n, hn, hvar⟩ => ?_
  rcases hno with hno | hno
  · exact hno hagree
  · exact hno n hn (hr.symm.trans hvar.nonterminal_eq)

/-- The probability that a node made by the counterpart of the rule of a tree's node, around the
subtree at one of its slots, comes to a variant of the tree. -/
theorem prob_around_counterpart (hg : g.Proper) (hplain : g.PlainNames) (hx : g.Derivable s x)
    (hy : g.Derivable names y) (hagree : AgreeOff Eq x y p) (hm : x.get? p = some m)
    (hn : y.get? p = some n) (hr : r.nonterminal = m.nonterminal)
    (hsymbols : r.symbols = n.args.map Arg.symbol)
    (hhead : ∀ kind args?, g.Makes r kind → args?.isSome = n.args?.isSome →
      HeadOver (Matching.along Eq x y p) (.node r.nonterminal r.name kind args?) n)
    (hslot : slot ∈ r.replicatingSlots) :
    (around g x p m r slot).prob s (fun t => t.Variant y) =
      if x.alikeAt p y (p ++ [slot]) then
        ((siblings slot 0 n.args).map
          (g.argChance (g.maxDepth + 1) (Scope.below (y.variablesAbove p) n.kind))).prod
      else 0 := by
  have hdm := hx.derived_at hm
  have hny := hy.weighted_at hg.positive hn
  have hal := hagree.aligned hx hy
  obtain ⟨a, ha⟩ : ∃ a, n.args[slot]? = some a := by
    rw [Rule.mem_replicatingSlots, hsymbols, List.getElem?_map] at hslot
    obtain ⟨a, ha, -⟩ := Option.map_eq_some_iff.mp hslot
    exact ⟨a, ha⟩
  have hsome : n.args?.isSome = true := by
    unfold args at ha
    cases hargs : n.args? with
    | none => simp [hargs] at ha
    | some as => rfl
  rw [prob_around hm hr]
  obtain ⟨hmakes, hle, -⟩ := Grammar.kindOf_spec g r s
  obtain ⟨hnew, hwell⟩ := Grammar.kindOf_fresh g r hdm.wellNamed
  -- which name the new node introduces does not matter, only that it is new
  generalize g.kindOf r s = step at hmakes hle hnew hwell
  obtain ⟨kind, s₁⟩ := step
  have hroot := fun as => hhead kind (some as) hmakes hsome.symm
  have hbelow := hal.below (hroot []).introduced? hnew fun v hv =>
    hny.fresh.disjoint _ (mem_introducedNames_of_introduced? hv)
  have hargs : ∀ c, .subtree c ∈ n.args →
      g.Weighted names (Scope.below (y.variablesAbove p) n.kind) c :=
    fun c hc => hny.child hg.positive hc
  have halike := alikeAt_slot_iff hg.distinct hplain hx hy hagree hm hn (hroot []).introduced? hnew ha
  have hevent : ∀ as, (AgreeOff Eq x y p ∧ ∃ n, y.get? p = some n ∧
      (Tree.node r.nonterminal r.name kind (some as)).VariantOver (Matching.along Eq x y p) n) ↔
        List.Forall₂ (Arg.VariantOver ((Matching.along Eq x y p).below kind n.kind)) as n.args := by
    intro as
    rw [hn]
    simp only [hagree, Option.some.injEq, exists_eq_left', true_and]
    rw [variantOver_iff]
    exact and_iff_right (hroot as)
  rw [Sampler.prob_congr fun as s' _ => hevent as, hsymbols]
  by_cases hin : x.alikeAt p y (p ++ [slot]) = true
  · rw [if_pos hin]
    refine prob_fillArgs hg hbelow hargs (fun j b hb hj => ?_) hwell
    obtain rfl : b = a := by
      rw [← hj, Nat.zero_add, hb] at ha
      exact Option.some.inj ha
    exact halike.mp hin
  · rw [if_neg hin]
    refine Sampler.prob_eq_zero fun as s' has hall => hin (halike.mpr ?_)
    have hfilled := filled_of_yields hwell hdm.fresh.nodup
      (fun z hz => (hdm.fresh.issued z hz).mono hle)
      (hsymbols ▸ nonterminal_eq_slot hr hslot) has
    exact hfilled.variantOver_slot hall (Nat.zero_add slot) ha

/-- A node made by a rule does not come to a variant of the tree if none that it makes around the
subtree corresponds to the node there. -/
theorem prob_around_other (hx : g.Derivable s x) (hm : x.get? p = some m) (hn : y.get? p = some n)
    (hq : q ∈ g.visibleRules m.nonterminal (x.variablesAbove p))
    (hno : ∀ u, g.IsInstance q u → u.child? slot = some m →
      ¬ u.VariantOver (Matching.along Eq x y p) n)
    (hslot : slot ∈ q.replicatingSlots) :
    (around g x p m q slot).prob s (fun t => t.Variant y) = 0 := by
  have hdm := hx.derived_at hm
  have hnt := Grammar.nonterminal_of_mem_visibleRules hq
  obtain ⟨hmakes, hle, -⟩ := Grammar.kindOf_spec g q s
  obtain ⟨-, hwell⟩ := Grammar.kindOf_fresh g q hdm.wellNamed
  rw [prob_around hm hnt]
  refine Sampler.prob_eq_zero fun as s' has ⟨_, n', hn', hvar⟩ => ?_
  obtain rfl : n = n' := Option.some.inj (hn.symm.trans hn')
  have hfilled := filled_of_yields hwell hdm.fresh.nodup
    (fun z hz => (hdm.fresh.issued z hz).mono hle) (nonterminal_eq_slot hnt hslot) has
  exact hno _ (isInstance_of_filled hmakes hslot hfilled) (hfilled.child?_slot hslot _ _ _) hvar

end ScopedGrammar.Insertion
