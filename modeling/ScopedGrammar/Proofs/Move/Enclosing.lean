import ScopedGrammar.Proofs.Move.Kept

/-!
# Trees that enclose a subtree of another one

Insertion puts a node around a subtree, and deletion takes one away. What either makes of a tree
says the same of the two trees: the larger one encloses a subtree of the smaller one. Insertion asks
whether a rule that is visible in the smaller tree makes the node with the old subtree at one of its
slots. Deletion asks whether an argument of the node expands the same nonterminal, does not use the
variable of the node, and is alike to the old subtree. Both come to the same.
-/
namespace ScopedGrammar

variable {K : Type} {g : Grammar K} {s s' names : NameSupply} {x y t m n : Tree K} {p : Place}
  {q r : Rule K} {slot : ℕ}

open ScopedGrammar.Tree

namespace Tree

/-- The second tree is the first one with a node put around the subtree at a place. The node has the
subtree for its argument at a slot, where it can be promoted again. -/
structure Encloses (x y : Tree K) (p : Place) (slot : ℕ) : Prop where
  agree : AgreeOff Eq x y p
  promotable : ∃ n, y.get? p = some n ∧ slot ∈ Deletion.promotableSlots n
  alike : x.alikeAt p y (p ++ [slot]) = true

theorem agreeOff_comm : AgreeOff Eq x y p ↔ AgreeOff Eq y x p := by
  have hflip : Matching.flip Eq = Eq := by
    funext a b
    exact propext eq_comm
  exact ⟨fun h => hflip ▸ h.symm, fun h => hflip ▸ h.symm⟩

/-- An argument that is alike to the subtree of another tree at the place of the node can be
promoted exactly if the node could have been put around that subtree: then both expand the same
nonterminal. It never uses the variable of the node, since the subtree does not. -/
theorem mem_promotableSlots_iff (hdist : g.DistinctSignatures) (hplain : g.PlainNames)
    (hx : g.Derivable s x) (hy : g.Derivable names y) (hagree : AgreeOff Eq x y p)
    (hm : x.get? p = some m) (hn : y.get? p = some n)
    (halike : x.alikeAt p y (p ++ [slot]) = true) : slot ∈ Deletion.promotableSlots n ↔
      m.nonterminal = n.nonterminal ∧ (n.args.map Arg.symbol)[slot]? = some n.nonterminal := by
  obtain ⟨d, hd⟩ : ∃ d, n.child? slot = some d := by
    cases hd : n.child? slot with
    | some d => exact ⟨d, rfl⟩
    | none =>
      have hnone : y.canonicalAt (p ++ [slot]) = none := by
        simp [canonicalAt, get?_append, hn, hd]
      rw [alikeAt, hnone] at halike
      cases hx : x.canonicalAt p <;> simp [hx, sameText] at halike
  have hvar := (hagree.headsAlong.alikeAt_argument_iff hdist hplain hx hy hm hn hd
    (N := fun a b => (∀ w, n.introduced? = some w → b ≠ w.name) ∧ Matching.along Eq x y p a b)
      fun _ _ _ => Iff.rfl).mp halike
  have hsymbol : (n.args.map Arg.symbol)[slot]? = some d.nonterminal := by
    rw [List.getElem?_map, child?_eq_some.mp hd]
    rfl
  rw [Deletion.mem_promotableSlots, hsymbol]
  constructor
  · rintro ⟨c, hc, hnt, -⟩
    obtain rfl : d = c := Option.some.inj (hd.symm.trans hc)
    exact ⟨hvar.nonterminal_eq.trans hnt, congrArg some hnt⟩
  · rintro ⟨-, hnt⟩
    refine ⟨d, hd, Option.some.inj hnt, fun v hv hfree => ?_⟩
    obtain ⟨z, -, hz⟩ := hvar.symm.exists_freeUse hfree
    exact hz.1 v hv rfl

/-- The node that encloses a subtree can be promoted to it where the subtree is alike. -/
theorem encloses_iff (hn : y.get? p = some n) : x.Encloses y p slot ↔
    AgreeOff Eq x y p ∧ slot ∈ Deletion.matchingSlots y x n p := by
  rw [Deletion.matchingSlots, List.mem_filter, alikeAt_comm]
  constructor
  · rintro ⟨hagree, ⟨n', hn', hslot⟩, halike⟩
    obtain rfl : n = n' := Option.some.inj (hn.symm.trans hn')
    exact ⟨hagree, hslot, halike⟩
  · rintro ⟨hagree, hslot, halike⟩
    exact ⟨hagree, ⟨n, hn, hslot⟩, halike⟩

theorem Encloses.nonterminal_eq (hdist : g.DistinctSignatures) (hplain : g.PlainNames)
    (hx : g.Derivable s x) (hy : g.Derivable names y) (h : x.Encloses y p slot)
    (hm : x.get? p = some m) (hn : y.get? p = some n) : m.nonterminal = n.nonterminal := by
  obtain ⟨n', hn', hslot⟩ := h.promotable
  obtain rfl : n = n' := Option.some.inj (hn.symm.trans hn')
  exact ((mem_promotableSlots_iff hdist hplain hx hy h.agree hm hn h.alike).mp hslot).1

/-- A tree that encloses a subtree of another is no variant of it: it has more nodes. -/
theorem Encloses.not_variant (hdist : g.DistinctSignatures) (hplain : g.PlainNames)
    (hx : g.Derivable s x) (hy : g.Derivable names y) (h : x.Encloses y p slot) :
    ¬ x.Variant y := by
  intro hvar
  obtain ⟨n, hn, hslot⟩ := h.promotable
  obtain ⟨d, hd, -, hfree⟩ := Deletion.mem_promotableSlots.mp hslot
  obtain ⟨⟨m, hm⟩, -⟩ := h.agree.headsAlong.exists_get?
  have hback := (agreeOff_comm.mp h.agree).headsAlong
  have hdm := (hback.argument_alikeAt_iff hdist hplain hy hx hn hm hd hfree).mp
    (by rw [alikeAt_comm]; exact h.alike)
  obtain ⟨-, n', hn', hmn⟩ := VariantOver.at_place hvar hm
  obtain rfl : n = n' := Option.some.inj (hn.symm.trans hn')
  have hlt := countNodes_lt_of_child? hd
  rw [hdm.countNodes_eq, hmn.countNodes_eq] at hlt
  exact Nat.lt_irrefl _ hlt

end Tree

namespace Insertion

/-- Where trees agree off a place, the second one encloses the subtree of the first one at the slots
of the rule of its node that hold it, if both have the same nonterminal there. -/
theorem encloses_iff (hdist : g.DistinctSignatures) (hplain : g.PlainNames)
    (hx : g.Derivable s x) (hy : g.Derivable names y) (hagree : AgreeOff Eq x y p)
    (hm : x.get? p = some m) (hn : y.get? p = some n) (hinst : g.IsInstance r n) :
    x.Encloses y p slot ↔ m.nonterminal = n.nonterminal ∧ slot ∈ r.replicatingSlots ∧
      x.alikeAt p y (p ++ [slot]) = true := by
  have hiff : x.alikeAt p y (p ++ [slot]) = true → (slot ∈ Deletion.promotableSlots n ↔
      m.nonterminal = n.nonterminal ∧ (n.args.map Arg.symbol)[slot]? = some n.nonterminal) :=
    mem_promotableSlots_iff hdist hplain hx hy hagree hm hn
  rw [Rule.mem_replicatingSlots, hinst.nonterminal_eq, ← hinst.symbols_eq]
  constructor
  · rintro ⟨-, ⟨n', hn', hslot⟩, halike⟩
    obtain rfl : n = n' := Option.some.inj (hn.symm.trans hn')
    obtain ⟨hnt, hsymbol⟩ := (hiff halike).mp hslot
    exact ⟨hnt, hsymbol, halike⟩
  · rintro ⟨hnt, hsymbol, halike⟩
    exact ⟨hagree, ⟨n, hn, (hiff halike).mpr ⟨hnt, hsymbol⟩⟩, halike⟩

/-- The first tree has a rule to put around a subtree that the second one encloses. -/
theorem replicatingRules_ne_nil (hdist : g.DistinctSignatures) (hplain : g.PlainNames)
    (hx : g.Derivable s x) (hy : g.Derivable names y) (h : x.Encloses y p slot) :
    replicatingRules g x p ≠ [] := by
  obtain ⟨⟨m, hm⟩, n, hn⟩ := h.agree.headsAlong.exists_get?
  have hdm := hx.derived_at hm
  have hdn := hy.derived_at hn
  obtain ⟨r', hr', hinst, -⟩ := hdn.exists_rule hdist hplain.noReservedNames
  obtain ⟨r, hr, hsame, -, -⟩ := Grammar.exists_counterpart hdist hdm.wellNamed
    (h.agree.aligned hx hy) hr' hinst hdn.wellNamed.isVariableUse
  obtain ⟨hnt, hslot, -⟩ := (encloses_iff hdist hplain hx hy h.agree hm hn hinst).mp h
  have hslots : r.replicatingSlots = r'.replicatingSlots := by
    rw [Rule.replicatingSlots, Rule.replicatingSlots, Rule.symbols, Rule.symbols,
      hsame.expansion_eq, hsame.nonterminal_eq]
  refine List.ne_nil_of_mem ((mem_replicatingRules hm).mpr ⟨hnt ▸ hr, ?_⟩)
  rw [hslots]
  exact List.ne_nil_of_mem hslot

variable [Scalar K] {w : SiteWeights K}

/-- The tree that a new node makes encloses the subtree that the node was put around. -/
theorem leads_around_encloses (hdist : g.DistinctSignatures) (hplain : g.PlainNames)
    (hx : g.Derivable s x) (hm : x.get? p = some m)
    (hr : r ∈ g.visibleRules m.nonterminal (x.variablesAbove p))
    (hslot : slot ∈ r.replicatingSlots) :
    (around g x p m r slot).Leads s fun t _ => x.Encloses t p slot := by
  have hdm := hx.derived_at hm
  have hnt := Grammar.nonterminal_of_mem_visibleRules hr
  obtain ⟨hmakes, hle, -⟩ := Grammar.kindOf_spec g r s
  obtain ⟨hnew, -⟩ := Grammar.kindOf_fresh g r hdm.wellNamed
  refine (leads_around_filled hx hm hr hslot).imp fun t s' ht _ hmade => ?_
  obtain ⟨as, hfilled, ht'⟩ := hmade
  have hderivable := ((leads_around hplain hx hm hr hslot).of_ok ht).2.derivable
  have hroot : (Tree.node r.nonterminal r.name (g.kindOf r s).1 (some as)).nonterminal =
      m.nonterminal := hnt
  obtain ⟨hagree, n, hn, hvar⟩ := (variantOver_replace?_iff hm hroot ht').mp (VariantOver.refl t)
  obtain rfl := Option.some.inj ((get?_replace? ht').symm.trans hn)
  have hinst := isInstance_of_filled hmakes hslot hfilled
  have hinner := hfilled.child?_slot hslot r.nonterminal r.name (g.kindOf r s).1
  refine (encloses_iff hdist hplain hx hderivable hagree hm hn hinst).mpr ⟨hnt.symm, hslot, ?_⟩
  refine (alikeAt_slot_iff hdist hplain hx hderivable hagree hm hn hvar.head.introduced? hnew
    (child?_eq_some.mp hinner)).mpr ?_
  exact hfilled.variantOver_slot hvar.args (Nat.zero_add slot) (child?_eq_some.mp hinner)

/-- Whatever insertion makes of a tree encloses a subtree of it. -/
theorem leads_encloses (hdist : g.DistinctSignatures) (hplain : g.PlainNames)
    (hx : g.Derivable s x) :
    (propose g w x).Leads s fun t _ => ∃ p slot, x.Encloses t p slot :=
  leads_of_around fun _ _ _ _ hm hr hslot =>
    (leads_around_encloses hdist hplain hx hm hr hslot).imp fun _ _ _ _ h => ⟨_, _, h⟩

end Insertion

/-- Deletion starts from a tree that encloses a subtree of whatever it makes. -/
theorem Deletion.leads_encloses [Scalar K] {w : SiteWeights K} (hdist : g.DistinctSignatures)
    (hplain : g.PlainNames) (hx : g.Derivable s x) :
    (propose w x).Leads s fun t _ => ∃ p slot, t.Encloses x p slot := by
  refine leads_of_promoted fun p m i c t hm hi hci ht => ?_
  have hkept := (kept_of_promoted hx hm hi hci ht).derivable
  obtain ⟨c', t', hc', ht', hiff⟩ := variant_promoted_iff hdist hplain hx hkept hm hi
  obtain rfl := Option.some.inj (hci.symm.trans hc')
  obtain rfl := Option.some.inj (ht.symm.trans ht')
  obtain ⟨hagree, halike⟩ := hiff.mp (.refl t)
  exact ⟨p, i, agreeOff_comm.mp hagree, ⟨m, hm, hi⟩, by rwa [alikeAt_comm]⟩

end ScopedGrammar
