import ScopedGrammar.Proofs.Grammar.Renewal
import ScopedGrammar.Proofs.Move.Difference

/-!
# Moving a subtree to the same place of another tree

The subtree at a place of one tree is put at this place into another tree. The variables bound
above it become those that the other tree binds at the same depths, and its own binders get fresh
names. The result is a variant of the first tree exactly if the trees agree off the place. So the
least common difference of two trees and the places above it are the places at which such an edit
turns the one tree into the other, and none is left out.

The descent that looks for it is also given as a loop without a limit to its rounds, which ends.
-/
namespace ScopedGrammar.Tree

variable {K : Type}

section Loop

variable {s t m : Tree K} {p : Place} {r : Option Place} {levels : ℕ}

/-- What the descent comes to from a place, however many rounds it takes. It ends where a tree has
no such place, where the nodes differ, and where the trees do not differ in a single child that
both of them have. Otherwise it goes on from this child. -/
inductive Descends (s t : Tree K) : Place → Option Place → Prop
  | absent {p : Place} (missing : s.get? p = none ∨ t.get? p = none) : Descends s t p none
  | node {p : Place} (left : (s.get? p).isSome) (right : (t.get? p).isSome)
      (differ : s.headAt p ≠ t.headAt p) : Descends s t p (some p)
  | children {p : Place} {m n : Tree K} (left : s.get? p = some m) (right : t.get? p = some n)
      (agree : s.headAt p = t.headAt p)
      (several : ∀ i, s.differingChildren t m p = [i] → n.child? i = none) :
      Descends s t p (some p)
  | child {p : Place} {m n d : Tree K} {i : ℕ} {r : Option Place} (left : s.get? p = some m)
      (right : t.get? p = some n) (agree : s.headAt p = t.headAt p)
      (only : s.differingChildren t m p = [i]) (both : n.child? i = some d)
      (rest : Descends s t (p ++ [i]) r) : Descends s t p r

theorem exists_child_of_differing {i : ℕ} (h : s.differingChildren t m p = [i]) :
    ∃ c, m.child? i = some c :=
  (mem_differingChildren.mp (h ▸ List.mem_singleton.mpr rfl)).1

/-- The descent with a limit of one round for each level of the tree comes to what the loop comes
to. -/
theorem descends_descend (hm : s.get? p = some m) (hlevels : m.depth < levels) :
    Descends s t p (descend s t levels m p) := by
  induction levels generalizing m p with
  | zero => omega
  | succ levels ih =>
    rw [descend]
    cases hn : t.get? p with
    | none => exact .absent (.inr hn)
    | some n =>
      by_cases hhead : s.headAt p = t.headAt p
      · simp only [hhead, bne_self_eq_false, Bool.false_eq_true, if_false]
        split
        · next i honly =>
          obtain ⟨c, hc⟩ := exists_child_of_differing honly
          rw [hc]
          cases hd : n.child? i with
          | none =>
            refine .children hm hn hhead fun j hj => ?_
            obtain rfl : i = j := by rw [honly] at hj; exact (List.cons.inj hj).1
            exact hd
          | some d =>
            have hrest := ih (get?_concat hm hc) (depth_lt_of_child? hc hlevels)
            exact .child hm hn hhead honly hd hrest
        · next hmany => exact .children hm hn hhead fun i hi => absurd hi (hmany i)
      · simp only [bne_iff_ne, ne_eq, hhead, not_false_eq_true, if_true]
        exact .node (by simp [hm]) (by simp [hn]) hhead

/-- Whatever the loop comes to, the descent with a limit comes to it. -/
theorem Descends.descend_eq (h : Descends s t p r) (hm : s.get? p = some m)
    (hlevels : m.depth < levels + 1) : descend s t (levels + 1) m p = r := by
  induction h generalizing m levels with
  | absent hmissing => rw [descend, hmissing.resolve_left (by simp [hm])]
  | node _ right hdiffer =>
    obtain ⟨n, hn⟩ := Option.isSome_iff_exists.mp right
    simp [descend, hn, hdiffer]
  | children left right hagree hseveral =>
    obtain rfl := Option.some.inj (hm.symm.trans left)
    simp only [descend, right, hagree, bne_self_eq_false, Bool.false_eq_true, if_false]
    split
    · next i honly =>
      rw [hseveral i honly]
      split <;> first | rfl | contradiction
    · rfl
  | @child p m' n d i r left right hagree honly hboth _ ih =>
    obtain rfl := Option.some.inj (hm.symm.trans left)
    obtain ⟨c, hc⟩ := exists_child_of_differing honly
    have hdepth : c.depth < levels := depth_lt_of_child? hc hlevels
    obtain ⟨levels, rfl⟩ := Nat.exists_eq_add_one_of_ne_zero (Nat.ne_zero_of_lt hdepth)
    rw [← ih (get?_concat hm hc) hdepth, descend]
    simp only [right, hagree, bne_self_eq_false, Bool.false_eq_true, if_false, honly, hc, hboth]

/-- From the root the loop comes to one result, and it is that of the descent. -/
theorem descends_iff : Descends s t [] r ↔ descend s t (s.depth + 1) s [] = r := by
  constructor
  · exact fun h => h.descend_eq (get?_nil s) (Nat.lt_succ_self s.depth)
  · rintro rfl
    exact descends_descend (get?_nil s) (Nat.lt_succ_self s.depth)

end Loop

section Edits

/-- The variables bound above a place by the second tree, each with the variable that the first
tree binds at the same depth, if it does; the innermost comes first. -/
def matchedByDepth : Tree K → Tree K → Place → Renaming
  | _, _, [] => []
  | s, t, i :: p =>
      (match s.child? i, t.child? i with
        | some c, some d => matchedByDepth c d p
        | _, _ => []) ++
      (match s.introduced?, t.introduced? with
        | some v, some w => [(w.name, v.name)]
        | _, _ => [])

/-- The first tree with the subtree that the second one has at a place; absent if one of them has
no such place. What the subtree uses of the variables bound above it is matched by depth, a variable
without a match keeps its name, and the binders of the subtree get fresh names. -/
def transplant? (s t : Tree K) (p : Place) (fresh : NameSupply) : Option (Tree K) :=
  (t.get? p).bind fun n => s.replace? p (n.uniquifyFrom (matchedByDepth s t p) fresh).1.1

variable {g : Grammar K} {names names' fresh : NameSupply} {M : Matching} {s t m n : Tree K}
  {p : Place}

/-- Where the nodes on the way correspond, both trees bind variables at the same depths. -/
theorem HeadsAlong.matchedByDepth_eq (h : HeadsAlong M s t p) : matchedByDepth s t p =
    (((t.variablesAbove p).map (·.name)).zip ((s.variablesAbove p).map (·.name))).reverse ∧
      (s.variablesAbove p).length = (t.variablesAbove p).length := by
  induction h with
  | here => simp [matchedByDepth]
  | @child M s t c d i p hhead hc hd _ ih =>
    obtain ⟨hpairs, hlen⟩ := ih
    have hrel := hhead.introduced?
    rw [← introduced?_eq, ← introduced?_eq] at hrel
    rw [matchedByDepth, hc, hd, variablesAbove_cons hc, variablesAbove_cons hd]
    dsimp only
    rw [hpairs]
    revert hrel
    generalize s.introduced? = v?
    generalize t.introduced? = w?
    rintro (_ | _) <;> simp [hlen]

/-- A variable bound above a place to which the nodes correspond is renamed to the one that it
matches. -/
theorem HeadsAlong.exists_matchedByDepth (h : HeadsAlong Eq s t p) (hs : g.Derived names [] s)
    (ht : g.Derived names' [] t) {w : Rule K} (hw : w ∈ t.variablesAbove p) :
    ∃ v ∈ s.variablesAbove p, (matchedByDepth s t p).apply w.name = v.name ∧
      Matching.along Eq s t p v.name w.name := by
  obtain ⟨-, n, hn⟩ := h.exists_get?
  obtain ⟨hpairs, hlen⟩ := h.matchedByDepth_eq
  have haligned := (h.aligned hs ht (.nil Eq)).names
  rw [List.nil_append, List.nil_append] at haligned
  have hnodup := (ht.at_place hn).wellNamed.nodup
  rw [List.nil_append] at hnodup
  obtain ⟨j, hj⟩ := List.getElem?_of_mem hw
  have hlt : j < (s.variablesAbove p).length := by
    rw [hlen]
    exact (List.getElem?_eq_some_iff.mp hj).1
  have hv := List.getElem?_eq_getElem hlt
  refine ⟨_, List.getElem_mem hlt, ?_, (haligned j j _ w hv hj).mpr rfl⟩
  have hkeys : ((matchedByDepth s t p).map (·.1)).Nodup := by
    rw [hpairs, List.map_reverse, List.nodup_reverse, List.map_fst_zip (by simp [hlen])]
    exact hnodup
  have hpair : (w.name, (s.variablesAbove p)[j].name) ∈ matchedByDepth s t p := by
    have hright : ((t.variablesAbove p).map (·.name))[j]? = some w.name := by
      rw [List.getElem?_map, hj, Option.map_some]
    have hleft : ((s.variablesAbove p).map (·.name))[j]? = some (s.variablesAbove p)[j].name := by
      rw [List.getElem?_map, hv, Option.map_some]
    rw [hpairs, List.mem_reverse]
    exact List.mem_of_getElem? (List.getElem?_zip_eq_some.mpr ⟨hright, hleft⟩)
  rw [Renaming.apply, lookup_of_mem hkeys hpair, Option.getD_some]

theorem nonterminal_uniquifyFrom (r : Renaming) (t : Tree K) (s : NameSupply) :
    (t.uniquifyFrom r s).1.1.nonterminal = t.nonterminal := by
  cases t
  rw [uniquifyFrom_node]
  rfl

/-- Where the trees agree off a place, they have nodes of the same nonterminal there. -/
theorem AgreeOff.nonterminal_eq (h : AgreeOff M s t p) (hroot : s.nonterminal = t.nonterminal)
    (hm : s.get? p = some m) (hn : t.get? p = some n) : m.nonterminal = n.nonterminal := by
  induction h with
  | here =>
    obtain rfl : _ = m := by simpa using hm
    obtain rfl : _ = n := by simpa using hn
    exact hroot
  | @child M s t c d i p hhead hsymbols hc hd hothers hrest ih =>
    rw [get?_cons, hc] at hm
    rw [get?_cons, hd] at hn
    have hsymbol := congrArg (·[i]?) hsymbols
    simp only [List.getElem?_map, child?_eq_some.mp hc, child?_eq_some.mp hd, Option.map_some,
      Option.some.injEq] at hsymbol
    exact ih hsymbol hm hn

/-- What is moved corresponds to what was there, over the names that the way matches. -/
theorem HeadsAlong.variantOver_uniquifyFrom (h : HeadsAlong Eq s t p)
    (hs : g.Derived names [] s) (ht : g.Derived names' [] t) (hn : t.get? p = some n)
    (hfresh : names.issued ≤ fresh.issued) :
    (n.uniquifyFrom (matchedByDepth s t p) fresh).1.1.VariantOver (Matching.along Eq s t p) n := by
  have hdn := ht.at_place hn
  rw [List.nil_append] at hdn
  obtain ⟨⟨m, hm⟩, -⟩ := h.exists_get?
  have havoids : ∀ x ∈ n.freeUses [], fresh.Avoids ((matchedByDepth s t p).apply x) := by
    intro x hx
    obtain ⟨w, hw, rfl⟩ := List.mem_map.mp (hdn.mem_scope_of_mem_freeUses hx)
    obtain ⟨v, hv, happly, -⟩ := h.exists_matchedByDepth hs ht hw
    rw [happly]
    exact (((hs.at_place hm).wellNamed.issued v (by simpa using hv)).mono hfresh).avoids
  refine (renewed_of_uniquify hdn.apart havoids).variant.symm.imp fun x _ y hy hxy => ?_
  obtain ⟨w, hw, rfl⟩ := List.mem_map.mp (hdn.mem_scope_of_mem_freeUses hy)
  obtain ⟨v, -, happly, hmatch⟩ := h.exists_matchedByDepth hs ht hw
  obtain rfl : v.name = x := happly.symm.trans hxy
  exact hmatch

/-- Moving a subtree between nodes of one nonterminal makes a variant of the tree it comes from
exactly if the trees agree off the place. -/
theorem exists_transplant?_iff (hs : g.Derived names [] s) (ht : g.Derived names' [] t)
    (hfresh : names.issued ≤ fresh.issued) (hm : s.get? p = some m) (hn : t.get? p = some n)
    (hnt : m.nonterminal = n.nonterminal) :
    (∃ u, s.transplant? t p fresh = some u ∧ u.Variant t) ↔ AgreeOff Eq s t p := by
  have hcopy := (nonterminal_uniquifyFrom (matchedByDepth s t p) n fresh).trans hnt.symm
  rw [transplant?, hn, Option.bind_some]
  constructor
  · rintro ⟨u, hu, hvar⟩
    exact ((variantOver_replace?_iff hm hcopy hu).mp hvar).1
  · intro h
    have hplace : (s.replace? p
        (n.uniquifyFrom (matchedByDepth s t p) fresh).1.1).isSome := by
      rw [isSome_replace?, hm]
      rfl
    obtain ⟨u, hu⟩ := Option.isSome_iff_exists.mp hplace
    have hmoved := h.headsAlong.variantOver_uniquifyFrom hs ht hn hfresh
    exact ⟨u, hu, (variantOver_replace?_iff hm hcopy hu).mpr ⟨h, n, hn, hmoved⟩⟩

/-- Complete closed trees with the same nonterminal have no least common difference exactly if
they are variants of each other. Otherwise the loop without a limit ends at it, it is a place of
both trees, and the places from the root down to it are those where the trees have the same
nonterminal and the second tree is, up to the names of its variables, the first one with the
subtree of the second one there. -/
theorem leastCommonDifference_sites (hdist : g.DistinctSignatures) (hplain : g.PlainNames)
    (hs : g.Derived names [] s) (ht : g.Derived names' [] t) (hcs : g.Complete s)
    (hct : g.Complete t) (hroot : s.nonterminal = t.nonterminal) :
    (s.leastCommonDifference t = none ↔ s.Variant t) ∧
      (¬ s.Variant t → ∃ p, s.leastCommonDifference t = some p ∧
        (∀ r, Descends s t [] r ↔ r = some p) ∧ (s.get? p).isSome ∧ (t.get? p).isSome ∧
          ∀ fresh : NameSupply, names.issued ≤ fresh.issued →
            ∀ q m n, s.get? q = some m → t.get? q = some n →
              (q <+: p ↔ m.nonterminal = n.nonterminal ∧
                ∃ u, s.transplant? t q fresh = some u ∧ u.Variant t)) := by
  have hds : g.Derivable names s := ⟨hs, hs.nonemptyTerminals hplain (by simp) hcs⟩
  have hdt : g.Derivable names' t := ⟨ht, ht.nonemptyTerminals hplain (by simp) hct⟩
  refine ⟨leastCommonDifference_eq_none_iff hdist hplain hds hdt, fun hne => ?_⟩
  obtain ⟨p, hp, hheads, hall, hagree⟩ := exists_leastCommonDifference hdist hplain hds hdt hne
  obtain ⟨⟨_, hplace⟩, _, hplace'⟩ := hheads.exists_get?
  have hdescend : descend s t (s.depth + 1) s [] = some p := by
    have halike : ¬ s.alike t = true := by rwa [alike_iff hdist hplain hds hdt]
    rwa [leastCommonDifference, if_neg halike] at hp
  refine ⟨p, hp, fun r => ?_, by simp [hplace], by simp [hplace'], fun fresh hfresh q m n hm hn => ?_⟩
  · rw [descends_iff, hdescend, eq_comm]
  · constructor
    · rintro ⟨rest, rfl⟩
      have hoff := ((agreeOff_append q rest).mp (hagree hcs hct)).1
      have hnt := hoff.nonterminal_eq hroot hm hn
      exact ⟨hnt, (exists_transplant?_iff hs ht hfresh hm hn hnt).mpr hoff⟩
    · rintro ⟨hnt, hmoved⟩
      exact hall q ((exists_transplant?_iff hs ht hfresh hm hn hnt).mp hmoved)

/-- The constant function and the identity differ in their bodies: what the identity returns is
its argument, and moved into the constant function it is the argument of that one. -/
theorem leastCommonDifference_sites_terms :
    let g : Grammar Float := Grammar.terms
    let s : Tree Float := Grammar.constantMapTerm
    let t : Tree Float := Grammar.identityTerm
    g.DistinctSignatures ∧ g.PlainNames ∧ g.Derived ⟨2⟩ [] s ∧ g.Derived ⟨1⟩ [] t ∧ g.Complete s ∧
      g.Complete t ∧ s.nonterminal = t.nonterminal ∧ ¬ s.Variant t ∧
      s.leastCommonDifference t = some [0] ∧ Descends s t [] (some [0]) ∧
      ∃ u, s.transplant? t [0] ⟨2⟩ = some u ∧ u.Variant t ∧
        u.introducedNames = [NameSupply.nameOf 1] ∧ u.freeUses [] = [] := by
  intro g s t
  have hdist : g.DistinctSignatures := Grammar.distinctSignatures_terms
  have hplain : g.PlainNames := Grammar.plainNames_terms
  have hs : g.Derived ⟨2⟩ [] s := Grammar.derived_constantMapTerm
  have ht : g.Derived ⟨1⟩ [] t := Grammar.derived_identityTerm
  have hcs : g.Complete s := Grammar.complete_constantMapTerm
  have hct : g.Complete t := Grammar.complete_identityTerm
  obtain ⟨hnone, hsites⟩ := leastCommonDifference_sites hdist hplain hs ht hcs hct rfl
  have hdifference : s.leastCommonDifference t = some [0] := by rfl
  have hne : ¬ s.Variant t := fun hvar => by
    rw [hnone.mpr hvar] at hdifference
    cases hdifference
  obtain ⟨p, hp, hloop, -, -, hplaces⟩ := hsites hne
  obtain rfl : p = [0] := Option.some.inj (hp.symm.trans hdifference)
  obtain ⟨-, u, hu, hvar⟩ := (hplaces ⟨2⟩ (Nat.le_refl 2) [0] _ _ rfl rfl).mp (List.prefix_refl [0])
  refine ⟨hdist, hplain, hs, ht, hcs, hct, rfl, hne, hdifference, (hloop _).mpr rfl, u, hu, hvar, ?_⟩
  cases hu
  exact ⟨rfl, rfl⟩

end Edits

end ScopedGrammar.Tree
