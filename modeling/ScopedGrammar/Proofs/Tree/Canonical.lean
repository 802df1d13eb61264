import ScopedGrammar.Proofs.Grammar.Renewal
import ScopedGrammar.Proofs.Tree.Outer

/-!
# What canonical texts decide

The canonical text of a subtree names the variables bound above it by the stems and the depths of
their binders. So two subtrees, wherever they stand in two trees, have the same text exactly if they
are the same up to the names of their own binders, where a variable bound above the one counts as a
variable bound above the other if their binders have the same depth and the same stem.
-/
namespace ScopedGrammar.Tree

variable {K : Type}

/-- The node at some depth on the way to a place introduces a variable. -/
def BoundAbove (t : Tree K) (p : Place) (v : Rule K) (depth : ℕ) : Prop :=
  depth < p.length ∧ ∃ n, t.get? (p.take depth) = some n ∧ n.introduced? = some v

/-- The names of variables bound above two places by binders of the same depth and the same stem. -/
def counterparts (s : Tree K) (p : Place) (t : Tree K) (q : Place) : Matching := fun x y =>
  ∃ v w depth, s.BoundAbove p v depth ∧ t.BoundAbove q w depth ∧ v.stem = w.stem ∧
    v.name = x ∧ w.name = y

variable {g : Grammar K} {names names' : NameSupply} {s t m n : Tree K} {p q : Place}
  {v w : Rule K} {depth : ℕ}

theorem boundAbove_cons {c : Tree K} {i : ℕ} (hc : t.child? i = some c) (p : Place) :
    t.BoundAbove (i :: p) v (depth + 1) ↔ c.BoundAbove p v depth := by
  simp [BoundAbove, hc]

/-- The variables above a place are those bound on the way to it. -/
theorem mem_variablesAbove_iff (hn : t.get? p = some n) :
    v ∈ t.variablesAbove p ↔ ∃ depth, t.BoundAbove p v depth := by
  induction p generalizing t with
  | nil => simp [BoundAbove]
  | cons i p ih =>
    obtain ⟨c, hc, hcn⟩ := get?_cons_eq_some.mp hn
    rw [variablesAbove_cons hc, List.mem_append, Option.mem_toList, ih hcn]
    constructor
    · rintro (hv | ⟨depth, hv⟩)
      · exact ⟨0, by simp [BoundAbove, hv]⟩
      · exact ⟨depth + 1, (boundAbove_cons hc p).mpr hv⟩
    · rintro ⟨_ | depth, hv⟩
      · obtain ⟨-, n, hn, hv⟩ := hv
        obtain rfl : t = n := by simpa using hn
        exact .inl hv
      · exact .inr ⟨depth, (boundAbove_cons hc p).mp hv⟩

/-- A variable bound above a place is printed with the depth of its binder. -/
theorem BoundAbove.apply_outerNames (h : t.BoundAbove p v depth) (ht : g.Derived names [] t)
    (hn : t.get? p = some n) : (outerNames 0 t p).apply v.name = markText v.stem depth true := by
  obtain ⟨hlt, k, hk, hv⟩ := h
  obtain ⟨i, rest, hsplit⟩ :=
    List.exists_cons_of_ne_nil (List.drop_eq_nil_iff.not.mpr (not_le.mpr hlt))
  have hp : p = p.take depth ++ [i] ++ rest := by
    rw [List.append_assoc, List.singleton_append, ← hsplit, List.take_append_drop]
  have hlength : (p.take depth).length = depth := by simp; omega
  generalize p.take depth = above at hp hk hlength
  subst hp
  obtain ⟨c, hc, hcn⟩ : ∃ c, k.child? i = some c ∧ c.get? rest = some n := by
    rw [List.append_assoc, List.singleton_append, get?_append, hk, Option.bind_some, get?_cons,
      Option.bind_eq_some_iff] at hn
    exact hn
  have hmem : v ∈ t.variablesAbove (above ++ [i]) := by
    rw [variablesAbove_append hk, variablesAbove_cons hc, hv]
    simp
  rw [apply_outerNames_append ht (get?_concat hk hc) (by simp [hcn]) hmem,
    apply_outerNames_own hk hc hv, Nat.zero_add, hlength]

/-- Variables bound above two places are printed alike exactly if their binders have the same depth
and the same stem. -/
theorem printedAlike_iff (hplain : g.PlainNames) (hs : g.Derivable names s)
    (ht : g.Derivable names' t) (hm : s.get? p = some m) (hn : t.get? q = some n)
    (hv : v ∈ s.variablesAbove p) (hw : w ∈ t.variablesAbove q) :
    printedAlike s p t q v.name w.name ↔ counterparts s p t q v.name w.name := by
  have hstem := fun v hv => (hs.plainNames hplain).stem_above hm (v := v) hv
  have hstem' := fun w hw => (ht.plainNames hplain).stem_above hn (v := w) hw
  constructor
  · intro h
    obtain ⟨depth, hbound⟩ := (mem_variablesAbove_iff hm).mp hv
    obtain ⟨depth', hbound'⟩ := (mem_variablesAbove_iff hn).mp hw
    rw [printedAlike, hbound.apply_outerNames hs.toDerived hm,
      hbound'.apply_outerNames ht.toDerived hn] at h
    obtain ⟨heq, rfl, -⟩ := markText_inj (hstem v hv) (hstem' w hw) h
    exact ⟨v, w, depth, hbound, hbound', heq, rfl, rfl⟩
  · rintro ⟨v', w', depth, hbound, hbound', heq, hname, hname'⟩
    rw [printedAlike, ← hname, ← hname', hbound.apply_outerNames hs.toDerived hm,
      hbound'.apply_outerNames ht.toDerived hn, heq]

/-- Subtrees of two trees have the same canonical text exactly if they are the same up to the names
of their binders, with the variables bound above the one and the other paired by depth and stem.
Whole trees count as equal exactly if they are variants of each other. -/
theorem canonicalAt_eq_iff_variantOver (hdist : g.DistinctSignatures) (hplain : g.PlainNames)
    (hs : g.Derivable names s) (ht : g.Derivable names' t) (hm : s.get? p = some m)
    (hn : t.get? q = some n) :
    (s.canonicalAt p = t.canonicalAt q ↔ m.VariantOver (counterparts s p t q) n) ∧
      (s.alike t = true ↔ s.Variant t) := by
  refine ⟨?_, alike_iff hdist hplain hs ht⟩
  rw [canonicalAt_eq_iff hm hn]
  refine alikeAt_iff_of_printed hdist hplain hs ht hm hn fun x hx y hy => ?_
  obtain ⟨v, hv, rfl⟩ := List.mem_map.mp ((hs.derived_at hm).mem_scope_of_mem_freeUses hx)
  obtain ⟨w, hw, rfl⟩ := List.mem_map.mp ((ht.derived_at hn).mem_scope_of_mem_freeUses hy)
  exact printedAlike_iff hplain hs ht hm hn hv hw

/-- The identity and a copy of it with another name for its argument have the same text, and so do
their bodies, each in its own tree. -/
theorem canonicalAt_eq_identityTerm :
    let g : Grammar Float := Grammar.terms
    let s : Tree Float := Grammar.identityTerm
    let t : Tree Float := (s.uniquify ⟨1⟩).1
    let body : ℕ → Tree Float := fun k => .node "T" (NameSupply.nameOf k) .variableUse none
    g.DistinctSignatures ∧ g.PlainNames ∧ g.Derivable ⟨1⟩ s ∧ g.Derivable ⟨2⟩ t ∧
      s.get? [0] = some (body 0) ∧ t.get? [0] = some (body 1) ∧
        s.canonicalAt [0] = t.canonicalAt [0] ∧ s.alike t = true := by
  intro g s t body
  have hdist : g.DistinctSignatures := Grammar.distinctSignatures_terms
  have hplain : g.PlainNames := Grammar.plainNames_terms
  have hs : g.Derivable ⟨1⟩ s := Grammar.derivable_identityTerm
  obtain ⟨hcopy, hvar, -, -⟩ := hs.toDerived.uniquify (Nat.le_refl 1)
  have ht : g.Derivable ⟨2⟩ t := ⟨hcopy, hvar.nonemptyTerminals hs.terminals⟩
  obtain ⟨htext, halike⟩ := canonicalAt_eq_iff_variantOver hdist hplain hs ht (p := [0]) (q := [0])
    (m := body 0) (n := body 1) rfl rfl
  refine ⟨hdist, hplain, hs, ht, rfl, rfl, htext.mpr ?_, halike.mpr hvar⟩
  refine variantOver_iff.mpr ⟨⟨rfl, ?_, rfl⟩, .nil⟩
  exact ⟨_, _, 0, ⟨by decide, s, rfl, rfl⟩, ⟨by decide, t, rfl, rfl⟩, rfl, rfl, rfl⟩

end ScopedGrammar.Tree
