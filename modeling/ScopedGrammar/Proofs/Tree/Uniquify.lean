import ScopedGrammar.Proofs.Tree.Binding
import ScopedGrammar.Proofs.Tree.Renewal

/-!
# Renaming all binders

Giving every binder a fresh name renames bound variables only: nodes keep all but the names of
variables, every use denotes the binder that it denoted before, and what was free stays free under
its name. The renaming is kept to the end of the traversal, so all this is asked of trees whose
binders have distinct names that no free variable has.
-/
namespace ScopedGrammar

variable {K : Type}

namespace NodeKind

/-- The kind of a node without the name of the variable that it introduces. -/
def unnamed : NodeKind K → NodeKind K
  | .binder v => .binder { v with name := "" }
  | kind => kind

theorem VariantOver.unnamed_eq {M : Matching} {name name' : String} {kind kind' : NodeKind K}
    (h : kind.VariantOver M name name' kind') : kind.unnamed = kind'.unnamed := by
  cases kind <;> cases kind' <;> try exact h.elim
  · rfl
  · next v w =>
    have hv : { v with name := w.name } = w := h.2
    rw [unnamed, unnamed, ← hv]
  · rfl

end NodeKind

namespace Tree

/-- A node without the subtrees among its arguments and without the names of variables. -/
def outline (t : Tree K) :
    String × Option String × NodeKind K × Option (List (Option String)) :=
  (t.nonterminal, if t.isVariableUse then none else some t.name, t.kind.unnamed,
    t.args?.map (·.map Arg.terminal?))

variable {M : Matching} {s t : Tree K}

/-- Corresponding nodes differ by the names of variables only. -/
theorem VariantOver.outline_eq (h : s.VariantOver M t) : s.outline = t.outline := by
  have hkind := h.head.kind
  have hname : (if s.isVariableUse then none else some s.name) =
      if t.isVariableUse then none else some t.name := by
    rw [isVariableUse, isVariableUse]
    revert hkind
    cases s.kind <;> cases t.kind <;> intro hkind <;> try exact hkind.elim
    · exact congrArg some hkind
    · exact congrArg some hkind.1
    · rfl
  have hterminals : s.args.map Arg.terminal? = t.args.map Arg.terminal? :=
    map_eq_of_forall₂ h.args fun a b hab => by cases hab <;> rfl
  rw [outline, outline, h.nonterminal_eq, hname, hkind.unnamed_eq,
    map_args_eq h.head.isSome_eq hterminals]

theorem Variant.outline_eq (h : s.Variant t) (p : Place) :
    (s.get? p).map outline = (t.get? p).map outline := by
  have hrel := VariantOver.rel_get? h p
  generalize s.get? p = m? at hrel
  generalize t.get? p = n? at hrel
  cases hrel with
  | none => rfl
  | some hmn => exact congrArg some hmn.outline_eq

theorem Variant.freeVariables_eq (h : s.Variant t) : s.freeVariables = t.freeVariables := by
  have huses : s.freeUses [] = t.freeUses [] := by
    rw [← List.forall₂_eq_eq_eq]
    exact VariantOver.forall₂_freeUses h
  rw [freeVariables, freeVariables, huses]

theorem Variant.name_eq_of_free {m n : Tree K} {p : Place} (h : s.Variant t)
    (hm : s.get? p = some m) (hn : t.get? p = some n) (huse : m.isVariableUse = true)
    (hfree : s.binderOf? p = none) : m.name = n.name := by
  obtain ⟨-, hnone⟩ := (VariantOver.uses_match h hm hn).2 huse
  refine hnone ?_
  simpa [binderOf?, hm, huse] using hfree

/-- Giving fresh names to the binders of a tree is a renaming of bound variables, if the binders
have distinct names, the free variables other ones, and the supply does not issue any of these: the
nodes are the same up to the names of variables, the two trees are alike and have the same free
variables, the binders get distinct names that have not been issued before, and a use denotes the
binder at a place exactly if it did so before, where a free one has its old name. -/
theorem uniquify_renames (t : Tree K) (s : NameSupply) (hapart : t.Apart)
    (hissued : ∀ x ∈ t.freeVariables, s.Avoids x) :
    let (copy, s') := t.uniquify s
    (∀ p, (copy.get? p).map outline = (t.get? p).map outline) ∧ copy.alike t = true ∧
      copy.freeVariables = t.freeVariables ∧ copy.introducedNames.Nodup ∧
      (∀ x ∈ copy.introducedNames, s'.Issued x ∧ ¬ s.Issued x) ∧
      ∀ p, copy.binderOf? p = t.binderOf? p ∧ ∀ m n, t.get? p = some m → copy.get? p = some n →
        m.isVariableUse = true → t.binderOf? p = none → n.name = m.name := by
  obtain ⟨hvariant, -, hnames⟩ := hapart.uniquify fun x hx =>
    hissued x (List.mem_eraseDups.mpr hx)
  generalize t.uniquify s = copied at hvariant hnames
  obtain ⟨copy, s'⟩ := copied
  have hnodup : copy.introducedNames.Nodup := hnames ▸ NameSupply.nodup_taken s s'
  refine ⟨fun p => (hvariant.outline_eq p).symm, ?_, hvariant.freeVariables_eq.symm, hnodup,
    fun x hx => ?_, fun p => ⟨(hvariant.binderOf?_eq p).symm, fun m n hm hn huse hfree =>
      (hvariant.name_eq_of_free hm hn huse hfree).symm⟩⟩
  · rw [alike, beq_iff_eq]
    exact (canonical_eq_of_variant hapart.nodup hnodup hvariant).symm
  · have htaken : x ∈ s.taken s' := hnames ▸ hx
    exact ⟨NameSupply.issued_of_mem_taken htaken, NameSupply.not_issued_of_mem_taken htaken⟩

/-- The term `fn x (both (fn y (both x y)) z)`, where `z` is free. -/
def openTerm : Tree Float :=
  let binder k : NodeKind Float := .binder ⟨"T", NameSupply.nameOf k, none, 1, .variableUse "y"⟩
  let use x : Arg Float := .subtree (.node "T" x .variableUse none)
  let both as : Arg Float := .subtree (.node "T" "both" .plain (some as))
  .node "T" "fn" (binder 0) (some [both [.subtree (.node "T" "fn" (binder 1)
    (some [both [use (NameSupply.nameOf 0), use (NameSupply.nameOf 1)]])), use "z"]])

/-- In a copy of this term the inner `x` still is that of the outer function, and `z` is free. -/
theorem uniquify_renames_openTerm :
    openTerm.Apart ∧ (∀ x ∈ openTerm.freeVariables, NameSupply.Avoids ⟨2⟩ x) ∧
      let copy := (openTerm.uniquify ⟨2⟩).1
      copy.alike openTerm = true ∧ copy.freeVariables = ["z"] ∧
        copy.introducedNames = [2, 3].map NameSupply.nameOf ∧
        copy.binderOf? [0, 0, 0, 0] = some [] ∧ copy.binderOf? [0, 0, 0, 1] = some [0, 0] ∧
        copy.binderOf? [0, 1] = none := by
  have hapart : openTerm.Apart := ⟨by decide +kernel, by decide +kernel⟩
  have hfree : openTerm.freeVariables = ["z"] := by decide +kernel
  have hissued : ∀ x ∈ openTerm.freeVariables, NameSupply.Avoids ⟨2⟩ x := by
    rw [hfree]
    intro x hx n heq
    obtain rfl := List.mem_singleton.mp hx
    have hchars := congrArg String.toList heq
    simp [NameSupply.nameOf] at hchars
  obtain ⟨-, halike, hsame, -, -, hbinders⟩ := uniquify_renames openTerm ⟨2⟩ hapart hissued
  exact ⟨hapart, hissued, halike, hsame.trans hfree, by rfl, (hbinders _).1.trans (by decide +kernel),
    (hbinders _).1.trans (by decide +kernel), (hbinders _).1.trans (by decide +kernel)⟩

end Tree

end ScopedGrammar
