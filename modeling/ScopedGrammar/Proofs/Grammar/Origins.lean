import ScopedGrammar.Proofs.Grammar.Enumeration
import ScopedGrammar.Proofs.Grammar.Plain
import ScopedGrammar.Proofs.Grammar.Truncation
import ScopedGrammar.Proofs.Grammar.Unpacking

/-!
# Where trees come from

A tree is generated, read from a text or listed. Each time its nodes are made in pre-order, and a
binder takes its name before anything below it or behind it does. So the numbers of the names ascend
in pre-order, whatever number they begin with and whatever is taken in between.
-/
namespace ScopedGrammar

variable {K : Type}

namespace Tree

variable {s t c n : Tree K} {S : Scope K} {p : Place}

/-- The names in a scope, and behind them those that the binders of a tree introduce in pre-order,
have ascending numbers. -/
def NamedInOrder (t : Tree K) (S : Scope K) : Prop :=
  ∃ ns : List ℕ, ns.Pairwise (· < ·) ∧
    S.map (·.name) ++ t.introducedNames = ns.map NameSupply.nameOf

theorem NamedInOrder.of_sublist {lo hi : NameSupply} (h : t.introducedNames.Sublist (lo.taken hi)) :
    t.NamedInOrder [] := by
  obtain ⟨ns, hns, heq⟩ := List.sublist_map_iff.mp h
  exact ⟨ns, (List.pairwise_lt_range' 1).sublist hns, heq⟩

theorem NamedInOrder.child (h : t.NamedInOrder S) (hc : .subtree c ∈ t.args) :
    c.NamedInOrder (S.below t.kind) := by
  obtain ⟨ns, hns, heq⟩ := h
  have hsub : ((S.below t.kind).map (·.name) ++ c.introducedNames).Sublist
      (ns.map NameSupply.nameOf) := by
    rw [← heq, Scope.below_kind, List.map_append, List.append_assoc]
    exact (List.Sublist.refl _).append (sublist_introducedNames_child hc)
  obtain ⟨ns', hsub, heq⟩ := List.sublist_map_iff.mp hsub
  exact ⟨ns', hns.sublist hsub, heq⟩

theorem NamedInOrder.at_place (h : t.NamedInOrder S) (hn : t.get? p = some n) :
    n.NamedInOrder (S ++ t.variablesAbove p) := by
  induction p generalizing S t with
  | nil =>
    obtain rfl : t = n := by simpa using hn
    simpa using h
  | cons i p ih =>
    obtain ⟨c, hc, hcn⟩ := get?_cons_eq_some.mp hn
    have hbelow := ih (h.child (mem_args_of_child? hc)) hcn
    rwa [Scope.below_kind, List.append_assoc, ← variablesAbove_cons hc] at hbelow

end Tree

namespace Grammar

variable {g : Grammar K} {S : Scope K} {nt : String} {depth n : ℕ} {lo s s' : NameSupply}
  {t : Tree K} {r : Rule K} {ts : List (Tree K)}

section Listings

/-- The names of a tree are among those taken up to where it is listed, in the same order. -/
def ListedInOrder (lo : NameSupply) (t : Tree K) (s : NameSupply) : Prop :=
  lo.issued ≤ s.issued ∧ t.introducedNames.Sublist (lo.taken s)

/-- So are those of a list of arguments. -/
def ListedArgsInOrder (lo : NameSupply) (as : List (Arg K)) (s : NameSupply) : Prop :=
  lo.issued ≤ s.issued ∧ (Tree.introducedNamesArgs as).Sublist (lo.taken s)

theorem ListedInOrder.mono {lo' : NameSupply} (h : ListedInOrder lo t s)
    (hle : lo'.issued ≤ lo.issued) : ListedInOrder lo' t s :=
  ⟨Nat.le_trans hle h.1, h.2.trans (NameSupply.taken_sublist hle h.1)⟩

/-- The arguments behind a subtree are listed later. -/
theorem ListedArgsInOrder.subtree {s₁ : NameSupply} {as : List (Arg K)} (ht : ListedInOrder lo t s₁)
    (has : ListedArgsInOrder s₁ as s) : ListedArgsInOrder lo (.subtree t :: as) s := by
  refine ⟨Nat.le_trans ht.1 has.1, ?_⟩
  rw [Tree.introducedNamesArgs, ← NameSupply.taken_append ht.1 has.1]
  exact ht.2.append has.2

theorem ListedArgsInOrder.node {args? : Option (List (Arg K))}
    (h : ListedArgsInOrder (g.kindOf r lo).2 (args?.getD []) s) :
    ListedInOrder lo (.node r.nonterminal r.name (g.kindOf r lo).1 args?) s := by
  obtain ⟨-, hissued, hnames⟩ := g.kindOf_spec r lo
  refine ⟨Nat.le_trans hissued h.1, ?_⟩
  rw [Tree.introducedNames_node, hnames, ← NameSupply.taken_append hissued h.1]
  exact (List.Sublist.refl _).append h.2

theorem always_listArgs_inOrder {subtrees : Fin n → String → Lister (Tree K)}
    (ih : ∀ d nt lo, Listing.Always (ListedInOrder lo) lo (subtrees d nt lo))
    (slots : List (String × Option (Fin n))) (lo : NameSupply) :
    Listing.Always (ListedArgsInOrder lo) lo (listArgs subtrees slots lo) := by
  induction slots generalizing lo with
  | nil => exact Lister.always_singleton ⟨Nat.le_refl _, List.nil_sublist _⟩
  | cons slot slots ihs =>
    obtain ⟨x, d⟩ := slot
    cases d with
    | none => exact (ihs lo).map fun as s h => h
    | some d =>
      refine (ih d x lo).flatMap fun t s _ ht => ⟨False.elim, fun _ => ?_⟩
      exact (ihs s).map fun as s' h => .subtree ht h

theorem always_listRule_inOrder {subtrees : Scope K → Fin depth → String → Lister (Tree K)}
    (ih : ∀ S d nt lo, Listing.Always (ListedInOrder lo) lo (subtrees S d nt lo)) (r : Rule K)
    (lo : NameSupply) : Listing.Always (ListedInOrder lo) lo (g.listRule depth S subtrees r lo) := by
  have hissued := (g.kindOf_spec r lo).2.1
  rw [listRule, Lister.naming]
  refine Listing.Meets.mono ?_ hissued
  split
  · split
    · refine Lister.always_singleton (ListedArgsInOrder.node ⟨Nat.le_refl _, ?_⟩)
      rw [leafArgs_eq, Tree.introducedNamesArgs_eq]
      simp [List.filterMap_map, Function.comp_def, Arg.asTree?]
    · exact Lister.meets_nil _
  · refine Lister.meets_concat_zero (fun slots _ s hs => ?_) (Nat.le_refl _)
    refine (always_listArgs_inOrder (ih _) slots s).map fun as s' h => ListedArgsInOrder.node ?_
    exact ⟨Nat.le_trans hs h.1, h.2.trans (NameSupply.taken_sublist hs h.1)⟩

/-- Names are taken in pre-order when trees are listed. -/
theorem always_listIn_inOrder (g : Grammar K) (depth : ℕ) (S : Scope K) (nt : String)
    (lo : NameSupply) : Listing.Always (ListedInOrder lo) lo (g.listIn depth S nt lo) := by
  induction depth using Nat.strong_induction_on generalizing S nt lo with
  | _ depth ih =>
    rw [listIn]
    refine Lister.meets_concat_zero (fun r _ s hs => ?_) (Nat.le_refl lo.issued)
    exact (always_listRule_inOrder (fun S d nt lo => ih d.val d.isLt S nt lo) r s).imp
      fun t s' _ h => h.mono hs

end Listings

section Origins

variable [Scalar K]

/-- The tree was generated, with or without a limit, read from a text, or listed. -/
inductive Made (g : Grammar K) (t : Tree K) : Prop
  | generated (nt : String) (s s' : NameSupply) (h : (g.generate nt).Yields s (.ok t) s')
  | limited (limit : GenerationLimit) (nt : String) (s s' : NameSupply)
      (h : (g.generateLimited limit nt).Yields s (.ok t) s')
  | unpacked (nt text : String) (s s' : NameSupply) (h : g.unpackFrom nt text s = (.ok t, s'))
  | listedAt (depth : ℕ) (nt : String) (s : NameSupply) (ts : List (Tree K))
      (h : (g.listAtDepth depth nt s).Reads ts) (mem : t ∈ ts)
  | listed (maxDepth : ℕ) (nt : String) (s : NameSupply) (ts : List (Tree K))
      (h : (g.list maxDepth nt s).Reads ts) (mem : t ∈ ts)

/-- A tree that was made is derivable, and its binders have names with ascending numbers. -/
theorem Made.spec (h : g.Made t) (hplain : g.PlainNames) :
    (∃ names, g.Derivable names t) ∧ t.NamedInOrder [] := by
  have hexpanded : ∀ {levels nt s rules s'}, g.Expanded levels [] nt s t rules s' →
      (∃ names, g.Derivable names t) ∧ t.NamedInOrder [] := by
    intro levels nt s rules s' h
    have hderived := h.derived .nil
    refine ⟨⟨s', hderived, hderived.nonemptyTerminals hplain (by simp) h.complete⟩, ?_⟩
    have horder : t.introducedNames.Sublist (s.taken s') := by rw [h.introducedNames_eq]
    exact .of_sublist horder
  have hlisted : ∀ {depth nt s ts}, (g.listAtDepth depth nt s).Reads ts → t ∈ ts →
      (∃ names, g.Derivable names t) ∧ t.NamedInOrder [] := by
    intro depth nt s ts h ht
    obtain ⟨s', hspec⟩ := exists_listed h ht
    obtain ⟨s'', -, horder⟩ := ((always_listIn_inOrder g depth [] nt s).of_reads h).1 t ht
    have hderived := hspec.derived .nil
    exact ⟨⟨s', hderived, hderived.nonemptyTerminals hplain (by simp) hspec.complete⟩,
      .of_sublist horder.2⟩
  cases h with
  | generated nt s s' h =>
    obtain ⟨rules, h⟩ := of_yields_generateIn h
    exact hexpanded h
  | limited limit nt s s' h =>
    obtain ⟨_, h, rfl, -⟩ := (generateLimited_truncates g limit nt s).yields_ok h
    obtain ⟨rules, h⟩ := of_yields_generateIn h
    exact hexpanded h
  | unpacked nt text s s' h =>
    obtain ⟨levels, rules, h, -⟩ := of_unpackFrom h
    exact hexpanded h
  | listedAt depth nt s ts h mem => exact hlisted h mem
  | listed maxDepth nt s ts h mem =>
    obtain ⟨depth, s', ts', h, mem⟩ := exists_reads_listAtDepth h mem
    exact hlisted h mem

end Origins

end Grammar

end ScopedGrammar
