import Mathlib.Data.List.Nodup
import Mathlib.Tactic.Tauto
import ScopedGrammar.Grammar.Scoring
import ScopedGrammar.Tree.Variables

/-!
# The structure of trees

A function of trees is computed in mutual recursion with one of argument lists. The equations here
give each such function at a node with any argument list, absent or not, so that proofs go by one
induction over trees. `nodesInScope` lists the nodes that `get?` finds, each with the scope that
`variablesAbove` collects on the way.
-/
namespace ScopedGrammar

namespace NodeKind

variable {K : Type}

/-- The variable that a node of this kind introduces. -/
def introduced? : NodeKind K → Option (Rule K)
  | .binder v => some v
  | _ => none

end NodeKind

theorem Scope.below_eq {K : Type} (scope : Scope K) (kind : NodeKind K) :
    scope.below kind = scope ++ kind.introduced?.toList := by
  cases kind <;> simp [Scope.below, NodeKind.introduced?]

namespace Tree

variable {K : Type}

section Induction

variable {P : Tree K → Prop}

mutual

theorem induction_tree
    (node : ∀ nt name kind args?, (∀ t, .subtree t ∈ args?.getD [] → P t) →
      P (.node nt name kind args?)) : ∀ t : Tree K, P t
  | .node nt name kind none => node nt name kind none (by simp)
  | .node nt name kind (some as) => node nt name kind (some as) (induction_args node as)

theorem induction_args
    (node : ∀ nt name kind args?, (∀ t, .subtree t ∈ args?.getD [] → P t) →
      P (.node nt name kind args?)) : ∀ as : List (Arg K), ∀ t, .subtree t ∈ as → P t
  | [] => by simp
  | .subtree t :: as => by
      intro u hu
      rcases List.mem_cons.mp hu with hu | hu
      · cases hu
        exact induction_tree node t
      · exact induction_args node as u hu
  | .terminal s :: as => by
      intro u hu
      rcases List.mem_cons.mp hu with hu | hu
      · cases hu
      · exact induction_args node as u hu

end

/-- What holds of a node as soon as it holds of the subtrees among its arguments holds of every
tree. -/
@[elab_as_elim]
theorem induction (t : Tree K)
    (node : ∀ nt name kind args?, (∀ t, .subtree t ∈ args?.getD [] → P t) →
      P (.node nt name kind args?)) : P t :=
  induction_tree node t

end Induction

section Node

variable (nt name : String) (kind : NodeKind K) (args? : Option (List (Arg K)))

@[simp] theorem nonterminal_node : (node nt name kind args?).nonterminal = nt := rfl

@[simp] theorem name_node : (node nt name kind args?).name = name := rfl

@[simp] theorem kind_node : (node nt name kind args?).kind = kind := rfl

@[simp] theorem args?_node : (node nt name kind args?).args? = args? := rfl

@[simp] theorem args_node : (node nt name kind args?).args = args?.getD [] := rfl

@[simp] theorem introduced?_node : (node nt name kind args?).introduced? = kind.introduced? := by
  cases kind <;> rfl

@[simp] theorem signature_node : (node nt name kind args?).signature =
    ⟨nt, name, args?.map (·.map Arg.symbol)⟩ := rfl

theorem depth_node : (node nt name kind args?).depth = heightArgs (args?.getD []) := by
  cases args? <;> rfl

theorem countNodes_node :
    (node nt name kind args?).countNodes = 1 + countNodesArgs (args?.getD []) := by
  cases args? <;> rfl

theorem introducedNames_node : (node nt name kind args?).introducedNames =
    (kind.introduced?.map (·.name)).toList ++ introducedNamesArgs (args?.getD []) := by
  cases args? <;> cases kind <;> rfl

theorem nodesInScope_node (scope : Scope K) : (node nt name kind args?).nodesInScope scope =
    ([], node nt name kind args?, scope) ::
      nodesInScopeFrom (scope.below kind) 0 (args?.getD []) := by
  cases args? <;> rfl

theorem subnodes_node : (node nt name kind args?).subnodes =
    ([], node nt name kind args?) :: subnodesFrom 0 (args?.getD []) := by
  cases args? <;> rfl

end Node

theorem introduced?_eq (t : Tree K) : t.introduced? = t.kind.introduced? := by
  cases t
  exact introduced?_node ..

theorem heightArgs_le_iff {as : List (Arg K)} {n : Nat} :
    heightArgs as ≤ n ↔ ∀ t, .subtree t ∈ as → t.depth < n := by
  induction as with
  | nil => simp [heightArgs]
  | cons a as ih =>
    cases a with
    | subtree t =>
      rw [heightArgs, Nat.max_le, ih, Nat.succ_le_iff]
      simp
    | terminal s => simp [heightArgs, ih]

theorem depth_lt_succ_iff {t : Tree K} {n : Nat} :
    t.depth < n + 1 ↔ ∀ c, .subtree c ∈ t.args → c.depth < n := by
  cases t
  rw [depth_node, Nat.lt_succ_iff, heightArgs_le_iff]
  rfl

theorem heightArgs_le_countNodesArgs {as : List (Arg K)}
    (h : ∀ t, .subtree t ∈ as → t.depth < t.countNodes) : heightArgs as ≤ countNodesArgs as := by
  induction as with
  | nil => exact Nat.le_refl _
  | cons a as ih =>
    have hrest := ih fun t ht => h t (List.mem_cons_of_mem a ht)
    cases a with
    | subtree t =>
      have hhead := h t List.mem_cons_self
      rw [heightArgs, countNodesArgs]
      omega
    | terminal s => exact hrest

theorem depth_lt_countNodes (t : Tree K) : t.depth < t.countNodes := by
  induction t using induction with
  | node nt name kind args? ih =>
    have := heightArgs_le_countNodesArgs ih
    rw [depth_node, countNodes_node]
    omega

theorem introducedNamesArgs_eq (as : List (Arg K)) :
    introducedNamesArgs as = (as.filterMap Arg.asTree?).flatMap introducedNames := by
  induction as with
  | nil => rfl
  | cons a as ih => cases a <;> simp [introducedNamesArgs, Arg.asTree?, List.filterMap_cons, ih]

theorem mem_introducedNamesArgs {as : List (Arg K)} {x : String} :
    x ∈ introducedNamesArgs as ↔ ∃ t, .subtree t ∈ as ∧ x ∈ t.introducedNames := by
  induction as with
  | nil => simp [introducedNamesArgs]
  | cons a as ih => cases a <;> simp [introducedNamesArgs, ih]

section Places

theorem child?_eq_some {t c : Tree K} {i : Nat} :
    t.child? i = some c ↔ t.args[i]? = some (.subtree c) := by
  rw [child?, Option.bind_eq_some_iff]
  constructor
  · rintro ⟨a, ha, hc⟩
    cases a with
    | subtree u =>
      cases hc
      exact ha
    | terminal s => cases hc
  · exact fun h => ⟨_, h, rfl⟩

theorem mem_args_of_child? {t c : Tree K} {i : Nat} (h : t.child? i = some c) :
    .subtree c ∈ t.args :=
  List.mem_of_getElem? (child?_eq_some.mp h)

theorem depth_lt_of_child? {t c : Tree K} {i n : Nat} (h : t.child? i = some c)
    (ht : t.depth < n + 1) : c.depth < n :=
  depth_lt_succ_iff.mp ht c (mem_args_of_child? h)

@[simp] theorem get?_nil (t : Tree K) : t.get? [] = some t := by
  cases t; rfl

@[simp] theorem get?_cons (t : Tree K) (i : Nat) (p : Place) :
    t.get? (i :: p) = (t.child? i).bind fun c => c.get? p := by
  cases t; rfl

theorem get?_cons_eq_some {t n : Tree K} {i : Nat} {p : Place} :
    t.get? (i :: p) = some n ↔ ∃ c, t.child? i = some c ∧ c.get? p = some n := by
  rw [get?_cons, Option.bind_eq_some_iff]

@[simp] theorem replace?_nil (t r : Tree K) : t.replace? [] r = some r := by
  cases t; rfl

@[simp] theorem replace?_cons (t r : Tree K) (i : Nat) (p : Place) : t.replace? (i :: p) r =
    (t.child? i).bind fun c => (c.replace? p r).map fun c =>
      t.withArgs (t.args.set i (.subtree c)) := by
  cases t; rfl

@[simp] theorem variablesAbove_nil (t : Tree K) : t.variablesAbove [] = [] := by
  cases t; rfl

theorem variablesAbove_cons {t c : Tree K} {i : Nat} (h : t.child? i = some c) (p : Place) :
    t.variablesAbove (i :: p) = t.introduced?.toList ++ c.variablesAbove p := by
  cases t
  simp [variablesAbove, h]

theorem get?_append (t : Tree K) (p q : Place) :
    t.get? (p ++ q) = (t.get? p).bind fun c => c.get? q := by
  induction p generalizing t with
  | nil => simp
  | cons i p ih => cases h : t.child? i <;> simp [h, ih]

theorem get?_trans {t n m : Tree K} {p q : Place} (hn : t.get? p = some n)
    (hm : n.get? q = some m) : t.get? (p ++ q) = some m := by
  rw [get?_append, hn, Option.bind_some, hm]

theorem get?_concat {t n c : Tree K} {p : Place} {i : Nat} (hn : t.get? p = some n)
    (hc : n.child? i = some c) : t.get? (p ++ [i]) = some c :=
  get?_trans hn (get?_cons_eq_some.mpr ⟨c, hc, get?_nil c⟩)

theorem variablesAbove_append {t c : Tree K} {p : Place} (h : t.get? p = some c) (q : Place) :
    t.variablesAbove (p ++ q) = t.variablesAbove p ++ c.variablesAbove q := by
  induction p generalizing t with
  | nil => simp_all
  | cons i p ih =>
    obtain ⟨u, hu, huc⟩ := get?_cons_eq_some.mp h
    rw [List.cons_append, variablesAbove_cons hu, variablesAbove_cons hu, ih huc,
      List.append_assoc]

theorem get?_replace? {t t' r : Tree K} {p : Place} (h : t.replace? p r = some t') :
    t'.get? p = some r := by
  induction p generalizing t t' with
  | nil => simp_all
  | cons i p ih =>
    obtain ⟨c, hc, hr⟩ := Option.bind_eq_some_iff.mp (replace?_cons t r i p ▸ h)
    obtain ⟨c', hc', rfl⟩ := Option.map_eq_some_iff.mp hr
    have hi := (List.getElem?_eq_some_iff.mp (child?_eq_some.mp hc)).1
    have hchild : (t.withArgs (t.args.set i (.subtree c'))).child? i = some c' := by
      rw [child?_eq_some]
      cases t
      exact List.getElem?_set_self hi
    exact get?_cons_eq_some.mpr ⟨c', hchild, ih hc'⟩

theorem isSome_replace? (t r : Tree K) (p : Place) :
    (t.replace? p r).isSome = (t.get? p).isSome := by
  induction p generalizing t with
  | nil => simp
  | cons i p ih => cases h : t.child? i <;> simp [h, ih]

/-- Putting back what is there changes nothing. -/
theorem replace?_self {t n : Tree K} {p : Place} (h : t.get? p = some n) :
    t.replace? p n = some t := by
  induction p generalizing t with
  | nil => simp_all
  | cons i p ih =>
    obtain ⟨c, hc, hn⟩ := get?_cons_eq_some.mp h
    have hi := child?_eq_some.mp hc
    rw [replace?_cons, hc, Option.bind_some, ih hn]
    obtain ⟨nt, name, kind, args?⟩ := t
    cases args? with
    | none => simp at hi
    | some as =>
      obtain ⟨hlt, hget⟩ := List.getElem?_eq_some_iff.mp hi
      simp only [Option.map_some, withArgs, args_node, Option.getD_some] at hget ⊢
      rw [← hget, List.set_getElem_self]

end Places

section Nodes

/-- A node below some arguments lies below one of them. -/
theorem mem_nodesInScopeFrom {as : List (Arg K)} {scope S : Scope K} {i : Nat} {p : Place}
    {n : Tree K} : (p, n, S) ∈ nodesInScopeFrom scope i as ↔
      ∃ j t q, as[j]? = some (.subtree t) ∧ (q, n, S) ∈ t.nodesInScope scope ∧
        p = (i + j) :: q := by
  induction as generalizing i with
  | nil => simp [nodesInScopeFrom]
  | cons a as ih =>
    have hrest : (p, n, S) ∈ nodesInScopeFrom scope (i + 1) as ↔
        ∃ j t q, (a :: as)[j + 1]? = some (.subtree t) ∧ (q, n, S) ∈ t.nodesInScope scope ∧
          p = (i + (j + 1)) :: q := by
      simp only [ih, List.getElem?_cons_succ, Nat.add_assoc, Nat.add_comm 1]
    rw [show (∃ j t q, (a :: as)[j]? = some (.subtree t) ∧ (q, n, S) ∈ t.nodesInScope scope ∧
        p = (i + j) :: q) ↔ (∃ t q, a = .subtree t ∧ (q, n, S) ∈ t.nodesInScope scope ∧
          p = i :: q) ∨ (p, n, S) ∈ nodesInScopeFrom scope (i + 1) as by
      rw [hrest]
      constructor
      · rintro ⟨_ | j, t, q, ha, hq, rfl⟩
        · exact .inl ⟨t, q, by simpa using ha, hq, rfl⟩
        · exact .inr ⟨j, t, q, ha, hq, rfl⟩
      · rintro (⟨t, q, rfl, hq, rfl⟩ | ⟨j, t, q, ha, hq, rfl⟩)
        · exact ⟨0, t, q, rfl, hq, rfl⟩
        · exact ⟨j + 1, t, q, ha, hq, rfl⟩]
    cases a with
    | subtree t => simp [nodesInScopeFrom, eq_comm, and_comm]
    | terminal s => simp [nodesInScopeFrom]

/-- The nodes of a tree are what is found at its places, in the scope that the variables above
add. -/
theorem mem_nodesInScope {t : Tree K} {scope S : Scope K} {p : Place} {n : Tree K} :
    (p, n, S) ∈ t.nodesInScope scope ↔ t.get? p = some n ∧ S = scope ++ t.variablesAbove p := by
  induction t using induction generalizing scope p with
  | node nt name kind args? ih =>
    rw [nodesInScope_node, List.mem_cons, mem_nodesInScopeFrom]
    cases p with
    | nil => simp [eq_comm]
    | cons i p =>
      simp only [Prod.mk.injEq, reduceCtorEq, false_and, false_or, Nat.zero_add, List.cons.injEq]
      constructor
      · rintro ⟨_, t, _, hj, hq, rfl, rfl⟩
        have hchild : (node nt name kind args?).child? i = some t := child?_eq_some.mpr hj
        obtain ⟨hget, rfl⟩ := (ih t (List.mem_of_getElem? hj)).mp hq
        refine ⟨get?_cons_eq_some.mpr ⟨t, hchild, hget⟩, ?_⟩
        rw [variablesAbove_cons hchild, introduced?_node, Scope.below_eq, List.append_assoc]
      · rintro ⟨hget, rfl⟩
        obtain ⟨c, hc, hn⟩ := get?_cons_eq_some.mp hget
        have hi := child?_eq_some.mp hc
        refine ⟨i, c, p, hi, (ih c (List.mem_of_getElem? hi)).mpr ⟨hn, ?_⟩, rfl, rfl⟩
        rw [variablesAbove_cons hc, introduced?_node, Scope.below_eq, List.append_assoc]

theorem root_mem_nodesInScope (t : Tree K) (scope : Scope K) :
    ([], t, scope) ∈ t.nodesInScope scope :=
  mem_nodesInScope.mpr ⟨get?_nil t, by simp⟩

theorem exists_mem_nodesInScope {t c n : Tree K} {scope S : Scope K} {p : Place}
    (hc : .subtree c ∈ t.args) (hn : (p, n, S) ∈ c.nodesInScope (scope.below t.kind)) :
    ∃ q, (q, n, S) ∈ t.nodesInScope scope := by
  obtain ⟨nt, name, kind, args?⟩ := t
  obtain ⟨i, hi⟩ := List.getElem?_of_mem hc
  rw [nodesInScope_node]
  exact ⟨i :: p, List.mem_cons_of_mem _
    (mem_nodesInScopeFrom.mpr ⟨i, c, p, hi, hn, by rw [Nat.zero_add]⟩)⟩

theorem subnodesFrom_eq (as : List (Arg K)) (scope : Scope K) (i : Nat)
    (h : ∀ t, .subtree t ∈ as → ∀ scope : Scope K,
      t.subnodes = (t.nodesInScope scope).map fun x => (x.1, x.2.1)) :
    subnodesFrom i as = (nodesInScopeFrom scope i as).map fun x => (x.1, x.2.1) := by
  induction as generalizing i with
  | nil => rfl
  | cons a as ih =>
    have hrest := ih (i + 1) fun t ht => h t (by simp [ht])
    cases a with
    | subtree t => simp [subnodesFrom, nodesInScopeFrom, h t (by simp) scope, hrest]
    | terminal s => simpa [subnodesFrom, nodesInScopeFrom] using hrest

theorem subnodes_eq (t : Tree K) (scope : Scope K) :
    t.subnodes = (t.nodesInScope scope).map fun x => (x.1, x.2.1) := by
  induction t using induction generalizing scope with
  | node nt name kind args? ih =>
    rw [subnodes_node, nodesInScope_node, List.map_cons, subnodesFrom_eq _ (scope.below kind) 0 ih]

theorem nodesInScope_eq (t : Tree K) (scope : Scope K) :
    t.nodesInScope scope = t.subnodes.map fun s => (s.1, s.2, scope ++ t.variablesAbove s.1) := by
  rw [subnodes_eq t scope, List.map_map]
  conv_lhs => rw [← List.map_id (t.nodesInScope scope)]
  refine List.map_congr_left fun ⟨p, n, S⟩ h => ?_
  rw [(mem_nodesInScope.mp h).2]
  rfl

theorem mem_subnodes {t n : Tree K} {p : Place} : (p, n) ∈ t.subnodes ↔ t.get? p = some n := by
  rw [subnodes_eq t [], List.mem_map]
  constructor
  · rintro ⟨⟨q, m, S⟩, h, heq⟩
    cases heq
    exact (mem_nodesInScope.mp h).1
  · exact fun h => ⟨(p, n, _), mem_nodesInScope.mpr ⟨h, rfl⟩, rfl⟩

theorem mem_places {t : Tree K} {p : Place} : p ∈ t.places ↔ (t.get? p).isSome := by
  simp [places, mem_subnodes, Option.isSome_iff_exists]

theorem placesFrom_subtree (i : Nat) (t : Tree K) (as : List (Arg K)) :
    (subnodesFrom i (.subtree t :: as)).map (·.1) =
      t.places.map (i :: ·) ++ (subnodesFrom (i + 1) as).map (·.1) := by
  simp [subnodesFrom, places, Function.comp_def]

/-- The places below some arguments start with the positions of these. -/
theorem exists_of_mem_placesFrom {as : List (Arg K)} {i : Nat} {p : Place}
    (h : p ∈ (subnodesFrom i as).map (·.1)) : ∃ j q, i ≤ j ∧ p = j :: q := by
  induction as generalizing i with
  | nil => simp [subnodesFrom] at h
  | cons a as ih =>
    have hrest : p ∈ (subnodesFrom (i + 1) as).map (·.1) → ∃ j q, i ≤ j ∧ p = j :: q := by
      intro hmem
      obtain ⟨j, q, hj, rfl⟩ := ih hmem
      exact ⟨j, q, by omega, rfl⟩
    cases a with
    | terminal s => exact hrest h
    | subtree t =>
      rw [placesFrom_subtree, List.mem_append] at h
      rcases h with h | h
      · obtain ⟨q, -, rfl⟩ := List.mem_map.mp h
        exact ⟨i, q, Nat.le_refl i, rfl⟩
      · exact hrest h

theorem pairwise_placesFrom (as : List (Arg K)) (i : Nat)
    (h : ∀ t, .subtree t ∈ as → t.places.Pairwise (· < ·)) :
    ((subnodesFrom i as).map (·.1)).Pairwise (· < ·) := by
  induction as generalizing i with
  | nil => exact List.Pairwise.nil
  | cons a as ih =>
    have hrest := ih (i + 1) fun t ht => h t (List.mem_cons_of_mem a ht)
    cases a with
    | terminal s => exact hrest
    | subtree t =>
      rw [placesFrom_subtree, List.pairwise_append, List.pairwise_map]
      refine ⟨(h t List.mem_cons_self).imp fun hlt => List.cons_lt_cons_self.mpr hlt, hrest, ?_⟩
      intro p hp p' hp'
      obtain ⟨q, -, rfl⟩ := List.mem_map.mp hp
      obtain ⟨j, q', hj, rfl⟩ := exists_of_mem_placesFrom hp'
      exact List.cons_lt_cons_iff.mpr (.inl (by omega))

/-- The places are listed in ascending order: a node before the nodes below it, and those below one
argument before those below the next. -/
theorem pairwise_places (t : Tree K) : t.places.Pairwise (· < ·) := by
  induction t using induction with
  | node nt name kind args? ih =>
    rw [places, subnodes_node, List.map_cons, List.pairwise_cons]
    refine ⟨fun p hp => ?_, pairwise_placesFrom _ 0 ih⟩
    obtain ⟨j, q, -, rfl⟩ := exists_of_mem_placesFrom hp
    exact List.nil_lt_cons j q

theorem nodup_places (t : Tree K) : t.places.Nodup := by
  refine (pairwise_places t).imp ?_
  rintro p _ hlt rfl
  exact List.lt_irrefl p hlt

end Nodes

section FreeUses

theorem mem_freeUsesArgs {bound : List String} {as : List (Arg K)} {x : String} :
    x ∈ freeUsesArgs bound as ↔ ∃ t, .subtree t ∈ as ∧ x ∈ t.freeUses bound := by
  induction as with
  | nil => simp [freeUsesArgs]
  | cons a as ih => cases a <;> simp [freeUsesArgs, ih]

theorem freeUses_node (bound : List String) (nt name : String) (kind : NodeKind K)
    (args? : Option (List (Arg K))) : (node nt name kind args?).freeUses bound =
      (match kind with
        | .variableUse => if bound.contains name then [] else [name]
        | _ => []) ++
      freeUsesArgs ((kind.introduced?.map (·.name)).toList ++ bound) (args?.getD []) := by
  cases args? <;> cases kind <;> simp [freeUses, freeUsesArgs, NodeKind.introduced?]

theorem freeUsesArgs_eq_filter_of {bound : List String} {as : List (Arg K)}
    (h : ∀ t, .subtree t ∈ as → t.freeUses bound = (t.freeUses []).filter (· ∉ bound)) :
    freeUsesArgs bound as = (freeUsesArgs [] as).filter (· ∉ bound) := by
  induction as with
  | nil => rfl
  | cons a as ih =>
    have hrest := ih fun t ht => h t (List.mem_cons_of_mem _ ht)
    cases a with
    | terminal s => exact hrest
    | subtree t =>
      rw [freeUsesArgs, freeUsesArgs, List.filter_append, hrest, h t List.mem_cons_self]

/-- Names introduced further up are not free, and no other name is affected. -/
theorem freeUses_eq_filter (bound : List String) (t : Tree K) :
    t.freeUses bound = (t.freeUses []).filter (· ∉ bound) := by
  induction t using induction generalizing bound with
  | node nt name kind args? ih =>
    have hargs := fun bound => freeUsesArgs_eq_filter_of fun c hc => ih c hc bound
    rw [freeUses_node, freeUses_node, hargs, hargs ((kind.introduced?.map (·.name)).toList ++ []),
      List.filter_append, List.filter_filter]
    congr 1
    · cases kind with
      | plain => rfl
      | binder v => rfl
      | variableUse => by_cases h : name ∈ bound <;> simp [h]
    · refine List.filter_congr fun x _ => ?_
      rw [List.append_nil, ← Bool.decide_and, decide_eq_decide, List.mem_append, not_or, and_comm]

theorem freeUsesArgs_eq_filter (bound : List String) (as : List (Arg K)) :
    freeUsesArgs bound as = (freeUsesArgs [] as).filter (· ∉ bound) :=
  freeUsesArgs_eq_filter_of fun t _ => freeUses_eq_filter bound t

theorem mem_freeUses {bound : List String} {t : Tree K} {x : String} :
    x ∈ t.freeUses bound ↔ x ∈ t.freeUses [] ∧ x ∉ bound := by
  rw [freeUses_eq_filter, List.mem_filter, decide_eq_true_iff]

/-- The free variables of a node are its own, if it is a use, and those of its arguments that it
does not introduce. -/
theorem mem_freeUses_iff {t : Tree K} {x : String} : x ∈ t.freeUses [] ↔
    (t.kind = .variableUse ∧ x = t.name) ∨
      (∀ v, t.introduced? = some v → x ≠ v.name) ∧ ∃ c, .subtree c ∈ t.args ∧ x ∈ c.freeUses [] := by
  obtain ⟨nt, name, kind, args?⟩ := t
  rw [freeUses_node, List.mem_append, mem_freeUsesArgs]
  cases kind with
  | plain => simp [NodeKind.introduced?]
  | variableUse => simp [NodeKind.introduced?]
  | binder v =>
    have hchild : ∀ c : Tree K, x ∈ c.freeUses [v.name] ↔ x ∈ c.freeUses [] ∧ x ≠ v.name := by
      intro c
      rw [mem_freeUses, List.mem_singleton]
    simp only [NodeKind.introduced?, Option.map_some, Option.toList_some, List.append_nil, hchild]
    simp [NodeKind.introduced?]
    constructor
    · rintro ⟨c, hc, hx, hv⟩
      exact ⟨hv, c, hc, hx⟩
    · rintro ⟨hv, c, hc, hx⟩
      exact ⟨c, hc, hx, hv⟩

/-- A free variable is used at some place above which the tree introduces no variable of the same
name. -/
theorem mem_freeUses_iff_exists_place {t : Tree K} {x : String} : x ∈ t.freeUses [] ↔
    ∃ p n, t.get? p = some n ∧ n.kind = .variableUse ∧ n.name = x ∧
      x ∉ (t.variablesAbove p).map (·.name) := by
  induction t using induction with
  | node nt name kind args? ih =>
    rw [mem_freeUses_iff]
    constructor
    · rintro (⟨huse, rfl⟩ | ⟨hown, c, hc, hx⟩)
      · exact ⟨[], _, get?_nil _, huse, rfl, by simp⟩
      · obtain ⟨p, n, hn, huse, hname, hx⟩ := (ih c hc).mp hx
        obtain ⟨i, hi⟩ := List.mem_iff_getElem?.mp hc
        have hchild := child?_eq_some.mpr hi
        refine ⟨i :: p, n, get?_cons_eq_some.mpr ⟨c, hchild, hn⟩, huse, hname, ?_⟩
        rw [variablesAbove_cons hchild, List.map_append, List.mem_append, not_or]
        refine ⟨fun hmem => ?_, hx⟩
        obtain ⟨v, hv, rfl⟩ := List.mem_map.mp hmem
        exact hown v (Option.mem_toList.mp hv) rfl
    · rintro ⟨_ | ⟨i, p⟩, n, hn, huse, rfl, hx⟩
      · cases Option.some.inj (get?_nil _ ▸ hn)
        exact .inl ⟨huse, rfl⟩
      · obtain ⟨c, hc, hn⟩ := get?_cons_eq_some.mp hn
        have harg := mem_args_of_child? hc
        rw [variablesAbove_cons hc, List.map_append, List.mem_append, not_or] at hx
        refine .inr ⟨fun v hv heq => hx.1 ?_, c, harg, (ih c harg).mpr ⟨p, n, hn, huse, rfl, hx.2⟩⟩
        exact List.mem_map.mpr ⟨v, Option.mem_toList.mpr hv, heq.symm⟩

theorem freeVariables_eq_nil_iff {t : Tree K} :
    t.freeVariables = [] ↔ ∀ x, x ∉ t.freeUses [] := by
  simp only [List.eq_nil_iff_forall_not_mem, freeVariables, List.mem_eraseDups]

end FreeUses

end Tree

end ScopedGrammar
