import ScopedGrammar.Proofs.Tree.Binding

/-!
# Places as addresses

The places of a tree are what its listing, its lookup and its exchange agree on. The listing names
each place of a node once and in ascending order, as a walk comes to the nodes that keeps a stack of
what is left. An exchange at a place is seen from the place on and in the subtrees around it, and
from nowhere else.
-/
namespace ScopedGrammar.Tree

variable {K : Type} {s t t' c m n r : Tree K} {p q : Place} {i : ℕ}

section Listing

theorem length_subnodesFrom (as : List (Arg K)) (i : ℕ)
    (h : ∀ t, .subtree t ∈ as → t.subnodes.length = t.countNodes) :
    (subnodesFrom i as).length = countNodesArgs as := by
  induction as generalizing i with
  | nil => rfl
  | cons a as ih =>
    have hrest := ih (i + 1) fun t ht => h t (List.mem_cons_of_mem a ht)
    cases a with
    | terminal s => simpa [subnodesFrom, countNodesArgs] using hrest
    | subtree t => simp [subnodesFrom, countNodesArgs, hrest, h t List.mem_cons_self]

theorem length_subnodes (t : Tree K) : t.subnodes.length = t.countNodes := by
  induction t using induction with
  | node nt name kind args? ih =>
    rw [subnodes_node, List.length_cons, length_subnodesFrom _ 0 ih, countNodes_node]
    omega

end Listing

section Walk

/-- What a walk still has to list. -/
def listed (pending : List (Place × Tree K)) : List (Place × Tree K) :=
  pending.flatMap fun s => s.2.subnodes.map fun u => (s.1 ++ u.1, u.2)

theorem listed_children (p : Place) (as : List (Arg K)) (i : ℕ) :
    listed ((subtreesFrom i as).map fun c => (p ++ [c.1], c.2)) =
      (subnodesFrom i as).map fun u => (p ++ u.1, u.2) := by
  induction as generalizing i with
  | nil => rfl
  | cons a as ih =>
    cases a with
    | terminal s => exact ih (i + 1)
    | subtree t =>
      have hrest := ih (i + 1)
      unfold listed at hrest ⊢
      simp [subtreesFrom, subnodesFrom, hrest]

/-- The node that a walk comes to is the first of those it has to list, and the others are left. -/
theorem listed_cons (p : Place) (t : Tree K) (rest : List (Place × Tree K)) :
    listed ((p, t) :: rest) = (p, t) ::
      listed ((t.childrenWithIndex.map fun c => (p ++ [c.1], c.2)) ++ rest) := by
  obtain ⟨nt, name, kind, args?⟩ := t
  have hchildren := listed_children p (args?.getD []) 0
  unfold listed at hchildren ⊢
  rw [List.flatMap_cons, subnodes_node, List.flatMap_append, childrenWithIndex, args_node, hchildren]
  simp

/-- A walk comes to the nodes that it has to list, in their order, and then to its end. -/
theorem walk_eq_take (k : ℕ) (pending : List (Place × Tree K)) :
    walk k pending = (listed pending).take k := by
  induction k generalizing pending with
  | zero => rfl
  | succ k ih =>
    cases pending with
    | nil => rfl
    | cons s rest =>
      obtain ⟨p, t⟩ := s
      rw [listed_cons, List.take_succ_cons, ← ih]
      rfl

theorem walk_root (k : ℕ) (t : Tree K) : walk k [([], t)] = t.subnodes.take k := by
  rw [walk_eq_take]
  simp [listed]

end Walk

section Exchange

@[simp] theorem replace_nil (t r : Tree K) : t.replace [] r = (some t, r) := by
  cases t; rfl

theorem replace_cons (hc : t.child? i = some c) (p : Place) (r : Tree K) : t.replace (i :: p) r =
    ((c.replace p r).1, t.withArgs (t.args.set i (.subtree (c.replace p r).2))) := by
  cases t
  simp [replace, hc]

theorem replace_cons_of_none (hc : t.child? i = none) (p : Place) (r : Tree K) :
    t.replace (i :: p) r = (none, t) := by
  cases t
  simp [replace, hc]

theorem withArgs_set_child (hc : t.child? i = some c) :
    t.withArgs (t.args.set i (.subtree c)) = t := by
  have hput := replace?_self (get?_concat (get?_nil t) hc)
  simpa [hc] using hput

theorem replace_of_get?_eq_none (h : t.get? p = none) (r : Tree K) : t.replace p r = (none, t) := by
  induction p generalizing t with
  | nil => simp at h
  | cons i p ih =>
    cases hc : t.child? i with
    | none => exact replace_cons_of_none hc p r
    | some c =>
      have hbelow : c.get? p = none := by simpa [hc] using h
      rw [replace_cons hc, ih hbelow, withArgs_set_child hc]

theorem exists_replace_eq (h : t.get? p = some n) (r : Tree K) :
    ∃ t', t.replace? p r = some t' ∧ t.replace p r = (some n, t') := by
  induction p generalizing t with
  | nil =>
    obtain rfl : t = n := by simpa using h
    exact ⟨r, replace?_nil t r, replace_nil t r⟩
  | cons i p ih =>
    obtain ⟨c, hc, hn⟩ := get?_cons_eq_some.mp h
    obtain ⟨c', hrep, heq⟩ := ih hn
    refine ⟨_, ?_, replace_cons hc p r |>.trans (by rw [heq])⟩
    rw [replace?_cons, hc, Option.bind_some, hrep]
    rfl

/-- The nodes that are neither above nor below an exchange are found as before, with all that is
below them. -/
theorem get?_replace?_beside (h : t.replace? p r = some t') (hpq : ¬ p <+: q) (hqp : ¬ q <+: p) :
    t'.get? q = t.get? q := by
  induction p generalizing t t' q with
  | nil => exact absurd List.nil_prefix hpq
  | cons i p ih =>
    obtain ⟨c, c', hc, hrep, hc', hothers, -⟩ := of_replace?_cons h
    cases q with
    | nil => exact absurd List.nil_prefix hqp
    | cons j q =>
      by_cases hj : j = i
      · subst hj
        rw [get?_cons, get?_cons, hc, hc']
        exact ih hrep (fun hpre => hpq (List.cons_prefix_cons.mpr ⟨rfl, hpre⟩))
          fun hpre => hqp (List.cons_prefix_cons.mpr ⟨rfl, hpre⟩)
      · rw [get?_cons, get?_cons, hothers j hj]

theorem get?_replace?_above (h : t.replace? (q ++ p) r = some t') :
    ∃ m m', t.get? q = some m ∧ m.replace? p r = some m' ∧ t'.get? q = some m' := by
  induction q generalizing t t' with
  | nil => exact ⟨t, t', get?_nil t, h, get?_nil t'⟩
  | cons j q ih =>
    obtain ⟨c, c', hc, hrep, hc', -⟩ := of_replace?_cons h
    obtain ⟨m, m', hm, hexchange, hm'⟩ := ih hrep
    exact ⟨m, m', get?_cons_eq_some.mpr ⟨c, hc, hm⟩, hexchange, get?_cons_eq_some.mpr ⟨c', hc', hm'⟩⟩

/-- An exchange at a place leaves the variables above all places that are not below it. -/
theorem variablesAbove_replace? (h : t.replace? p r = some t') (hq : ∀ i q', q ≠ p ++ i :: q') :
    t'.variablesAbove q = t.variablesAbove q := by
  refine read_replace? variablesAbove (fun s s' => by simp) (fun s s' j q hown hrel => ?_) h hq
  obtain ⟨nt, name, kind, args?⟩ := s
  obtain ⟨nt', name', kind', args?'⟩ := s'
  rw [variablesAbove, variablesAbove, hown]
  generalize child? _ j = c? at hrel ⊢
  generalize child? _ j = c'? at hrel ⊢
  cases hrel with
  | none => rfl
  | some hread => simp [hread]

/-- What an exchange at a place leaves: the new subtree stands at the place, the subtrees beside it
are as they were, and those around it but for the part at the place. -/
structure Exchanged (t : Tree K) (p : Place) (n r t' : Tree K) : Prop where
  /-- From the place on, what is found is what the new subtree has. -/
  below : ∀ q, t'.get? (p ++ q) = r.get? q
  beside : ∀ q, ¬ p <+: q → ¬ q <+: p → t'.get? q = t.get? q
  /-- A subtree around the place has had the same exchange made in it. -/
  above : ∀ q rest, p = q ++ rest → ∃ m m', t.get? q = some m ∧ t'.get? q = some m' ∧
    m.replace rest r = (some n, m')
  /-- Every node that is not at the place or below keeps what it has but its subtrees. -/
  nodes : ∀ q, ¬ p <+: q → (t'.get? q).map root = (t.get? q).map root
  /-- The same variables are introduced above all places that are not strictly below the place. -/
  variablesAbove_eq : ∀ q, (p <+: q → q = p) → t'.variablesAbove q = t.variablesAbove q

theorem exchanged_replace (h : t.get? p = some n) (r : Tree K) :
    (t.replace p r).1 = some n ∧ Exchanged t p n r (t.replace p r).2 := by
  obtain ⟨t', hrep, heq⟩ := exists_replace_eq h r
  rw [heq]
  refine ⟨rfl, ?_, fun q => get?_replace?_beside hrep, ?_, fun q => root_replace? hrep, ?_⟩
  · intro q
    rw [get?_append, get?_replace? hrep, Option.bind_some]
  · rintro q rest rfl
    obtain ⟨m, m', hm, hexchange, hm'⟩ := get?_replace?_above hrep
    have hn : m.get? rest = some n := by
      rw [get?_append, hm, Option.bind_some] at h
      exact h
    obtain ⟨m'', hsame, heq'⟩ := exists_replace_eq hn r
    obtain rfl : m' = m'' := Option.some.inj (hexchange.symm.trans hsame)
    exact ⟨m, m', hm, hm', heq'⟩
  · intro q hq
    refine variablesAbove_replace? hrep fun i q' hqp => ?_
    have hpre : p <+: q := ⟨i :: q', hqp.symm⟩
    have hlength := congrArg List.length hqp
    rw [hq hpre] at hlength
    simp at hlength

end Exchange

/-- Listing, lookup and exchange agree on what a place addresses. A walk comes to the listed nodes
in their order and then ends; what is listed is what is found at a place, each place once and in
ascending order, and as many as there are nodes. An exchange returns what stood at the place and
leaves the rest as it was, and does nothing if no node stood there. -/
theorem places_address_nodes (t : Tree K) :
    (∀ k, walk k [([], t)] = t.subnodes.take k) ∧
      (∀ p n, (p, n) ∈ t.subnodes ↔ t.get? p = some n) ∧
      t.places.Nodup ∧ t.places.Pairwise (· < ·) ∧
      t.subnodes.length = t.countNodes ∧
      (∀ p n r, t.get? p = some n →
        (t.replace p r).1 = some n ∧ Exchanged t p n r (t.replace p r).2) ∧
      ∀ p r, t.get? p = none → t.replace p r = (none, t) :=
  ⟨fun k => walk_root k t, fun _ _ => mem_subnodes, nodup_places t, pairwise_places t,
    length_subnodes t, fun _ _ r h => exchanged_replace h r, fun _ r h => replace_of_get?_eq_none h r⟩

/-- The variable of a function is exchanged for a constant. Next to it stands a terminal, where
there is nothing to exchange. -/
theorem places_address_nodes_function :
    let v : Rule ℕ := ⟨"T", "v", none, 1, .variableUse "y"⟩
    let argument : Tree ℕ := .node "T" "v" .variableUse none
    let body : Tree ℕ := .node "T" "add" .plain (some [.terminal "one", .subtree argument])
    let function : Tree ℕ := .node "T" "fn" (.binder v) (some [.subtree body])
    let constant : Tree ℕ := .node "T" "c" .plain none
    function.subnodes = [([], function), ([0], body), ([0, 1], argument)] ∧
      walk 3 [([], function)] = function.subnodes.take 3 ∧
      (function.get? [0, 1] = some argument ∧
        (function.replace [0, 1] constant).1 = some argument ∧
        Exchanged function [0, 1] argument constant (function.replace [0, 1] constant).2) ∧
      function.get? [0, 0] = none ∧ function.replace [0, 0] constant = (none, function) := by
  intro v argument body function constant
  obtain ⟨hwalk, -, -, -, -, hexchange, hnone⟩ := places_address_nodes function
  have hargument : function.get? [0, 1] = some argument := rfl
  have hterminal : function.get? [0, 0] = none := rfl
  exact ⟨rfl, hwalk 3, ⟨hargument, hexchange _ _ constant hargument⟩, hterminal,
    hnone _ constant hterminal⟩

end ScopedGrammar.Tree
