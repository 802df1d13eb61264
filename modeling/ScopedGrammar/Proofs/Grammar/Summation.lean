import ScopedGrammar.Proofs.Grammar.Freshness
import ScopedGrammar.Proofs.Scalar.Exact

/-!
# Scores as sums

The score of a tree is the sum of the scores of its single nodes, and the first node in pre-order
that has no score is the one that the tree is rejected for. Scoring a tree hands the scope down
from node to node; scoring a single node of a tree goes down from the root again and collects the
scope on the way. Both see the same scopes in the same order, in whatever tree.
-/
namespace ScopedGrammar

section Sequences

variable {ε α β : Type} {f : α → Except ε β} {xs : List α}

/-- A sequence of computations succeeds with the results of its members. -/
theorem mapM_eq_ok_iff {ys : List β} :
    xs.mapM f = .ok ys ↔ List.Forall₂ (fun x y => f x = .ok y) xs ys := by
  induction xs generalizing ys with
  | nil => cases ys <;> simp [pure, Except.pure]
  | cons x xs ih =>
    rw [List.mapM_cons]
    cases hx : f x with
    | error e =>
      refine iff_of_false (fun h => by cases h) fun h => ?_
      cases h with
      | cons hy _ => cases hx.symm.trans hy
    | ok y =>
      cases hxs : xs.mapM f with
      | error e =>
        refine iff_of_false (fun h => by cases h) fun h => ?_
        cases h with
        | cons _ hys => cases hxs.symm.trans (ih.mpr hys)
      | ok zs =>
        constructor
        · rintro ⟨⟩
          exact .cons hx (ih.mp hxs)
        · rintro (_ | ⟨hy, hys⟩)
          cases hx.symm.trans hy
          cases hxs.symm.trans (ih.mpr hys)
          rfl

theorem exists_mapM_eq_ok_iff :
    (∃ ys, xs.mapM f = .ok ys) ↔ ∀ x ∈ xs, ∃ y, f x = .ok y := by
  simp only [mapM_eq_ok_iff]
  constructor
  · rintro ⟨ys, hys⟩ x hx
    obtain ⟨y, -, hy⟩ := exists_of_forall₂ hys.flip x hx
    exact ⟨y, hy⟩
  · intro h
    obtain ⟨ys, hys⟩ := exists_forall₂ (R := fun y x => f x = .ok y) h
    exact ⟨ys, hys.flip⟩

/-- A sequence of computations fails with the error of the first member that fails. -/
theorem mapM_eq_error_iff {e : ε} : xs.mapM f = .error e ↔
    ∃ before x after, xs = before ++ x :: after ∧ (∀ y ∈ before, ∃ b, f y = .ok b) ∧
      f x = .error e := by
  induction xs with
  | nil => simp [pure, Except.pure]
  | cons x xs ih =>
    have hrest : (∃ b, f x = .ok b) → (xs.mapM f = .error e ↔
        ∃ before y after, x :: xs = before ++ y :: after ∧ (∀ z ∈ before, ∃ b, f z = .ok b) ∧
          f y = .error e) := by
      rintro ⟨b, hb⟩
      rw [ih]
      constructor
      · rintro ⟨before, y, after, rfl, hok, hy⟩
        exact ⟨x :: before, y, after, rfl, by simpa using ⟨⟨b, hb⟩, hok⟩, hy⟩
      · rintro ⟨_ | ⟨z, before⟩, y, after, heq, hok, hy⟩
        · cases heq
          cases hb.symm.trans hy
        · cases heq
          exact ⟨before, y, after, rfl, fun z hz => hok z (List.mem_cons_of_mem _ hz), hy⟩
    rw [List.mapM_cons]
    cases hx : f x with
    | error e' =>
      constructor
      · rintro ⟨⟩
        exact ⟨[], x, xs, rfl, by simp, hx⟩
      · rintro ⟨_ | ⟨z, before⟩, y, after, heq, hok, hy⟩
        · cases heq
          cases hx.symm.trans hy
          rfl
        · cases heq
          obtain ⟨b, hb⟩ := hok x List.mem_cons_self
          cases hx.symm.trans hb
    | ok b =>
      rw [← hrest ⟨b, hx⟩]
      cases xs.mapM f with
      | error e' => exact Iff.rfl
      | ok ys => exact iff_of_false (fun h => by cases h) fun h => by cases h

end Sequences

namespace Exact

protected theorem add_assoc (x y z : Exact) : x + y + z = x + (y + z) := by
  cases x <;> cases y <;> cases z <;>
    first | rfl | exact congrArg real (AddSemigroup.add_assoc _ _ _)

protected theorem add_zero (x : Exact) : x + 0 = x := by
  cases x <;> first | rfl | exact congrArg real (AddZeroClass.add_zero _)

protected theorem zero_add (x : Exact) : 0 + x = x := by
  cases x <;> first | rfl | exact congrArg real (AddZeroClass.zero_add _)

theorem foldl_add (x : Exact) (xs : List Exact) : xs.foldl (· + ·) x = x + Scalar.sum xs := by
  induction xs generalizing x with
  | nil => exact (Exact.add_zero x).symm
  | cons y ys ih =>
    rw [Scalar.sum, List.foldl_cons, List.foldl_cons, ih, ih (0 + y), Exact.zero_add,
      Exact.add_assoc]

theorem sum_append (xs ys : List Exact) :
    Scalar.sum (xs ++ ys) = Scalar.sum xs + Scalar.sum ys := by
  rw [Scalar.sum, List.foldl_append, foldl_add]
  rfl

theorem sum_cons (x : Exact) (xs : List Exact) : Scalar.sum (x :: xs) = x + Scalar.sum xs := by
  rw [Scalar.sum, List.foldl_cons, foldl_add, Exact.zero_add]

end Exact

namespace Tree

variable {K : Type} {t n : Tree K} {p : Place}

/-- Below some arguments, the places that extend the way through one of them are its own. -/
theorem filter_placesFrom {as : List (Arg K)} {i j : ℕ} (hj : as[j]? = some (.subtree t))
    (p : Place) :
    ((subnodesFrom i as).map (·.1)).filter (List.isPrefixOf ((i + j) :: p)) =
      (t.places.filter p.isPrefixOf).map ((i + j) :: ·) := by
  -- No place behind the first argument starts with its position.
  have hother : ∀ (bs : List (Arg K)) {k l : ℕ}, l < k →
      ((subnodesFrom k bs).map (·.1)).filter (List.isPrefixOf (l :: p)) = [] := by
    intro bs k l hlt
    rw [List.filter_eq_nil_iff]
    intro q hq hprefix
    obtain ⟨m, q, hle, rfl⟩ := exists_of_mem_placesFrom hq
    simp only [List.isPrefixOf_cons_cons, Bool.and_eq_true, beq_iff_eq] at hprefix
    omega
  induction as generalizing i j with
  | nil => simp at hj
  | cons a as ih =>
    cases j with
    | zero =>
      obtain rfl : a = .subtree t := by simpa using hj
      rw [placesFrom_subtree, List.filter_append, Nat.add_zero, hother as (Nat.lt_succ_self i),
        List.append_nil, List.filter_map]
      congr 1
      exact List.filter_congr fun q _ => by simp
    | succ j =>
      have hrest := ih (i := i + 1) (j := j) (by simpa using hj)
      rw [show i + 1 + j = i + (j + 1) by omega] at hrest
      cases a with
      | terminal s => exact hrest
      | subtree c =>
        rw [placesFrom_subtree, List.filter_append, hrest, List.filter_map,
          List.filter_eq_nil_iff.mpr, List.map_nil, List.nil_append]
        intro q _
        simp only [Function.comp_apply, List.isPrefixOf_cons_cons, Bool.and_eq_true, beq_iff_eq]
        omega

/-- The places that extend a place are those of the subtree there, in the same order. -/
theorem filter_places (hn : t.get? p = some n) :
    t.places.filter p.isPrefixOf = n.places.map (p ++ ·) := by
  induction p generalizing t with
  | nil =>
    obtain rfl : t = n := by simpa using hn
    simp
  | cons i p ih =>
    obtain ⟨c, hc, hcn⟩ := get?_cons_eq_some.mp hn
    have hbelow := filter_placesFrom (i := 0) (child?_eq_some.mp hc) p
    rw [Nat.zero_add, ih hcn, List.map_map] at hbelow
    obtain ⟨nt, name, kind, args?⟩ := t
    rw [places, subnodes_node, List.map_cons, List.filter_cons_of_neg (by simp)]
    exact hbelow

end Tree

namespace Grammar

variable {g : Grammar Exact} {S : Scope Exact} {root t : Tree Exact} {p : Place}

/-- The scores of the nodes below a list of arguments are added to what there is so far. -/
theorem addArgs_eq_sum {as : List (Arg Exact)}
    (h : ∀ t, .subtree t ∈ as → g.logProbabilityIn S t = Scalar.sum <$>
      (t.nodesInScope S).mapM fun x => g.nodeLogProbability x.2.2 x.2.1) (i : ℕ) (lp : Exact) :
    g.addArgs S lp as = (fun xs => lp + Scalar.sum xs) <$>
      (Tree.nodesInScopeFrom S i as).mapM fun x => g.nodeLogProbability x.2.2 x.2.1 := by
  induction as generalizing i lp with
  | nil => exact congrArg Except.ok (Exact.add_zero lp).symm
  | cons a as ih =>
    have hrest := ih fun t ht => h t (List.mem_cons_of_mem _ ht)
    cases a with
    | terminal s => exact hrest (i + 1) lp
    | subtree t =>
      rw [addArgs, h t List.mem_cons_self, Tree.nodesInScopeFrom, List.mapM_append, List.mapM_map]
      simp only [Function.comp_def]
      generalize (t.nodesInScope S).mapM (fun x => g.nodeLogProbability x.2.2 x.2.1) = first
      cases first with
      | error e => rfl
      | ok xs =>
        have hlp := hrest (i + 1) (lp + Scalar.sum xs)
        generalize (Tree.nodesInScopeFrom S (i + 1) as).mapM
          (fun x => g.nodeLogProbability x.2.2 x.2.1) = second at hlp ⊢
        cases second with
        | error e => exact hlp
        | ok ys =>
          refine hlp.trans (congrArg Except.ok ?_)
          change lp + Scalar.sum xs + Scalar.sum ys = lp + Scalar.sum (xs ++ ys)
          rw [Exact.sum_append, Exact.add_assoc]

/-- A tree has the sum of the scores of its nodes, each in its scope. -/
theorem logProbabilityIn_eq_sum (g : Grammar Exact) (S : Scope Exact) (t : Tree Exact) :
    g.logProbabilityIn S t = Scalar.sum <$>
      (t.nodesInScope S).mapM fun x => g.nodeLogProbability x.2.2 x.2.1 := by
  induction t using Tree.induction generalizing S with
  | node nt name kind args? ih =>
    have hargs := addArgs_eq_sum fun c hc => ih c hc (S.below kind)
    rw [logProbabilityIn_eq_addArgs, Tree.nodesInScope_node, List.mapM_cons, Tree.kind_node,
      Tree.args_node]
    cases g.nodeLogProbability S (.node nt name kind args?) with
    | error e => rfl
    | ok lp =>
      have hlp := hargs 0 lp
      generalize (Tree.nodesInScopeFrom (S.below kind) 0 (args?.getD [])).mapM
        (fun x => g.nodeLogProbability x.2.2 x.2.1) = below at hlp ⊢
      cases below with
      | error e => exact hlp
      | ok xs => exact hlp.trans (congrArg Except.ok (Exact.sum_cons lp xs).symm)

theorem nodeLogProbabilityAt_eq {n : Tree Exact} (hn : root.get? p = some n) :
    g.nodeLogProbabilityAt root p = g.nodeLogProbability (root.variablesAbove p) n := by
  rw [nodeLogProbabilityAt, subtreeAt, hn]
  rfl

/-- The score of a subtree is computed from the scores of the single nodes of the root at the places
that extend its own. -/
theorem logProbabilityAt_eq_mapM (hp : p ∈ root.places) : g.logProbabilityAt root p =
    Scalar.sum <$> (root.places.filter p.isPrefixOf).mapM (g.nodeLogProbabilityAt root) := by
  obtain ⟨n, hn⟩ := Option.isSome_iff_exists.mp (Tree.mem_places.mp hp)
  have hnodes : (root.places.filter p.isPrefixOf).mapM (g.nodeLogProbabilityAt root) =
      (n.nodesInScope (root.variablesAbove p)).mapM fun x => g.nodeLogProbability x.2.2 x.2.1 := by
    have hmap : (root.places.filter p.isPrefixOf).map (g.nodeLogProbabilityAt root) =
        (n.nodesInScope (root.variablesAbove p)).map
          fun x => g.nodeLogProbability x.2.2 x.2.1 := by
      rw [Tree.filter_places hn, Tree.places, Tree.nodesInScope_eq, List.map_map, List.map_map,
        List.map_map]
      refine List.map_congr_left fun x hm => ?_
      obtain ⟨q, m⟩ := x
      have hroot : root.get? (p ++ q) = some m := Tree.get?_trans hn (Tree.mem_subnodes.mp hm)
      simp only [Function.comp_apply]
      rw [nodeLogProbabilityAt_eq hroot, Tree.variablesAbove_append hn]
    have hid := congrArg (List.mapM id) hmap
    rwa [List.mapM_map, List.mapM_map] at hid
  rw [hnodes, ← logProbabilityIn_eq_sum, logProbabilityAt, subtreeAt, hn]
  rfl

/-- A subtree has a score exactly if every single node at a place that extends its own has one, and
then it is the sum of theirs. Otherwise scoring fails with the error of the first such node in
pre-order. The score of a tree is that of the subtree at its root. -/
theorem logProbabilityAt_eq_sum (g : Grammar Exact) (root : Tree Exact) {p : Place}
    (hp : p ∈ root.places) :
    g.logProbability root = g.logProbabilityAt root [] ∧
      ((∃ lp, g.logProbabilityAt root p = .ok lp) ↔
        ∀ q ∈ root.places, p <+: q → ∃ lp, g.nodeLogProbabilityAt root q = .ok lp) ∧
      (∀ lps, List.Forall₂ (fun q lp => g.nodeLogProbabilityAt root q = .ok lp)
          (root.places.filter p.isPrefixOf) lps →
        g.logProbabilityAt root p = .ok (Scalar.sum lps)) ∧
      ∀ e, g.logProbabilityAt root p = .error e ↔
        ∃ before q after, root.places.filter p.isPrefixOf = before ++ q :: after ∧
          (∀ q' ∈ before, ∃ lp, g.nodeLogProbabilityAt root q' = .ok lp) ∧
            g.nodeLogProbabilityAt root q = .error e := by
  have hsum := logProbabilityAt_eq_mapM (g := g) hp
  refine ⟨?_, ?_, fun lps hlps => ?_, fun e => ?_⟩
  · rw [logProbabilityAt, subtreeAt, Tree.get?_nil, logProbability, Scope.above,
      Tree.variablesAbove_nil]
    rfl
  · have hmem : (∀ q ∈ root.places, p <+: q → ∃ lp, g.nodeLogProbabilityAt root q = .ok lp) ↔
        ∃ lps, (root.places.filter p.isPrefixOf).mapM (g.nodeLogProbabilityAt root) = .ok lps := by
      rw [exists_mapM_eq_ok_iff]
      simp
    rw [hsum, hmem]
    cases (root.places.filter p.isPrefixOf).mapM (g.nodeLogProbabilityAt root) with
    | error e => exact iff_of_false (fun ⟨_, h⟩ => by cases h) fun ⟨_, h⟩ => by cases h
    | ok lps => exact iff_of_true ⟨_, rfl⟩ ⟨lps, rfl⟩
  · rw [hsum, mapM_eq_ok_iff.mpr hlps]
    rfl
  · rw [hsum, ← mapM_eq_error_iff]
    cases (root.places.filter p.isPrefixOf).mapM (g.nodeLogProbabilityAt root) with
    | error e' => exact ⟨fun h => by cases h; rfl, fun h => by cases h; rfl⟩
    | ok lps => exact iff_of_false (fun h => by cases h) fun h => by cases h

/-- The identity applied to its own argument, which is not in scope there: the function has a
score, and the application fails with the error of its second argument. -/
theorem logProbabilityAt_eq_sum_escaped :
    let body : Tree Exact := .node "T" (NameSupply.nameOf 0) .variableUse none
    let root : Tree Exact := .node "T" "app" .plain (some [.subtree identityTerm, .subtree body])
    [] ∈ root.places ∧ [0] ∈ root.places ∧
      (∃ lp, (terms : Grammar Exact).logProbabilityAt root [0] = .ok lp) ∧
      (terms : Grammar Exact).logProbability root =
        .error (.scopeViolation (NameSupply.nameOf 0)) := by
  intro body root
  have hroot : [] ∈ root.places := by simp [Tree.mem_places]
  have hfn : [0] ∈ root.places := Tree.mem_places.mpr rfl
  obtain ⟨hwhole, -, -, herror⟩ := logProbabilityAt_eq_sum terms root hroot
  obtain ⟨-, hscore, -, -⟩ := logProbabilityAt_eq_sum terms root hfn
  have hplaces : root.places = [[], [0], [0, 0], [1]] := by
    simp [root, body, identityTerm, Tree.places, Tree.subnodes, Tree.subnodesFrom]
  have happ : ∃ lp, (terms : Grammar Exact).nodeLogProbabilityAt root [] = .ok lp := ⟨_, rfl⟩
  have hfunction : ∃ lp, (terms : Grammar Exact).nodeLogProbabilityAt root [0] = .ok lp := ⟨_, rfl⟩
  have hargument : ∃ lp, (terms : Grammar Exact).nodeLogProbabilityAt root [0, 0] = .ok lp :=
    ⟨_, rfl⟩
  refine ⟨hroot, hfn, hscore.mpr fun q hq hprefix => ?_, ?_⟩
  · rw [hplaces] at hq
    fin_cases hq
    · simp at hprefix
    · exact hfunction
    · exact hargument
    · simp at hprefix
  · rw [hwhole, herror]
    exact ⟨[[], [0], [0, 0]], [1], [], by simp [hplaces], by simp [happ, hfunction, hargument], rfl⟩

end Grammar

end ScopedGrammar
