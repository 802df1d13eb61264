import ScopedGrammar.Proofs.Random.Outcome
import ScopedGrammar.Proofs.Tree.Structure
import ScopedGrammar.Grammar.Traversal

/-!
# Traversals give their scope back

A traversal on one scope does what the same recursion does that hands each argument a scope of its
own, and leaves the scope as it was, however it ends. Every way to put traversals together keeps
this, since what is below a node is entered with a longer scope that begins with the one before, and
is cut back to its length. So generation, scoring and visiting all keep the scope lexical: what a
node is met with are the variables introduced above it.
-/
namespace ScopedGrammar

namespace Traversal

variable {K ε α β : Type} {m : Type → Type} [Monad m]

/-- From a scope, the traversal does what a computation does, and gives the scope back whether it
has succeeded or failed. -/
def Keeps (x : Traversal K ε m α) (S : Scope K) (y : ExceptT ε m α) : Prop :=
  x S = y.run >>= fun outcome => pure (outcome, S)

variable [LawfulMonad m] {x : Traversal K ε m α} {f : α → Traversal K ε m β} {S : Scope K}
  {y : ExceptT ε m α} {h : α → ExceptT ε m β}

theorem Keeps.pure (a : α) (S : Scope K) :
    Keeps (Pure.pure a : Traversal K ε m α) S (Pure.pure a) :=
  (pure_bind (m := m) (Except.ok a) fun outcome => Pure.pure (outcome, S)).symm

theorem Keeps.throw (e : ε) (S : Scope K) :
    Keeps (MonadExcept.throw e : Traversal K ε m α) S (MonadExcept.throw e) :=
  (pure_bind (m := m) (Except.error e) fun outcome => Pure.pure (outcome, S)).symm

omit [LawfulMonad m] in
theorem Keeps.withScope (y : Scope K → ExceptT ε m α) (S : Scope K) :
    Keeps (Traversal.withScope y) S (y S) := rfl

/-- A sequence keeps the scope if both of its parts do. -/
theorem Keeps.bind (hx : x.Keeps S y) (hf : ∀ a, (f a).Keeps S (h a)) :
    (x >>= f).Keeps S (y >>= h) := by
  have hsplit : (x >>= f) S = x S >>= fun
      | (.ok a, inner) => f a inner
      | (.error e, inner) => Pure.pure (.error e, inner) := by
    change (x S >>= fun r => ExceptT.bindCont f r.1 r.2) = _
    congr 1
    funext ⟨r, inner⟩
    cases r <;> rfl
  have hrun : (y >>= h).run = y.run >>= fun
      | .ok a => (h a).run
      | .error e => Pure.pure (.error e) := rfl
  rw [Keeps, hsplit, hrun, show x S = _ from hx, bind_assoc, bind_assoc]
  congr 1
  funext r
  cases r with
  | ok a => rw [pure_bind]; exact hf a
  | error e => rw [pure_bind, pure_bind]

theorem Keeps.below {kind : NodeKind K} (hx : x.Keeps (S.below kind) y) :
    (Traversal.below kind x).Keeps S y := by
  have hsplit : Traversal.below kind x S = x (S.below kind) >>= fun r =>
      Pure.pure (r.1, r.2.take S.length) := rfl
  rw [Keeps, hsplit, show x (S.below kind) = _ from hx, bind_assoc]
  simp only [pure_bind, Scope.take_below]

end Traversal

open Traversal (Keeps)

namespace Grammar

section Generation

variable {K : Type} {g : Grammar K} {S : Scope K}

theorem keeps_expandArgsOn {grow : Option Nat → String → ScopeSampler K (Tree K × Option Nat)}
    {fill : Option Nat → Scope K → String → Sampler K (Tree K × Option Nat)}
    (ih : ∀ room nt, (grow room nt).Keeps S (fill room S nt)) (room : Option Nat)
    (symbols : List String) :
    (expandOn.expandArgsOn g grow room symbols).Keeps S
      (expand.expandArgs g fill S room symbols) := by
  induction symbols generalizing room with
  | nil => exact .pure _ S
  | cons s symbols ihs =>
    rw [expandOn.expandArgsOn, expand.expandArgs]
    split
    · exact (ih room s).bind fun x => (ihs x.2).bind fun y => .pure _ S
    · exact (ihs room).bind fun y => .pure _ S

variable [Scalar K]

/-- Expansion on one scope does what expansion in that scope does, and gives the scope back. -/
theorem keeps_expandOn (g : Grammar K) (levels : Nat) (room : Option Nat) (nt : String)
    (S : Scope K) : (g.expandOn levels room nt).Keeps S (g.expand levels room S nt) := by
  induction levels generalizing room nt S with
  | zero => exact .throw _ S
  | succ levels ih =>
    match room with
    | some 0 => exact .throw _ S
    | some (_ + 1) | none =>
      refine (Keeps.withScope (g.sampleRule nt) S).bind fun r =>
        (Keeps.withScope (fun _ => Sampler.ofNaming (g.kindOf r)) S).bind fun kind => ?_
      cases r.expansion with
      | none => exact .pure _ S
      | some symbols =>
        have hargs room := keeps_expandArgsOn (g := g) (fun room nt => ih room nt (S.below kind))
          room symbols
        exact (hargs _).below.bind fun x => .pure _ S

theorem keeps_generateOn (g : Grammar K) (nt : String) (S : Scope K) :
    (g.generateOn nt).Keeps S (g.generateIn S nt) :=
  (g.keeps_expandOn (g.maxDepth + 1) none nt S).bind fun x => .pure x.1 S

end Generation

section Scoring

variable {K : Type} [Scalar K] {g : Grammar K} {S : Scope K}

theorem mk_bind {ε α β : Type} (x : Except ε α) (f : α → Except ε β) :
    (ExceptT.mk (x >>= f : Except ε β) : ExceptT ε Id β) =
      ExceptT.mk x >>= fun a => ExceptT.mk (f a) := by
  cases x <;> rfl

/-- If the subtrees leave the scope as it was, so do the arguments together. -/
theorem keeps_addArgsOn {as : List (Arg K)}
    (h : ∀ t, .subtree t ∈ as → (g.logProbabilityOn t).Keeps S (.mk (g.logProbabilityIn S t)))
    (lp : K) : (g.addArgsOn lp as).Keeps S (.mk (g.addArgs S lp as)) := by
  induction as generalizing lp with
  | nil => exact .pure lp S
  | cons a as ih =>
    have hrest := ih fun t ht => h t (List.mem_cons_of_mem _ ht)
    cases a with
    | terminal s => exact hrest lp
    | subtree t =>
      rw [addArgs, mk_bind]
      exact (h t List.mem_cons_self).bind fun lp' => hrest (lp + lp')

/-- Scoring on one scope does what scoring in that scope does, and gives the scope back. -/
theorem keeps_logProbabilityOn (g : Grammar K) (t : Tree K) (S : Scope K) :
    (g.logProbabilityOn t).Keeps S (.mk (g.logProbabilityIn S t)) := by
  induction t using Tree.induction generalizing S with
  | node nt name kind args? ih =>
    cases args? with
    | none => exact .withScope _ S
    | some as =>
      rw [logProbabilityIn, mk_bind]
      exact (Keeps.withScope _ S).bind fun lp =>
        (keeps_addArgsOn (fun t ht => ih t ht (S.below kind)) lp).below

/-- The traversal on one scope gives the log-probability in that scope, and the scope back. -/
theorem logProbabilityOn_eq (g : Grammar K) (t : Tree K) (S : Scope K) :
    g.logProbabilityOn t S = (g.logProbabilityIn S t, S) :=
  g.keeps_logProbabilityOn t S

end Scoring

end Grammar

namespace Tree

variable {K ε : Type} {m : Type → Type} [Monad m] [LawfulMonad m] {S : Scope K}
  {visit : Visitor K ε m}

/-- If the subtrees are visited in pre-order on a scope, so are the arguments together. -/
theorem keeps_visitArgsOn {as : List (Arg K)} {p : Place}
    (h : ∀ t, .subtree t ∈ as → ∀ p, (visitOn visit p t).Keeps S
      (forM (t.nodesInScope S) fun x => visit (p ++ x.1) x.2.1 x.2.2)) (i : Nat) :
    (visitArgsOn visit p i as).Keeps S
      (forM (nodesInScopeFrom S i as) fun x => visit (p ++ x.1) x.2.1 x.2.2) := by
  induction as generalizing i with
  | nil => exact .pure () S
  | cons a as ih =>
    have hrest := ih fun t ht => h t (List.mem_cons_of_mem _ ht)
    cases a with
    | terminal s => exact hrest (i + 1)
    | subtree t =>
      have hfirst := h t List.mem_cons_self (p ++ [i])
      rw [visitArgsOn, nodesInScopeFrom, List.forM_append, List.forM_map]
      simp only [List.append_assoc, List.cons_append, List.nil_append] at hfirst
      exact hfirst.bind fun _ => hrest (i + 1)

/-- Visiting on one scope visits the nodes in pre-order, each with the scope in which it was made,
and gives the scope back. -/
theorem keeps_visitOn (visit : Visitor K ε m) (p : Place) (t : Tree K) (S : Scope K) :
    (visitOn visit p t).Keeps S
      (forM (t.nodesInScope S) fun x => visit (p ++ x.1) x.2.1 x.2.2) := by
  induction t using Tree.induction generalizing p S with
  | node nt name kind args? ih =>
    rw [nodesInScope_node, List.forM_cons, List.append_nil]
    cases args? with
    | none =>
      rw [visitOn, Option.getD_none, nodesInScopeFrom, List.forM_nil, bind_pure_unit]
      exact .withScope _ S
    | some as =>
      exact (Keeps.withScope _ S).bind fun _ =>
        (keeps_visitArgsOn (fun t ht p => ih t ht p (S.below kind)) 0).below

/-- Iteration visits the nodes in pre-order, each with the variables introduced above it. -/
theorem iterate_eq (visit : Visitor K ε m) (t : Tree K) :
    t.iterate visit = forM t.subnodes fun x => visit x.1 x.2 (t.variablesAbove x.1) := by
  have hvisit : visitOn visit [] t [] =
      (forM (t.nodesInScope []) fun x => visit x.1 x.2.1 x.2.2).run >>= fun outcome =>
        pure (outcome, []) := keeps_visitOn visit [] t []
  rw [nodesInScope_eq, List.forM_map] at hvisit
  apply ExceptT.ext
  rw [iterate, ExceptT.run_mk, hvisit, bind_assoc]
  simp

end Tree

namespace Grammar

/-- Generation and scoring give the scope back with which they were entered, whether they succeed
or fail, and come to what they come to in that scope. Iteration visits all nodes in pre-order, and
the scope passed for each is the variables introduced above it, from the outermost to the
innermost. -/
theorem traversals_give_scope_back (g : Grammar Float) (S : Scope Float) :
    (∀ nt names words, Rand.run (g.generateOn nt S names) words =
        let ((outcome, names'), words') := Rand.run (g.generateIn S nt names) words
        (((outcome, S), names'), words')) ∧
      (∀ t, g.logProbabilityOn t S = (g.logProbabilityIn S t, S)) ∧
      ∀ (σ ε : Type) (visit : Tree.Visitor Float ε (StateM σ)) (root : Tree Float),
        root.iterate visit =
          forM root.subnodes fun (p, n) => visit p n (root.variablesAbove p) := by
  refine ⟨fun nt names words => ?_, fun t => g.logProbabilityOn_eq t S,
    fun σ ε visit root => Tree.iterate_eq visit root⟩
  have hkeeps := congrFun (g.keeps_generateOn nt S) names
  rw [hkeeps]
  exact Rand.run_bind _ _ _

end Grammar

end ScopedGrammar
