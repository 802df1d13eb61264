import Mathlib.Data.List.Forall2
import ScopedGrammar.Proofs.Lists
import ScopedGrammar.Proofs.Random.Outcome
import ScopedGrammar.Proofs.Tree.Structure
import ScopedGrammar.Tree.Partial

/-!
# The order of partial trees

A tree matches a pattern if it agrees with it wherever the pattern was not cut. Matching is a
preorder of trees, and every partial tree that is made from a tree, be it by chance or by trimming
the leaves, lies below the tree. So a pattern that is found somewhere in a tree is found in every
tree around it.
-/
namespace ScopedGrammar

/-- An argument matches the argument of a pattern: a subtree any pattern that it has at its root,
and a terminal itself. -/
def Arg.Matches {K : Type} : Arg K → Arg K → Prop
  | .subtree t, q => t.matchesRoot q = true
  | .terminal s, .terminal s' => s = s'
  | .terminal _, .subtree _ => False

namespace Sampler

variable {K α β : Type}

/-- The sampler takes no name and does not fail, and its result has the property, whatever its draws
come to. -/
def Returns (x : Sampler K α) (P : α → Prop) : Prop :=
  ∀ s r s', x.Yields s r s' → s' = s ∧ ∃ a, r = .ok a ∧ P a

namespace Returns

variable {x : Sampler K α} {f : α → Sampler K β} {P : α → Prop} {Q : β → Prop}

theorem pure {a : α} (h : P a) : Returns (Pure.pure a : Sampler K α) P := by
  intro s r s' hr
  obtain ⟨rfl, rfl⟩ := (yields_pure ..).mp hr
  exact ⟨rfl, a, rfl, h⟩

theorem bind (h : x.Returns P) (hf : ∀ a, P a → (f a).Returns Q) : (x >>= f).Returns Q := by
  intro s r s'' hr
  cases r with
  | ok b =>
    obtain ⟨a, s', ha, hb⟩ := (yields_bind_ok ..).mp hr
    obtain ⟨rfl, a', heq, hP⟩ := h _ _ _ ha
    cases heq
    exact hf a hP _ _ _ hb
  | error e =>
    rcases (yields_bind_error ..).mp hr with hx | ⟨a, s', ha, hb⟩
    · obtain ⟨-, a, heq, -⟩ := h _ _ _ hx
      cases heq
    · obtain ⟨rfl, a', heq, hP⟩ := h _ _ _ ha
      cases heq
      exact hf a hP _ _ _ hb

theorem coin [Scalar K] {p : K} (hlow : Scalar.le 0 p = true) (hhigh : Scalar.le p 1 = true) :
    Returns (ScopedGrammar.coin p) fun _ => True := by
  intro s r s' hr
  rw [ScopedGrammar.coin, hlow, hhigh] at hr
  obtain ⟨b, hb⟩ : ∃ b, (Except.ok b, s) = (r, s') := hr
  cases hb
  exact ⟨rfl, b, rfl, trivial⟩

theorem exists_run {x : Sampler Float α} (h : x.Returns P) (s : NameSupply) (words : Words) :
    ∃ a words', Rand.run (x s) words = ((.ok a, s), words') ∧ P a := by
  have hyields := Rand.yields_run (x s) words
  generalize Rand.run (x s) words = outcome at hyields
  obtain ⟨⟨r, s'⟩, words'⟩ := outcome
  obtain ⟨rfl, a, rfl, hP⟩ := h s r s' hyields
  exact ⟨a, words', rfl, hP⟩

end Returns

end Sampler

namespace Tree

variable {K : Type} {s t : Tree K} {q : Arg K} {as bs : List (Arg K)}

theorem matchesRoot_terminal {s : String} : t.matchesRoot (.terminal s) = true ↔ s = t.nonterminal :=
  beq_iff_eq

theorem matchesArgs_iff : matchesArgs as bs = true ↔ List.Forall₂ Arg.Matches as bs := by
  induction as generalizing bs with
  | nil => cases bs <;> simp [matchesArgs]
  | cons a as ih =>
    cases bs with
    | nil => simp [matchesArgs]
    | cons b bs => cases a <;> cases b <;> simp [matchesArgs, Arg.Matches, matchesRoot, ih]

theorem matchesTree_iff : s.matchesTree t = true ↔ s.nonterminal = t.nonterminal ∧
    s.name = t.name ∧ s.args?.isSome = t.args?.isSome ∧ List.Forall₂ Arg.Matches s.args t.args := by
  obtain ⟨nt, name, kind, args?⟩ := s
  obtain ⟨nt', name', kind', args?'⟩ := t
  cases args? <;> cases args?' <;> simp [matchesTree, matchesArgs_iff, and_assoc]

theorem matchesTree_self (t : Tree K) : t.matchesTree t = true := by
  induction t using induction with
  | node nt name kind args? ih =>
    refine matchesTree_iff.mpr ⟨rfl, rfl, rfl, List.forall₂_same.mpr fun a ha => ?_⟩
    cases a with
    | subtree c => exact ih c ha
    | terminal s => exact rfl

/-- What a tree matches, it matches wherever that is cut further. -/
theorem matchesRoot_trans (h : s.matchesRoot (.subtree t) = true) (h' : t.matchesRoot q = true) :
    s.matchesRoot q = true := by
  induction s using induction generalizing t q with
  | node nt name kind args? ih =>
    obtain ⟨hnt, hname, hsome, hargs⟩ := matchesTree_iff.mp h
    cases q with
    | terminal x => exact matchesRoot_terminal.mpr ((matchesRoot_terminal.mp h').trans hnt.symm)
    | subtree u =>
      obtain ⟨hnt', hname', hsome', hargs'⟩ := matchesTree_iff.mp h'
      refine matchesTree_iff.mpr ⟨hnt.trans hnt', hname.trans hname', hsome.trans hsome', ?_⟩
      refine forall₂_trans hargs hargs' fun a ha b c hab hbc => ?_
      cases a with
      | subtree v =>
        cases b with
        | subtree w => exact ih v ha hab hbc
        | terminal x =>
          -- below a cut nothing but the symbol is left to match
          cases c with
          | subtree w => exact hbc.elim
          | terminal y => exact matchesRoot_terminal.mpr (hbc ▸ matchesRoot_terminal.mp hab)
      | terminal x =>
        cases b with
        | subtree w => exact hab.elim
        | terminal y => exact hab ▸ hbc

theorem matchesArgs_trimLeavesArgs
    (h : ∀ c, .subtree c ∈ as → c.matchesRoot c.trimLeaves = true) :
    List.Forall₂ Arg.Matches as (trimLeavesArgs as) := by
  induction as with
  | nil => exact .nil
  | cons a as ih =>
    have hrest := ih fun c hc => h c (List.mem_cons_of_mem a hc)
    cases a with
    | subtree c => exact .cons (h c List.mem_cons_self) hrest
    | terminal x => exact .cons rfl hrest

/-- A tree matches what is left of it without its leaves. -/
theorem matchesRoot_trimLeaves (t : Tree K) : t.matchesRoot t.trimLeaves = true := by
  induction t using induction with
  | node nt name kind args? ih =>
    cases args? with
    | none => exact matchesRoot_terminal.mpr rfl
    | some as =>
      rw [trimLeaves]
      split
      · exact matchesRoot_terminal.mpr rfl
      · exact matchesTree_iff.mpr ⟨rfl, rfl, rfl, matchesArgs_trimLeavesArgs ih⟩

section Cutting

variable [Scalar K] {p : K}

theorem returns_randomPartialArgs (hlow : Scalar.le 0 p = true) (hhigh : Scalar.le p 1 = true)
    (h : ∀ c, .subtree c ∈ as →
      (randomPartial p c).Returns fun u => c.matchesRoot (.subtree u) = true) :
    (randomPartialArgs p as).Returns fun bs => List.Forall₂ Arg.Matches as bs := by
  induction as with
  | nil => exact .pure .nil
  | cons a as ih =>
    have hrest := ih fun c hc => h c (List.mem_cons_of_mem a hc)
    cases a with
    | terminal x => exact hrest.bind fun bs hbs => .pure (.cons rfl hbs)
    | subtree c =>
      have hbehind : ∀ b, Arg.Matches (.subtree c) b → Sampler.Returns (do
          let bs ← randomPartialArgs p as
          Pure.pure (b :: bs)) fun bs => List.Forall₂ Arg.Matches (.subtree c :: as) bs :=
        fun b hb => hrest.bind fun bs hbs => .pure (.cons hb hbs)
      rw [randomPartialArgs]
      refine (Sampler.Returns.coin hlow hhigh).bind fun cut _ => ?_
      cases cut with
      | true =>
        simp only [if_true, pure_bind]
        exact hbehind _ (matchesRoot_terminal.mpr rfl)
      | false =>
        simp only [Bool.false_eq_true, if_false, pure_bind]
        exact (h c List.mem_cons_self).bind fun u hu => hbehind _ hu

theorem returns_randomPartial (hlow : Scalar.le 0 p = true) (hhigh : Scalar.le p 1 = true)
    (t : Tree K) : (randomPartial p t).Returns fun u => t.matchesRoot (.subtree u) = true := by
  induction t using induction with
  | node nt name kind args? ih =>
    cases args? with
    | none => exact .pure (matchesTree_self _)
    | some as =>
      refine (returns_randomPartialArgs hlow hhigh ih).bind fun bs hbs => .pure ?_
      exact matchesTree_iff.mpr ⟨rfl, rfl, rfl, hbs⟩

end Cutting

theorem hasMatch_iff : t.hasMatch q = true ↔ ∃ p n, t.get? p = some n ∧ n.matchesRoot q = true := by
  simp [hasMatch, mem_subnodes]

theorem hasMatch_of_get? {p : Place} (hn : s.get? p = some t) (h : t.hasMatch q = true) :
    s.hasMatch q = true := by
  obtain ⟨p', n, hp', hmatch⟩ := hasMatch_iff.mp h
  exact hasMatch_iff.mpr ⟨p ++ p', n, get?_trans hn hp', hmatch⟩

/-- Matching is reflexive and transitive. With a probability in the unit interval a partial tree is
made on every stream of words and whatever the draws come to, and the tree matches it; it also
matches what is left without its leaves. What is found in a subtree is found in the tree. -/
theorem matching_preorder :
    (∀ t : Tree K, t.matchesRoot (.subtree t) = true) ∧
      (∀ (s t : Tree K) (q : Arg K), s.matchesRoot (.subtree t) = true → t.matchesRoot q = true →
        s.matchesRoot q = true) ∧
      (∀ [Scalar K] (p : K) (t : Tree K), Scalar.le 0 p = true → Scalar.le p 1 = true →
        (randomPartial p t).Returns fun u => t.matchesRoot (.subtree u) = true) ∧
      (∀ (p : Float) (t : Tree Float) (names : NameSupply) (words : Words),
        Scalar.le 0 p = true → Scalar.le p 1 = true →
          ∃ u words', Rand.run (randomPartial p t names) words = ((.ok u, names), words') ∧
            t.matchesRoot (.subtree u) = true) ∧
      (∀ t : Tree K, t.matchesRoot t.trimLeaves = true) ∧
      ∀ (s t : Tree K) (p : Place) (q : Arg K), s.get? p = some t → t.hasMatch q = true →
        s.hasMatch q = true := by
  refine ⟨matchesTree_self, fun s t q => matchesRoot_trans, fun p t hlow hhigh => ?_,
    fun p t names words hlow hhigh => ?_, matchesRoot_trimLeaves, fun s t p q => hasMatch_of_get?⟩
  · exact returns_randomPartial hlow hhigh t
  · exact (returns_randomPartial hlow hhigh t).exists_run names words

/-- An application of an application is cut at random. It matches what is left when its function is
cut off, so also what is left when the argument is cut off as well, and that is found in a tree
around it. -/
theorem matching_preorder_application :
    let constant : Tree Float := .node "T" "c" .plain none
    let inner : Tree Float := .node "T" "app" .plain (some [.subtree constant, .subtree constant])
    let outer : Tree Float := .node "T" "app" .plain (some [.subtree inner, .subtree constant])
    let partly : Tree Float := .node "T" "app" .plain (some [.terminal "T", .subtree constant])
    let cut : Arg Float := .subtree (.node "T" "app" .plain (some [.terminal "T", .terminal "T"]))
    let around : Tree Float := .node "T" "app" .plain (some [.subtree constant, .subtree outer])
    (Scalar.le 0 (0.5 : Float) = true ∧ Scalar.le (0.5 : Float) 1 = true ∧
        ∃ u words', Rand.run (randomPartial 0.5 outer .initial) (.ofList [3, 1] 7) =
            ((.ok u, .initial), words') ∧ outer.matchesRoot (.subtree u) = true) ∧
      (outer.matchesRoot (.subtree partly) = true ∧ partly.matchesRoot cut = true ∧
        outer.matchesRoot cut = true) ∧
      around.get? [1] = some outer ∧ outer.hasMatch cut = true ∧ around.hasMatch cut = true := by
  intro constant inner outer partly cut around
  obtain ⟨-, htrans, -, hrun, -, hinherit⟩ := matching_preorder (K := Float)
  have hlow : Scalar.le 0 (0.5 : Float) = true := by decide
  have hhigh : Scalar.le (0.5 : Float) 1 = true := by decide
  have hpartly : outer.matchesRoot (.subtree partly) = true := by decide
  have hcut : partly.matchesRoot cut = true := by decide
  have hfound : outer.hasMatch cut = true := by decide
  exact ⟨⟨hlow, hhigh, hrun 0.5 outer .initial (.ofList [3, 1] 7) hlow hhigh⟩,
    ⟨hpartly, hcut, htrans outer partly cut hpartly hcut⟩, rfl, hfound,
    hinherit around outer [1] cut rfl hfound⟩

end Tree

end ScopedGrammar
