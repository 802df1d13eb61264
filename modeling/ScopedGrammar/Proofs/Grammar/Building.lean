import ScopedGrammar.Proofs.Grammar.Mass
import ScopedGrammar.Proofs.Grammar.Unpacking

/-!
# Built grammars and their weights

A grammar is built by adding rules to none, each of which is accepted. So the weights of its rules
have passed the check. The weight of using a variable has not: a binder rule may name any number for
it, which becomes the weight of a visible rule below its nodes. This is the only way for a weight
that is not a positive number to become visible in a tree that is read, and where no binder names
such a weight, a log-probability is always a number.
-/
namespace ScopedGrammar

variable {K : Type}

namespace RuleTable

theorem allRules_mention (t : RuleTable K) (nt : String) :
    (t.mention nt).allRules = t.allRules := by
  have hrows : ∀ rows : Rows K, (rows.mention nt).flatMap (·.2) = rows.flatMap (·.2) := by
    intro rows
    induction rows with
    | nil => rfl
    | cons row rows ih =>
      rw [Rows.mention]
      split
      · rfl
      · rw [List.flatMap_cons, List.flatMap_cons, ih]
  exact hrows t.rows

theorem mem_allRules_insert {t : RuleTable K} {r q : Rule K} (hr : r.isVariableUse = false) :
    q ∈ (t.insert r hr).allRules ↔ q ∈ t.allRules ∨ q = r := by
  have hrows : ∀ rows : Rows K,
      q ∈ (rows.insert r).flatMap (·.2) ↔ q ∈ rows.flatMap (·.2) ∨ q = r := by
    intro rows
    induction rows with
    | nil => simp [Rows.insert]
    | cons row rows ih =>
      rw [Rows.insert]
      split
      · simp only [List.flatMap_cons, List.mem_append, List.mem_singleton]
        tauto
      · rw [List.flatMap_cons, List.flatMap_cons, List.mem_append, List.mem_append, ih, or_assoc]
  exact hrows t.rows

end RuleTable

namespace Grammar

section Building

variable [Scalar K] {g g' : Grammar K} {r r' : Rule K}

theorem push_eq_ok {hr : r.isVariableUse = false} : g.push r hr = (g', .ok r') ↔
    validWeight r.weight = true ∧ { g with table := g.table.insert r hr } = g' ∧ r = r' := by
  rw [push]
  split <;> simp_all

theorem validWeight_of_push {hr : r.isVariableUse = false} (h : g.push r hr = (g', .ok r'))
    (hvalid : ∀ q ∈ g.table.allRules, validWeight q.weight = true) :
    ∀ q ∈ g'.table.allRules, validWeight q.weight = true := by
  obtain ⟨hweight, rfl, -⟩ := push_eq_ok.mp h
  intro q hq
  rcases (RuleTable.mem_allRules_insert hr).mp hq with hq | rfl
  · exact hvalid q hq
  · exact hweight

/-- A grammar made from none by additions of rules that were all accepted. -/
inductive Built (start : String) : Grammar K → Prop
  | empty : Built start (.empty start)
  | addRule {g g' : Grammar K} {r : Rule K} {nt name : String} {expansion : Option (List String)}
      {weight : K} (before : Built start g)
      (accepted : g.addRule nt name expansion weight = (g', .ok r)) : Built start g'
  | addBinder {g g' : Grammar K} {r : Rule K} {nt name : String} {expansion : Option (List String)}
      {weight : K} {spec : BinderSpec K} (before : Built start g)
      (accepted : g.addBinder nt name expansion weight spec = (g', .ok r)) : Built start g'

namespace Built

variable {start : String}

theorem validWeight (h : g.Built start) : ∀ q ∈ g.table.allRules, validWeight q.weight = true := by
  induction h with
  | empty => simp [Grammar.empty, RuleTable.empty, RuleTable.allRules]
  | addRule _ haccepted ih => exact validWeight_of_push haccepted ih
  | addBinder _ haccepted ih =>
    exact validWeight_of_push haccepted fun q hq => ih q (RuleTable.allRules_mention .. ▸ hq)

/-- The weight for variables without one of their own is the default. -/
theorem variableWeight_eq (h : g.Built start) : g.variableWeight = Scalar.ofNat 10 := by
  induction h with
  | empty => rfl
  | addRule _ haccepted ih =>
    obtain ⟨-, rfl, -⟩ := push_eq_ok.mp haccepted
    exact ih
  | addBinder _ haccepted ih =>
    obtain ⟨-, rfl, -⟩ := push_eq_ok.mp haccepted
    exact ih

end Built

end Building

section Introduced

variable {g : Grammar K} {S : Scope K} {t n : Tree K} {v : Rule K}

/-- The rule stands for the variable of a fixed binder rule. -/
def Introduces (g : Grammar K) (v : Rule K) : Prop :=
  ∃ q ∈ g.table.allRules, ∃ spec, q.kind = .binder spec ∧ v = g.variableOf spec v.name

theorem Introduces.isVariableUse (h : g.Introduces v) : v.isVariableUse = true := by
  obtain ⟨q, -, spec, -, heq⟩ := h
  rw [heq]
  rfl

theorem Derives.introduces_below (h : g.Derives S t) (hS : ∀ v ∈ S, g.Introduces v) :
    ∀ v ∈ S.below t.kind, g.Introduces v := by
  obtain ⟨⟨r, hr, hinst⟩, -⟩ := derives_iff.mp h
  intro v hv
  rw [Scope.below_eq, List.mem_append, Option.mem_toList] at hv
  rcases hv with hv | hv
  · exact hS v hv
  · exact ⟨r, hinst.makes.exists_binder hr (fun w hw => (hS w hw).isVariableUse) hv⟩

theorem Derives.introduces_above (h : g.Derives S t) (hS : ∀ v ∈ S, g.Introduces v) {p : Place}
    (hn : t.get? p = some n) : ∀ v ∈ S ++ t.variablesAbove p, g.Introduces v := by
  induction p generalizing S t with
  | nil => simpa using hS
  | cons i p ih =>
    obtain ⟨c, hc, hcn⟩ := Tree.get?_cons_eq_some.mp hn
    obtain ⟨-, hargs⟩ := derives_iff.mp h
    have hbelow := ih (hargs c (Tree.mem_args_of_child? hc))
      (h.introduces_below hS) hcn
    rwa [Scope.below_kind, List.append_assoc, ← Tree.variablesAbove_cons hc] at hbelow

end Introduced

section Weights

open Exact

variable {g : Grammar Exact} {S : Scope Exact} {names names' : NameSupply} {t : Tree Exact}

theorem validWeight_iff {w : Exact} : validWeight w = true ↔ w.Positive := by
  rw [validWeight, Bool.and_eq_true, zero_eq]
  cases w with
  | real x => simp [Exact.Positive]
  | inf => simp [Exact.Positive, Scalar.isFinite, Scalar.isInf, Scalar.isNaN, BEq.beq, same]
  | negInf => simp [Exact.Positive]
  | nan => simp [Exact.Positive]

/-- The use weights that a grammar names are positive numbers. -/
def PositiveUses (g : Grammar Exact) : Prop :=
  ∀ q ∈ g.table.allRules, ∀ spec w, q.kind = .binder spec → spec.useWeight = some w → w.Positive

theorem Built.positiveWeights {start : String} (h : g.Built start) (huses : g.PositiveUses) :
    g.PositiveWeights := by
  refine ⟨fun q hq => validWeight_iff.mp (h.validWeight q hq), fun q hq spec hspec => ?_⟩
  cases hw : spec.useWeight with
  | none => exact ⟨10, by norm_num, h.variableWeight_eq⟩
  | some w => exact huses q hq spec w hspec hw

/-- A rule whose weight is no positive number is that of a variable, and its binder names the
weight. -/
theorem Built.positive_or_named {start nt : String} {r : Rule Exact} (h : g.Built start)
    (hS : ∀ v ∈ S, g.Introduces v) (hr : r ∈ g.visibleRules nt S) : r.weight.Positive ∨
      ∃ q ∈ g.table.allRules, ∃ spec, q.kind = .binder spec ∧ spec.useWeight = some r.weight ∧
        r = g.variableOf spec r.name := by
  rcases mem_visibleRules.mp hr with hr | ⟨hr, -⟩
  · exact .inl (validWeight_iff.mp (h.validWeight r (mem_allRules_of_mem_rulesFor hr)))
  · obtain ⟨q, hq, spec, hspec, heq⟩ := hS r hr
    have hweight : r.weight = spec.useWeight.getD g.variableWeight := congrArg Rule.weight heq
    cases hw : spec.useWeight with
    | none =>
      rw [hw] at hweight
      exact .inl ⟨10, by norm_num, hweight.trans h.variableWeight_eq⟩
    | some w =>
      rw [hw] at hweight
      exact .inr ⟨q, hq, spec, hspec, by rw [hw, hweight]; rfl, heq⟩

/-- The root of a tree counts a number where all weights are positive. -/
theorem nodeLogProbability_eq_real (hpos : g.PositiveWeights) (hS : ∀ v ∈ S, v.weight.Positive)
    {lp : Exact} (h : g.nodeLogProbability S t = .ok lp) : ∃ x, lp = real x := by
  rw [nodeLogProbability] at h
  cases hr : g.ruleForNode S t with
  | error e =>
    rw [hr] at h
    cases h
  | ok r =>
    rw [hr] at h
    have hvisible := mem_visibleRules_of_ruleForNode hr
    obtain ⟨w, hw, hweight⟩ := hpos.visible hS r hvisible
    have htotal := visibleWeight_pos hpos hS hvisible
    rw [visibleWeight_eq_real hpos hS, toReal_real] at htotal
    rw [← Except.ok.inj h, visibleWeight_eq_real hpos hS, hweight, log_real hw, log_real htotal,
      real_sub]
    exact ⟨_, rfl⟩

/-- Numbers add up to a number. -/
theorem addArgs_eq_real {as : List (Arg Exact)}
    (hargs : ∀ c, .subtree c ∈ as → ∀ lp, g.logProbabilityIn S c = .ok lp → ∃ x, lp = real x)
    {x : ℝ} {lp : Exact} (h : g.addArgs S (real x) as = .ok lp) : ∃ y, lp = real y := by
  induction as generalizing x with
  | nil => exact ⟨x, (Except.ok.inj h).symm⟩
  | cons a as ih =>
    have hrest {y : ℝ} (h : g.addArgs S (real y) as = .ok lp) :=
      ih (fun c hc => hargs c (List.mem_cons_of_mem _ hc)) h
    cases a with
    | terminal s => exact hrest h
    | subtree c =>
      rw [addArgs] at h
      cases hc : g.logProbabilityIn S c with
      | error e =>
        rw [hc] at h
        cases h
      | ok lp' =>
        rw [hc] at h
        obtain ⟨y, rfl⟩ := hargs c List.mem_cons_self lp' hc
        exact hrest h

/-- The log-probability of a tree is a number if all weights are positive. -/
theorem Weighted.logProbabilityIn_eq_real (h : g.Weighted names S t) (hpos : g.PositiveWeights)
    {lp : Exact} (hlp : g.logProbabilityIn S t = .ok lp) : ∃ x, lp = real x := by
  induction t using Tree.induction generalizing S lp with
  | node nt name kind args? ih =>
    rw [logProbabilityIn_eq_addArgs] at hlp
    cases hroot : g.nodeLogProbability S (.node nt name kind args?) with
    | error e =>
      rw [hroot] at hlp
      cases hlp
    | ok a =>
      rw [hroot] at hlp
      obtain ⟨x, rfl⟩ := nodeLogProbability_eq_real hpos h.positive hroot
      exact addArgs_eq_real (fun c hc lp => ih c hc (h.child hpos hc)) hlp

/-- Where a tree is read in a built grammar, a visible weight is a positive number unless a binder
names it as the weight of its variable. If all that are named are positive numbers, no
log-probability is undefined or infinite. -/
theorem visible_weights_of_unpackFrom {start : String} (hg : g.Built start) {nt text : String}
    (hread : g.unpackFrom nt text names = (.ok t, names')) :
    (∀ p n, t.get? p = some n → ∀ nt', ∀ r ∈ g.visibleRules nt' (.above t p), r.weight.Positive ∨
        ∃ q ∈ g.table.allRules, ∃ spec, q.kind = .binder spec ∧ spec.useWeight = some r.weight ∧
          r = g.variableOf spec r.name) ∧
      (g.PositiveUses → ∀ lp, g.logProbability t = .ok lp → ∃ x, lp = real x) := by
  obtain ⟨levels, rules, hexpanded, -⟩ := of_unpackFrom hread
  have ht : g.Derived names' [] t := hexpanded.derived .nil
  constructor
  · intro p n hn nt' r hr
    have habove := ht.derives.introduces_above (by simp) hn
    exact hg.positive_or_named habove hr
  · intro huses lp hlp
    exact Weighted.logProbabilityIn_eq_real ⟨ht, by simp⟩ (hg.positiveWeights huses) hlp

section Lambdas

/-- Functions of one variable and a constant, with the weight of using the variable if one is
named. -/
noncomputable def lambdas (useWeight : Option Exact) : Grammar Exact where
  start := "E"
  table :=
    ((RuleTable.empty.mention "E").insert
      ⟨"E", "lambda", some ["E"], 1, .binder ⟨"E", none, "y", useWeight⟩⟩ rfl).insert
      ⟨"E", "x", none, 1, .plain⟩ rfl
  variableWeight := Scalar.ofNat 10
  maxDepth := 512

/-- The variable of a function. -/
noncomputable def lambdaVariable (useWeight : Option Exact) : Rule Exact :=
  ⟨"E", NameSupply.nameOf 0, none, useWeight.getD (Scalar.ofNat 10), .variableUse "y"⟩

/-- The function that returns its argument. -/
noncomputable def lambdaIdentity (useWeight : Option Exact) : Tree Exact :=
  .node "E" "lambda" (.binder (lambdaVariable useWeight))
    (some [.subtree (.node "E" (NameSupply.nameOf 0) .variableUse none)])

variable (w : Option Exact)

theorem built_lambdas : (lambdas w).Built "E" := by
  have hone : validWeight (1 : Exact) = true := validWeight_iff.mpr ⟨1, one_pos, rfl⟩
  exact .addRule (.addBinder .empty (push_eq_ok.mpr ⟨hone, rfl, rfl⟩))
    (push_eq_ok.mpr ⟨hone, rfl, rfl⟩)

theorem unpackFrom_lambdaIdentity :
    (lambdas w).unpackFrom "E" "02" .initial = (.ok (lambdaIdentity w), ⟨1⟩) := by rfl

theorem visibleRules_lambdaIdentity :
    (lambdas w).visibleRules "E" (.above (lambdaIdentity w) [0]) =
      (lambdas w).table.allRules ++ [lambdaVariable w] := by rfl

theorem logProbability_lambdaIdentity : (lambdas w).logProbability (lambdaIdentity w) =
    .ok (Scalar.log 1 - Scalar.log (Scalar.sum [1, 1]) +
      (Scalar.log (lambdaVariable w).weight -
        Scalar.log (Scalar.sum [1, 1, (lambdaVariable w).weight]))) := by rfl

/-- Where uses of the variable weigh `2`, the function that returns its argument has a
log-probability. -/
theorem visible_weights_lambdaIdentity :
    let g := lambdas (some (real 2))
    let t := lambdaIdentity (some (real 2))
    g.Built "E" ∧ g.unpackFrom "E" "02" .initial = (.ok t, ⟨1⟩) ∧ g.PositiveUses ∧
      ∃ x, g.logProbability t = .ok (real x) := by
  intro g t
  have huses : g.PositiveUses := by
    intro q hq spec u hspec hu
    rcases (RuleTable.mem_allRules_insert rfl).mp hq with hq | rfl
    · rcases (RuleTable.mem_allRules_insert rfl).mp hq with hq | rfl
      · simp [RuleTable.empty, RuleTable.mention, Rows.mention, RuleTable.allRules] at hq
      · cases hspec
        exact ⟨2, two_pos, (Option.some.inj hu).symm⟩
    · cases hspec
  obtain ⟨-, hreal⟩ := visible_weights_of_unpackFrom (built_lambdas _)
    (unpackFrom_lambdaIdentity (some (real 2)))
  obtain ⟨x, hx⟩ := hreal huses _ (logProbability_lambdaIdentity _)
  exact ⟨built_lambdas _, unpackFrom_lambdaIdentity _, huses, x,
    (logProbability_lambdaIdentity _).trans (congrArg Except.ok hx)⟩

/-- A grammar is built, and a tree is read in it, though uses of a variable weigh `-1`. Below its
binder the variable is visible with that weight, and the tree has an undefined log-probability. -/
theorem not_positive_lambdaIdentity :
    let g := lambdas (some (real (-1)))
    let t := lambdaIdentity (some (real (-1)))
    g.Built "E" ∧ g.unpackFrom "E" "02" .initial = (.ok t, ⟨1⟩) ∧ (t.get? [0]).isSome ∧
      (∃ r ∈ g.visibleRules "E" (.above t [0]), ¬r.weight.Positive) ∧
        g.logProbability t = .ok nan := by
  intro g t
  have hnot : ¬(real (-1)).Positive := by
    rintro ⟨x, hx, heq⟩
    cases heq
    linarith
  have hlog : (Scalar.log (real (-1)) : Exact) = nan := by
    simp [Scalar.log, logarithm]
  refine ⟨built_lambdas _, unpackFrom_lambdaIdentity _, rfl,
    ⟨lambdaVariable (some (real (-1))), ?_, hnot⟩, ?_⟩
  · rw [visibleRules_lambdaIdentity]
    exact List.mem_append_right _ (List.mem_singleton_self _)
  · rw [logProbability_lambdaIdentity]
    show Except.ok (_ + (Scalar.log (real (-1)) - _)) = _
    rw [hlog, nan_sub, add_nan]

end Lambdas

end Weights

end Grammar

end ScopedGrammar
