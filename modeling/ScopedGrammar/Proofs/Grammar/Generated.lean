import ScopedGrammar.Grammar.Generation
import ScopedGrammar.Proofs.Grammar.Freshness
import ScopedGrammar.Proofs.Random.Outcome

/-!
# Generated trees

The expansion of a nonterminal draws one rule for each node, in pre-order. `expandTraced` makes the
same draws and also returns the rules. What it comes to is a tree of the nonterminal within the
limit of the depth whose binders have the names just issued, and each rule drawn is visible in the
scope of its node, of which the node is an instance. So the tree is derived, and scoring finds the
rules that were drawn.
-/
namespace ScopedGrammar

variable {K : Type}

namespace Grammar

section Tracing

variable [Scalar K]

/-- No node is expanded where there is no room for one. -/
theorem expand_full (g : Grammar K) (levels : Nat) (scope : Scope K) (nt : String) :
    g.expand levels (some 0) scope nt = throw .sizeExceeded := by
  cases levels <;> rfl

/-- Where there is room for a node, it is made by a rule drawn. -/
theorem expand_succ (g : Grammar K) (levels : Nat) {room : Option Nat} (hroom : room ≠ some 0)
    (scope : Scope K) (nt : String) : g.expand (levels + 1) room scope nt = (do
      let r ← g.sampleRule nt scope
      let kind ← Sampler.ofNaming (g.kindOf r)
      match r.expansion with
      | none => pure (.node r.nonterminal r.name kind none, room.map (· - 1))
      | some symbols => do
          let (as, room) ← expand.expandArgs g (g.expand levels) (scope.below kind)
            (room.map (· - 1)) symbols
          pure (.node r.nonterminal r.name kind (some as), room)) := by
  cases room with
  | none => rfl
  | some nodes =>
    cases nodes with
    | zero => exact absurd rfl hroom
    | succ nodes => rfl

/-- Expand a nonterminal within some levels, and return the rules drawn as well, in pre-order. -/
def expandTraced (g : Grammar K) : Nat → Scope K → String → Sampler K (Tree K × List (Rule K))
  | 0, _, _ => throw .sizeExceeded
  | levels + 1, scope, nt => do
      let r ← g.sampleRule nt scope
      let kind ← Sampler.ofNaming (g.kindOf r)
      match r.expansion with
      | none => pure (.node r.nonterminal r.name kind none, [r])
      | some symbols => do
          let (as, rules) ← expandArgsTraced (g.expandTraced levels) (scope.below kind) symbols
          pure (.node r.nonterminal r.name kind (some as), r :: rules)
where
  /-- Fill the arguments in, and return the rules drawn for them. -/
  expandArgsTraced (expand : Scope K → String → Sampler K (Tree K × List (Rule K)))
      (scope : Scope K) : List String → Sampler K (List (Arg K) × List (Rule K))
    | [] => pure ([], [])
    | s :: symbols => do
        if g.isNonterminal s then
          let (t, rules) ← expand scope s
          let (as, others) ← expandArgsTraced expand scope symbols
          pure (.subtree t :: as, rules ++ others)
        else
          let (as, rules) ← expandArgsTraced expand scope symbols
          pure (.terminal s :: as, rules)

/-- Make a node by a rule, given how its arguments are filled in. -/
def makeNode (g : Grammar K)
    (fill : Scope K → List String → Sampler K (List (Arg K) × List (Rule K))) (scope : Scope K)
    (r : Rule K) : Sampler K (Tree K × List (Rule K)) := do
  let kind ← Sampler.ofNaming (g.kindOf r)
  match r.expansion with
  | none => pure (.node r.nonterminal r.name kind none, [r])
  | some symbols => do
      let (as, rules) ← fill (scope.below kind) symbols
      pure (.node r.nonterminal r.name kind (some as), r :: rules)

theorem expandTraced_succ (g : Grammar K) (levels : Nat) (scope : Scope K) (nt : String) :
    g.expandTraced (levels + 1) scope nt = g.sampleRule nt scope >>=
      g.makeNode (expandTraced.expandArgsTraced g (g.expandTraced levels)) scope :=
  rfl

/-- Generate a tree with the rules drawn. -/
def generateTraced (g : Grammar K) (scope : Scope K) (nt : String) :
    Sampler K (Tree K × List (Rule K)) :=
  g.expandTraced (g.maxDepth + 1) scope nt

omit [Scalar K] in
theorem expandArgs_eq_traced (g : Grammar K)
    (fill : Option Nat → Scope K → String → Sampler K (Tree K × Option Nat))
    (traced : Scope K → String → Sampler K (Tree K × List (Rule K)))
    (h : ∀ scope nt, fill none scope nt = traced scope nt >>= fun x => pure (x.1, none))
    (scope : Scope K) (symbols : List String) :
    expand.expandArgs g fill scope none symbols =
      expandTraced.expandArgsTraced g traced scope symbols >>= fun x => pure (x.1, none) := by
  induction symbols with
  | nil => rfl
  | cons s symbols ih =>
    simp only [expand.expandArgs, expandTraced.expandArgsTraced]
    split
    · simp only [h, ih, bind_assoc, pure_bind]
    · simp only [ih, bind_assoc, pure_bind]

/-- The rules drawn do not show in an expansion without a limit on the number of nodes. -/
theorem expand_eq_traced (g : Grammar K) (levels : Nat) (scope : Scope K) (nt : String) :
    g.expand levels none scope nt =
      g.expandTraced levels scope nt >>= fun x => pure (x.1, none) := by
  induction levels generalizing scope nt with
  | zero => rfl
  | succ levels ih =>
    simp only [expand, expandTraced, bind_assoc, Option.map_none]
    congr 1
    funext r
    congr 1
    funext kind
    cases r.expansion with
    | none => simp only [pure_bind]
    | some symbols => simp only [g.expandArgs_eq_traced _ _ ih, bind_assoc, pure_bind]

theorem generateIn_eq_traced (g : Grammar K) (scope : Scope K) (nt : String) :
    g.generateIn scope nt = g.generateTraced scope nt >>= fun x => pure x.1 := by
  simp only [generateIn, generateTraced, expand_eq_traced, bind_assoc, pure_bind]

end Tracing

variable (g : Grammar K)

/-- Every nonterminal argument of every node has been expanded, and nothing else has. `IsInstance`
compares symbols, so it does not tell a subtree from a nonterminal that was left as a terminal. -/
inductive Complete (g : Grammar K) : Tree K → Prop
  | node {t : Tree K} (filled : ∀ a ∈ t.args, a.asTree?.isSome = g.isNonterminal a.symbol)
      (args : ∀ c, .subtree c ∈ t.args → g.Complete c) : g.Complete t

/-- A tree that can be generated in a scope: each node is an instance of a rule visible in its scope,
with a subtree for every nonterminal of the rule, and all names are distinct and issued. What holds
of trees that are only derived allows a nonterminal to be left as a terminal as well. -/
structure Generable (g : Grammar K) (names : NameSupply) (scope : Scope K) (t : Tree K) : Prop
    extends g.Derived names scope t where
  complete : g.Complete t

/-- A rule that is visible in the scope of a node and of which the node is an instance. -/
def MadeBy (r : Rule K) (node : Place × Tree K × Scope K) : Prop :=
  r ∈ g.visibleRules node.2.1.nonterminal node.2.2 ∧ g.IsInstance r node.2.1

/-- What a tree is like that was expanded with some rules while the supply of names went from one
state to another. -/
structure Expanded (levels : Nat) (scope : Scope K) (nt : String) (s : NameSupply) (t : Tree K)
    (rules : List (Rule K)) (s' : NameSupply) : Prop where
  nonterminal_eq : t.nonterminal = nt
  depth_lt : t.depth < levels
  issued_le : s.issued ≤ s'.issued
  introducedNames_eq : t.introducedNames = s.taken s'
  complete : g.Complete t
  madeBy : List.Forall₂ g.MadeBy rules (t.nodesInScope scope)

/-- What a list of arguments is like that was filled in with some rules. -/
structure ExpandedArgs (levels : Nat) (scope : Scope K) (symbols : List String) (s : NameSupply)
    (as : List (Arg K)) (rules : List (Rule K)) (s' : NameSupply) : Prop where
  symbols_eq : as.map Arg.symbol = symbols
  depth_lt : ∀ t, .subtree t ∈ as → t.depth < levels
  issued_le : s.issued ≤ s'.issued
  introducedNames_eq : Tree.introducedNamesArgs as = s.taken s'
  filled : ∀ a ∈ as, a.asTree?.isSome = g.isNonterminal a.symbol
  complete : ∀ t, .subtree t ∈ as → g.Complete t
  madeBy : ∀ i, List.Forall₂ g.MadeBy rules (Tree.nodesInScopeFrom scope i as)

variable {g}

theorem Complete.at_place {t n : Tree K} {p : Place} (h : g.Complete t) (hn : t.get? p = some n) :
    g.Complete n := by
  induction p generalizing t with
  | nil =>
    obtain rfl : t = n := by simpa using hn
    exact h
  | cons i p ih =>
    obtain ⟨c, hc, hcn⟩ := Tree.get?_cons_eq_some.mp hn
    obtain ⟨-, hargs⟩ := h
    exact ih (hargs c (Tree.mem_args_of_child? hc)) hcn

theorem kindOf_spec (g : Grammar K) (r : Rule K) (s : NameSupply) :
    g.Makes r (g.kindOf r s).1 ∧ s.issued ≤ (g.kindOf r s).2.issued ∧
      ((g.kindOf r s).1.introduced?.map (·.name)).toList = s.taken (g.kindOf r s).2 := by
  unfold Makes kindOf
  cases r.kind with
  | plain => exact ⟨rfl, Nat.le_refl _, (s.taken_self).symm⟩
  | variableUse stem => exact ⟨rfl, Nat.le_refl _, (s.taken_self).symm⟩
  | binder spec =>
    refine ⟨⟨s.next.1, rfl⟩, Nat.le_succ _, ?_⟩
    change [s.next.1] = s.taken s.next.2
    rw [NameSupply.taken_next (Nat.le_refl _), NameSupply.taken_self]

/-- A rule that has just been given a kind adds a new name to the scope below. -/
theorem kindOf_fresh (g : Grammar K) (r : Rule K) {scope : Scope K} {s : NameSupply}
    (hscope : scope.WellNamed s) :
    (∀ v, (g.kindOf r s).1.introduced? = some v → v.name ∉ scope.map (·.name)) ∧
      (scope.below (g.kindOf r s).1).WellNamed (g.kindOf r s).2 := by
  obtain ⟨hmakes, hissued, hnames⟩ := g.kindOf_spec r s
  generalize g.kindOf r s = step at hmakes hissued hnames
  obtain ⟨kind, s'⟩ := step
  have hnew : ∀ v, kind.introduced? = some v → v.name ∉ scope.map (·.name) := by
    intro v hv hmem
    obtain ⟨u, hu, heq⟩ := List.mem_map.mp hmem
    have htaken : v.name ∈ s.taken s' := by
      rw [← hnames]
      simp [hv]
    exact NameSupply.not_issued_of_mem_taken htaken (heq ▸ hscope.issued u hu)
  refine ⟨hnew, ?_⟩
  rw [Scope.below_eq]
  cases hv : kind.introduced? with
  | none => simpa using hscope.mono hissued
  | some v =>
    have htaken : v.name ∈ s.taken s' := by
      rw [← hnames]
      simp [hv]
    exact (hscope.mono hissued).append_singleton (hmakes.isVariableUse_introduced hv)
      (NameSupply.issued_of_mem_taken htaken) (hnew v hv)

section Building

variable {levels : Nat} {scope : Scope K} {nt : String} {s s₁ s' : NameSupply} {r : Rule K}
  {symbol : String} {symbols : List String} {as : List (Arg K)} {rules rules' : List (Rule K)}
  {t : Tree K}

theorem ExpandedArgs.nil : g.ExpandedArgs levels scope [] s [] [] s :=
  ⟨rfl, by simp, Nat.le_refl _, (NameSupply.taken_self _).symm, by simp, by simp, fun _ => .nil⟩

theorem ExpandedArgs.subtree (hnt : g.isNonterminal symbol = true)
    (ht : g.Expanded levels scope symbol s t rules s₁)
    (has : g.ExpandedArgs levels scope symbols s₁ as rules' s') :
    g.ExpandedArgs levels scope (symbol :: symbols) s (.subtree t :: as) (rules ++ rules') s' := by
  refine ⟨?_, ?_, Nat.le_trans ht.issued_le has.issued_le, ?_, ?_, ?_, fun i => ?_⟩
  · rw [List.map_cons, has.symbols_eq, Arg.symbol, ht.nonterminal_eq]
  · simpa using ⟨ht.depth_lt, has.depth_lt⟩
  · rw [Tree.introducedNamesArgs, ht.introducedNames_eq, has.introducedNames_eq,
      NameSupply.taken_append ht.issued_le has.issued_le]
  · simpa [Arg.asTree?, Arg.symbol, ht.nonterminal_eq, hnt] using has.filled
  · simpa using ⟨ht.complete, has.complete⟩
  · refine List.rel_append ?_ (has.madeBy (i + 1))
    exact List.forall₂_map_right_iff.mpr ht.madeBy

theorem ExpandedArgs.terminal (hnt : ¬ g.isNonterminal symbol = true)
    (has : g.ExpandedArgs levels scope symbols s as rules s') :
    g.ExpandedArgs levels scope (symbol :: symbols) s (.terminal symbol :: as) rules s' := by
  refine ⟨?_, ?_, has.issued_le, has.introducedNames_eq, ?_, ?_, fun i => has.madeBy (i + 1)⟩
  · rw [List.map_cons, has.symbols_eq, Arg.symbol]
  · simpa using has.depth_lt
  · simpa [Arg.asTree?, Arg.symbol, hnt] using has.filled
  · simpa using has.complete

theorem Expanded.leaf (hvisible : r ∈ g.visibleRules nt scope) (hexp : r.expansion = none) :
    g.Expanded (levels + 1) scope nt s (.node r.nonterminal r.name (g.kindOf r s).1 none) [r]
      (g.kindOf r s).2 := by
  obtain ⟨hmakes, hissued, hnames⟩ := g.kindOf_spec r s
  have hnt := nonterminal_of_mem_visibleRules hvisible
  refine ⟨hnt, by simp [Tree.depth], hissued, ?_, .node (by simp) (by simp), ?_⟩
  · simpa [Tree.introducedNames_node, Tree.introducedNamesArgs] using hnames
  · refine .cons ⟨by simpa [hnt] using hvisible, ⟨?_, hmakes⟩⟩ .nil
    simp [Rule.signature, hexp]

theorem Expanded.node (hvisible : r ∈ g.visibleRules nt scope) (hexp : r.expansion = some symbols)
    (hargs : g.ExpandedArgs levels (scope.below (g.kindOf r s).1) symbols (g.kindOf r s).2 as
      rules s') :
    g.Expanded (levels + 1) scope nt s (.node r.nonterminal r.name (g.kindOf r s).1 (some as))
      (r :: rules) s' := by
  obtain ⟨hmakes, hissued, hnames⟩ := g.kindOf_spec r s
  have hnt := nonterminal_of_mem_visibleRules hvisible
  refine ⟨hnt, ?_, Nat.le_trans hissued hargs.issued_le, ?_, ?_, ?_⟩
  · exact Tree.depth_lt_succ_iff.mpr hargs.depth_lt
  · rw [Tree.introducedNames_node, hnames, Option.getD_some, hargs.introducedNames_eq,
      NameSupply.taken_append hissued hargs.issued_le]
  · exact .node hargs.filled hargs.complete
  · rw [Tree.nodesInScope_node]
    refine .cons ⟨by simpa [hnt] using hvisible, ⟨?_, hmakes⟩⟩ (hargs.madeBy 0)
    simp [Rule.signature, hexp, hargs.symbols_eq]

end Building

theorem derives_of_madeBy {scope : Scope K} {t : Tree K}
    (h : ∀ x ∈ t.nodesInScope scope, ∃ r, g.MadeBy r x) : g.Derives scope t := by
  induction t using Tree.induction generalizing scope with
  | node nt name kind args? ih =>
    obtain ⟨r, hr, hinst⟩ := h _ (Tree.root_mem_nodesInScope _ scope)
    refine .node r hr hinst fun c hc => ih c hc fun ⟨p, n, S⟩ hx => ?_
    obtain ⟨q, hq⟩ := Tree.exists_mem_nodesInScope hc hx
    exact h (q, n, S) hq

theorem Expanded.derived {levels : Nat} {scope : Scope K} {nt : String} {s s' : NameSupply}
    {t : Tree K} {rules : List (Rule K)} (h : g.Expanded levels scope nt s t rules s')
    (hscope : scope.WellNamed s) : g.Derived s' scope t := by
  refine ⟨derives_of_madeBy fun x hx => ?_, ⟨?_, ?_, ?_⟩, hscope.mono h.issued_le⟩
  · obtain ⟨r, -, hr⟩ := exists_of_forall₂ h.madeBy x hx
    exact ⟨r, hr⟩
  · exact h.introducedNames_eq ▸ NameSupply.nodup_taken s s'
  · exact fun x hx => NameSupply.issued_of_mem_taken (h.introducedNames_eq ▸ hx)
  · intro x hx hmem
    obtain ⟨v, hv, rfl⟩ := List.mem_map.mp hmem
    exact NameSupply.not_issued_of_mem_taken (h.introducedNames_eq ▸ hx) (hscope.issued v hv)

theorem Expanded.ruleForNode_eq {levels : Nat} {scope : Scope K} {nt : String}
    {s s' : NameSupply} {t : Tree K} {rules : List (Rule K)}
    (h : g.Expanded levels scope nt s t rules s') (hscope : scope.WellNamed s)
    (hdist : g.DistinctSignatures) (hres : g.NoReservedNames) :
    List.Forall₂ (fun r (x : Place × Tree K) =>
      g.ruleForNode (scope ++ t.variablesAbove x.1) x.2 = .ok r) rules t.subnodes := by
  have hderived := h.derived hscope
  have hmade := h.madeBy
  rw [Tree.nodesInScope_eq, List.forall₂_map_right_iff] at hmade
  refine forall₂_imp_of_mem hmade fun r _ ⟨p, n⟩ hx ⟨hr, hinst⟩ => ?_
  exact ruleForNode_eq_ok hdist hres (hderived.at_place (Tree.mem_subnodes.mp hx)).wellNamed hr
    hinst

section Outcomes

variable [Scalar K]

theorem of_yields_sampleRule {nt : String} {scope : Scope K} {s s' : NameSupply} {r : Rule K}
    (h : (g.sampleRule nt scope).Yields s (.ok r) s') : r ∈ g.visibleRules nt scope ∧ s' = s := by
  simp only [sampleRule] at h
  split at h
  · simp at h
  · obtain ⟨r?, s₁, hr, hget⟩ := (Sampler.yields_bind_ok ..).mp h
    obtain ⟨rfl, hmem⟩ := mem_of_yields_weightedChoice hr
    obtain ⟨heq, rfl⟩ := (Sampler.yields_getOrFail ..).mp hget
    cases r? with
    | none => cases heq
    | some r' =>
      cases heq
      exact ⟨hmem r rfl, rfl⟩

theorem expandedArgs_of_yields {levels : Nat}
    (ih : ∀ {scope nt s t rules s'},
      (g.expandTraced levels scope nt).Yields s (.ok (t, rules)) s' →
        g.Expanded levels scope nt s t rules s')
    {scope : Scope K} {symbols : List String} {s s' : NameSupply} {as : List (Arg K)}
    {rules : List (Rule K)}
    (h : (expandTraced.expandArgsTraced g (g.expandTraced levels) scope symbols).Yields s
      (.ok (as, rules)) s') :
    g.ExpandedArgs levels scope symbols s as rules s' := by
  induction symbols generalizing s as rules with
  | nil =>
    obtain ⟨heq, rfl⟩ := (Sampler.yields_pure ..).mp h
    cases heq
    exact .nil
  | cons symbol symbols ihs =>
    unfold expandTraced.expandArgsTraced at h
    split at h
    · next hnt =>
      obtain ⟨⟨t, rs⟩, s₁, ht, hrest⟩ := (Sampler.yields_bind_ok ..).mp h
      obtain ⟨⟨as, rs'⟩, s₂, has, heq⟩ := (Sampler.yields_bind_ok ..).mp hrest
      obtain ⟨heq, rfl⟩ := (Sampler.yields_pure ..).mp heq
      cases heq
      exact .subtree hnt (ih ht) (ihs has)
    · next hnt =>
      obtain ⟨⟨as, rs⟩, s₁, has, heq⟩ := (Sampler.yields_bind_ok ..).mp h
      obtain ⟨heq, rfl⟩ := (Sampler.yields_pure ..).mp heq
      cases heq
      exact .terminal hnt (ihs has)

/-- Whatever an expansion comes to is as it should be. -/
theorem expanded_of_yields {levels : Nat} {scope : Scope K} {nt : String} {s s' : NameSupply}
    {t : Tree K} {rules : List (Rule K)}
    (h : (g.expandTraced levels scope nt).Yields s (.ok (t, rules)) s') :
    g.Expanded levels scope nt s t rules s' := by
  induction levels generalizing scope nt s t rules s' with
  | zero => simp [expandTraced] at h
  | succ levels ih =>
    obtain ⟨r, s₁, hr, hnode⟩ := (Sampler.yields_bind_ok ..).mp h
    obtain ⟨hvisible, rfl⟩ := of_yields_sampleRule hr
    obtain ⟨kind, s₂, hkind, hfill⟩ := (Sampler.yields_bind_ok ..).mp hnode
    obtain ⟨heq, rfl⟩ := (Sampler.yields_ofNaming ..).mp hkind
    cases heq
    cases hexp : r.expansion with
    | none =>
      rw [hexp] at hfill
      obtain ⟨heq, rfl⟩ := (Sampler.yields_pure ..).mp hfill
      cases heq
      exact .leaf hvisible hexp
    | some symbols =>
      rw [hexp] at hfill
      obtain ⟨⟨as, rs⟩, s₃, has, heq⟩ := (Sampler.yields_bind_ok ..).mp hfill
      obtain ⟨heq, rfl⟩ := (Sampler.yields_pure ..).mp heq
      cases heq
      exact .node hvisible hexp (expandedArgs_of_yields ih has)

theorem of_yields_generateIn {scope : Scope K} {nt : String} {s s' : NameSupply} {t : Tree K}
    (h : (g.generateIn scope nt).Yields s (.ok t) s') :
    ∃ rules, g.Expanded (g.maxDepth + 1) scope nt s t rules s' := by
  rw [generateIn_eq_traced] at h
  obtain ⟨⟨t', rules⟩, s₁, hx, hpure⟩ := (Sampler.yields_bind_ok ..).mp h
  obtain ⟨heq, rfl⟩ := (Sampler.yields_pure ..).mp hpure
  cases heq
  exact ⟨rules, expanded_of_yields hx⟩

end Outcomes

theorem isNonterminal_terms [Scalar K] : (terms : Grammar K).isNonterminal "T" = true := by
  simp [isNonterminal, nonterminals, terms, RuleTable.nonterminals, RuleTable.insert,
    Rows.mem_nonterminals_insert]

theorem complete_constantTerm [Scalar K] : (terms : Grammar K).Complete constantTerm :=
  .node (by simp [constantTerm]) (by simp [constantTerm])

theorem complete_identityTerm [Scalar K] : (terms : Grammar K).Complete identityTerm := by
  refine .node ?_ ?_
  · simp [identityTerm, Arg.asTree?, Arg.symbol, isNonterminal_terms]
  · intro c hc
    obtain rfl : c = .node "T" (NameSupply.nameOf 0) .variableUse none := by
      simpa [identityTerm] using hc
    exact .node (by simp) (by simp)

theorem complete_constantMapTerm [Scalar K] : (terms : Grammar K).Complete constantMapTerm := by
  refine .node ?_ fun c hc => ?_
  · simp [constantMapTerm, constantTerm, Arg.asTree?, Arg.symbol, isNonterminal_terms]
  · obtain rfl : c = constantTerm := by simpa [constantMapTerm] using hc
    exact complete_constantTerm

/-- Generating a tree on any stream of words makes the same draws with and without the rules on
record. If it succeeds, the tree has the nonterminal asked for and stays within the limit of the
depth, its binders have distinct names that the scope does not hold, its variables are used below
their binders or come from the scope, and scoring finds for each node the rule that was drawn. -/
theorem generateIn_wellScoped {g : Grammar Float} (hdist : g.DistinctSignatures)
    (hres : g.NoReservedNames) {scope : Scope Float} {names : NameSupply}
    (hscope : scope.WellNamed names) (nt : String) (words : Words) :
    match Rand.run (g.generateTraced scope nt names) words with
    | ((.ok (t, drawn), names'), words') =>
        Rand.run (g.generateIn scope nt names) words = ((.ok t, names'), words') ∧
          t.nonterminal = nt ∧ t.depth ≤ g.maxDepth ∧
          t.introducedNames.Nodup ∧ (∀ x ∈ t.introducedNames, x ∉ scope.map (·.name)) ∧
          (∀ p n, t.get? p = some n → n.isVariableUse = true →
            n.name ∈ (scope ++ t.variablesAbove p).map (·.name)) ∧
          List.Forall₂ (fun r (x : Place × Tree Float) =>
            g.ruleForNode (scope ++ t.variablesAbove x.1) x.2 = .ok r) drawn t.subnodes ∧
          ∃ lp, g.logProbabilityIn scope t = .ok lp
    | ((.error e, names'), words') =>
        Rand.run (g.generateIn scope nt names) words = ((.error e, names'), words') := by
  have herase : Rand.run (g.generateIn scope nt names) words =
      let outcome := Rand.run (g.generateTraced scope nt names) words
      ((outcome.1.1.map Prod.fst, outcome.1.2), outcome.2) := by
    rw [generateIn_eq_traced, Sampler.bind_apply, Rand.run_bind]
    generalize Rand.run (g.generateTraced scope nt names) words = outcome
    obtain ⟨⟨r | x, names'⟩, words'⟩ := outcome <;> rfl
  have hyields := Rand.yields_run (g.generateTraced scope nt names) words
  revert herase hyields
  generalize Rand.run (g.generateTraced scope nt names) words = outcome
  obtain ⟨⟨e | ⟨t, drawn⟩, names'⟩, words'⟩ := outcome
  · exact fun herase _ => herase
  · intro herase hyields
    have h : g.Expanded (g.maxDepth + 1) scope nt names t drawn names' := expanded_of_yields hyields
    have hderived := h.derived hscope
    exact ⟨herase, h.nonterminal_eq, Nat.le_of_lt_succ h.depth_lt, hderived.fresh.nodup,
      hderived.fresh.disjoint, fun p n => hderived.isVariableUse_at,
      h.ruleForNode_eq hscope hdist hres, hderived.exists_logProbabilityIn hdist hres⟩

/-- Terms in the scope of one variable are generated with at most the allowed depth, and scored. -/
theorem generateIn_wellScoped_terms :
    let v : Rule Float := ⟨"T", NameSupply.nameOf 0, none, 1, .variableUse "y"⟩
    (terms : Grammar Float).DistinctSignatures ∧ (terms : Grammar Float).NoReservedNames ∧
      Scope.WellNamed [v] ⟨1⟩ ∧
      match Rand.run (terms.generateTraced [v] "T" ⟨1⟩) (.ofList [3, 1] 7) with
      | ((.ok (t, _), _), _) => t.depth ≤ 4 ∧ ∃ lp, terms.logProbabilityIn [v] t = .ok lp
      | _ => True := by
  intro v
  have hscope : Scope.WellNamed [v] ⟨1⟩ :=
    ⟨by simp [v, Rule.isVariableUse], by simp, by simpa [v] using ⟨0, by simp, rfl⟩⟩
  have h := generateIn_wellScoped distinctSignatures_terms noReservedNames_terms hscope "T"
    (.ofList [3, 1] 7)
  refine ⟨distinctSignatures_terms, noReservedNames_terms, hscope, ?_⟩
  revert h
  generalize Rand.run (terms.generateTraced [v] "T" ⟨1⟩) (.ofList [3, 1] 7) = outcome
  obtain ⟨⟨e | ⟨t, drawn⟩, names'⟩, words'⟩ := outcome
  · exact fun _ => trivial
  · rintro ⟨-, -, hdepth, -, -, -, -, hscore⟩
    exact ⟨hdepth, hscore⟩

end Grammar

end ScopedGrammar
