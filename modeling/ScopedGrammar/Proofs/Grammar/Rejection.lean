import ScopedGrammar.Proofs.Grammar.Building
import ScopedGrammar.Proofs.Grammar.Enumeration
import ScopedGrammar.Proofs.Grammar.Lookup
import ScopedGrammar.Proofs.Grammar.Scoring

/-!
# Rejected rules

A rule with an invalid weight is not added. If it is plain, the grammar stays as it is. The type of
a binder's variable is mentioned before the weight is looked at, so a rejected binder rule may leave
a nonterminal without rules behind, and nothing else: rules, scores and packed texts stay.

What makes trees has to tell nonterminals from terminals. Where a rule has the symbol among its
arguments, it was a terminal there and has now to be expanded, for which there is no rule. Where no
rule has it, nothing is made in another way.
-/
namespace ScopedGrammar

variable {K : Type}

/-- The symbol is no argument of the rule, nor of the variable that the rule introduces. -/
structure Rule.Omits (r : Rule K) (symbol : String) : Prop where
  symbols : symbol ∉ r.symbols
  boundArgs : ∀ spec, r.kind = .binder spec → symbol ∉ spec.boundArgs.getD []

namespace Grammar

/-- The grammar in which a symbol is a nonterminal, if it was none. -/
def mention (g : Grammar K) (symbol : String) : Grammar K :=
  { g with table := g.table.mention symbol }

section Mention

variable {g : Grammar K} {symbol : String}

theorem isNonterminal_mention (g : Grammar K) (symbol x : String) :
    (g.mention symbol).isNonterminal x = (g.isNonterminal x || x == symbol) := by
  rw [Bool.eq_iff_iff]
  simp only [isNonterminal, List.contains_iff_mem, Bool.or_eq_true, beq_iff_eq]
  exact Rows.mem_nonterminals_mention

theorem isNonterminal_mention_of_ne {x : String} (h : x ≠ symbol) :
    (g.mention symbol).isNonterminal x = g.isNonterminal x := by
  rw [isNonterminal_mention, beq_eq_false_iff_ne.mpr h, Bool.or_false]

theorem mention_eq_self : g.mention symbol = g ↔ g.isNonterminal symbol = true := by
  constructor
  · intro h
    rw [← h, isNonterminal_mention, BEq.rfl, Bool.or_true]
  · intro h
    have hrows : g.table.rows.mention symbol = g.table.rows :=
      Rows.mention_of_mem (List.contains_iff_mem.mp h)
    obtain ⟨start, ⟨rows, index, _, _, _, _⟩, weight, depth⟩ := g
    simp only [mention, RuleTable.mention] at hrows ⊢
    simp only [hrows]

theorem nonterminals_mention (g : Grammar K) (symbol : String) : (g.mention symbol).nonterminals =
    if g.isNonterminal symbol then g.nonterminals else g.nonterminals ++ [symbol] := by
  simp only [isNonterminal, List.contains_iff_mem]
  exact Rows.nonterminals_mention

theorem rulesFor_mention (g : Grammar K) (symbol nt : String) :
    (g.mention symbol).table.rulesFor nt = g.table.rulesFor nt :=
  Rows.rulesFor_mention

theorem kindOf_mention (g : Grammar K) (symbol : String) (r : Rule K) :
    (g.mention symbol).kindOf r = g.kindOf r :=
  rfl

theorem visibleRules_mention (g : Grammar K) (symbol nt : String) (scope : Scope K) :
    (g.mention symbol).visibleRules nt scope = g.visibleRules nt scope := by
  rw [visibleRules, rulesFor_mention, visibleRules]

theorem ruleForNode_mention (g : Grammar K) (symbol : String) (scope : Scope K) (t : Tree K) :
    (g.mention symbol).ruleForNode scope t = g.ruleForNode scope t := by
  have hfound : (g.mention symbol).table.withSignature t.signature =
      g.table.withSignature t.signature := by
    rw [RuleTable.withSignature_eq, RuleTable.withSignature_eq, rulesFor_mention]
  rw [ruleForNode, hfound, ruleForNode]

theorem logProbabilityIn_mention [Scalar K] (g : Grammar K) (symbol : String) (scope : Scope K)
    (t : Tree K) :
    (g.mention symbol).logProbabilityIn scope t = g.logProbabilityIn scope t := by
  refine logProbabilityIn_congr (fun S n => ?_) scope t
  rw [nodeLogProbability, ruleForNode_mention, visibleWeight, visibleRules_mention,
    nodeLogProbability, visibleWeight]

theorem pack_mention (g : Grammar K) (symbol : String) (t : Tree K) :
    (g.mention symbol).pack t = g.pack t := by
  have hrules : (g.mention symbol).table.allRules = g.table.allRules :=
    g.table.allRules_mention symbol
  rw [pack, packIndex, ruleCount, hrules, pack, packIndex, ruleCount]

end Mention

/-- No rule has the symbol among its arguments, and no variable that a rule introduces has it. -/
def Omits (g : Grammar K) (symbol : String) : Prop := ∀ r ∈ g.table.allRules, r.Omits symbol

section Unused

variable {g : Grammar K} {symbol nt : String} {symbols : List String} {scope : Scope K} {r : Rule K}
  {s : NameSupply}

theorem Omits.visible (hg : g.Omits symbol) (hscope : ∀ v ∈ scope, v.Omits symbol)
    (hr : r ∈ g.visibleRules nt scope) : r.Omits symbol := by
  rcases mem_visibleRules.mp hr with hr | ⟨hr, -⟩
  · exact hg r (mem_allRules_of_mem_rulesFor hr)
  · exact hscope r hr

/-- The variable of a rule that omits a symbol omits it, too. -/
theorem omits_below (hr : r.Omits symbol) (hscope : ∀ v ∈ scope, v.Omits symbol) :
    ∀ v ∈ scope.below (g.kindOf r s).1, v.Omits symbol := by
  intro v hv
  rw [kindOf] at hv
  cases hkind : r.kind with
  | plain =>
    rw [hkind] at hv
    exact hscope v hv
  | variableUse stem =>
    rw [hkind] at hv
    exact hscope v hv
  | binder spec =>
    rw [hkind] at hv
    rcases List.mem_append.mp hv with hv | hv
    · exact hscope v hv
    · obtain rfl := List.mem_singleton.mp hv
      exact ⟨hr.boundArgs spec hkind, fun _ h => nomatch h⟩

theorem isTerminalRule_mention (hr : r.Omits symbol) :
    (g.mention symbol).isTerminalRule r = g.isTerminalRule r := by
  rw [Bool.eq_iff_iff, isTerminalRule, isTerminalRule, List.all_eq_true, List.all_eq_true]
  refine forall₂_congr fun x hx => ?_
  rw [isNonterminal_mention_of_ne (ne_of_mem_of_not_mem hx hr.symbols)]

theorem sampleRule_mention [Scalar K] (hnt : nt ≠ symbol) :
    (g.mention symbol).sampleRule nt scope = g.sampleRule nt scope := by
  rw [sampleRule, visibleRules_mention, isNonterminal_mention_of_ne hnt, sampleRule]

theorem expandArgs_mention
    {fill fill' : Option Nat → Scope K → String → Sampler K (Tree K × Option Nat)}
    (h : ∀ room x, x ≠ symbol → fill' room scope x = fill room scope x)
    (hsymbols : symbol ∉ symbols) (room : Option Nat) :
    expand.expandArgs (g.mention symbol) fill' scope room symbols =
      expand.expandArgs g fill scope room symbols := by
  induction symbols generalizing room with
  | nil => rfl
  | cons x symbols ih =>
    have hx : x ≠ symbol := fun hx => hsymbols (hx ▸ List.mem_cons_self)
    have hrest := ih fun hmem => hsymbols (List.mem_cons_of_mem _ hmem)
    rw [expand.expandArgs, expand.expandArgs, isNonterminal_mention_of_ne hx, h room x hx]
    simp only [hrest]

/-- A nonterminal is expanded as before, in any scope of variables that omit the symbol. -/
theorem expand_mention [Scalar K] (hg : g.Omits symbol) (hscope : ∀ v ∈ scope, v.Omits symbol)
    (hnt : nt ≠ symbol) (levels : Nat) (room : Option Nat) :
    (g.mention symbol).expand levels room scope nt = g.expand levels room scope nt := by
  induction levels generalizing room scope nt with
  | zero => rfl
  | succ levels ih =>
    by_cases hroom : room = some 0
    · rw [hroom, expand_full, expand_full]
    · funext s
      rw [expand_succ _ _ hroom, expand_succ _ _ hroom, sampleRule_mention hnt]
      refine Sampler.bind_congr fun r s₁ hr => Sampler.bind_congr fun kind s₂ hkind => ?_
      have homits := hg.visible hscope (of_yields_sampleRule hr).1
      obtain ⟨hkind, -⟩ := (Sampler.yields_ofNaming ..).mp hkind
      obtain rfl := Except.ok.inj hkind
      have hbelow := omits_below (g := g) (s := s₁) homits hscope
      cases hexp : r.expansion with
      | none => rfl
      | some symbols =>
        have hsymbols : symbol ∉ symbols := by simpa [Rule.symbols, hexp] using homits.symbols
        simp only
        rw [kindOf_mention, expandArgs_mention (fun room x hx => ih hbelow hx room) hsymbols]

theorem deepAssignments_mention (hsymbols : symbol ∉ symbols) (n : Nat) :
    (g.mention symbol).deepAssignments n symbols = g.deepAssignments n symbols := by
  have hevery : ∀ xs, symbol ∉ xs →
      (g.mention symbol).depthAssignments n xs = g.depthAssignments n xs := by
    intro xs hxs
    induction xs with
    | nil => rfl
    | cons x xs ih =>
      have hx : x ≠ symbol := fun hx => hxs (hx ▸ List.mem_cons_self)
      have hrest := ih fun hmem => hxs (List.mem_cons_of_mem _ hmem)
      rw [depthAssignments, depthAssignments, isNonterminal_mention_of_ne hx, hrest]
  rw [deepAssignments_eq_filter, deepAssignments_eq_filter, hevery symbols hsymbols]

theorem listArgs_congr {n : Nat} {subtrees subtrees' : Fin n → String → Lister (Tree K)}
    {slots : List (String × Option (Fin n))}
    (h : ∀ slot ∈ slots, ∀ d, subtrees' d slot.1 = subtrees d slot.1) :
    listArgs subtrees' slots = listArgs subtrees slots := by
  induction slots with
  | nil => rfl
  | cons slot slots ih =>
    have hrest := ih fun slot hslot => h slot (List.mem_cons_of_mem _ hslot)
    obtain ⟨x, d⟩ := slot
    cases d with
    | none => simp only [listArgs, hrest]
    | some d =>
      have hx := h (x, some d) List.mem_cons_self d
      simp only at hx
      simp only [listArgs, hrest, hx]

theorem listRule_mention {depth : Nat}
    {subtrees subtrees' : Scope K → Fin depth → String → Lister (Tree K)} (hr : r.Omits symbol)
    (hscope : ∀ v ∈ scope, v.Omits symbol)
    (h : ∀ S, (∀ v ∈ S, v.Omits symbol) → ∀ d x, x ≠ symbol → subtrees' S d x = subtrees S d x) :
    (g.mention symbol).listRule depth scope subtrees' r = g.listRule depth scope subtrees r := by
  funext s
  have hbelow := omits_below (g := g) (s := s) hr hscope
  rw [listRule, listRule, kindOf_mention, Lister.naming, Lister.naming, isTerminalRule_mention hr,
    deepAssignments_mention hr.symbols]
  split
  · rfl
  · refine congrFun (Lister.concat_congr fun slots hslots => ?_) _
    have hassigned := mem_depthAssignments.mp (mem_deepAssignments.mp hslots).1
    funext s'
    rw [listArgs_congr fun slot hslot d => h _ hbelow d slot.1 ?_]
    obtain ⟨x, hx, hslotx, -⟩ := exists_of_forall₂ hassigned.flip slot hslot
    exact hslotx ▸ ne_of_mem_of_not_mem hx hr.symbols

theorem listIn_mention (hg : g.Omits symbol) (hscope : ∀ v ∈ scope, v.Omits symbol) (depth : Nat) :
    (g.mention symbol).listIn depth scope nt = g.listIn depth scope nt := by
  induction depth using Nat.strong_induction_on generalizing scope nt with
  | _ depth ih =>
    rw [listIn, listIn, visibleRules_mention]
    refine Lister.concat_congr fun r hr => ?_
    exact listRule_mention (hg.visible hscope hr) hscope fun S hS d x _ => ih d.val d.isLt hS

theorem list_mention (hg : g.Omits symbol) (maxDepth : Nat) :
    (g.mention symbol).list maxDepth nt = g.list maxDepth nt := by
  have hdepth : (fun depth => (g.mention symbol).listAtDepth depth nt) =
      fun depth => g.listAtDepth depth nt :=
    funext fun depth => listIn_mention hg (by simp) depth
  rw [list, list, hdepth]

theorem unpackArgs_mention {read read' : String → List Char → Unpacking (Tree K × List Char)}
    (h : ∀ x cs, read' x cs = read x cs) (hsymbols : symbol ∉ symbols) (cs : List Char) :
    unpackNode.unpackArgs (g.mention symbol) read' symbols cs =
      unpackNode.unpackArgs g read symbols cs := by
  induction symbols generalizing cs with
  | nil => rfl
  | cons x symbols ih =>
    have hx : x ≠ symbol := fun hx => hsymbols (hx ▸ List.mem_cons_self)
    have hrest := ih fun hmem => hsymbols (List.mem_cons_of_mem _ hmem)
    rw [unpackNode.unpackArgs, unpackNode.unpackArgs, isNonterminal_mention_of_ne hx, h]
    simp only [hrest]

/-- A subtree is read as before with rules that omit the symbol. -/
theorem unpackNode_mention {rules : List (Rule K)} (hrules : ∀ r ∈ rules, r.Omits symbol)
    (levels : Nat) (cs : List Char) :
    (g.mention symbol).unpackNode levels rules nt cs = g.unpackNode levels rules nt cs := by
  induction levels generalizing rules nt cs with
  | zero => rfl
  | succ levels ih =>
    funext s
    rw [unpackNode, unpackNode]
    refine Unpacking.bind_congr ?_
    rintro ⟨r, cs'⟩ s₁ hr
    refine Unpacking.bind_congr fun kind s₂ hkind => ?_
    obtain ⟨hrule, rfl⟩ := Unpacking.ofExcept_eq_ok.mp hr
    obtain ⟨-, i, -, -, hi, -⟩ := unpackRule_eq_ok.mp hrule
    have homits := hrules r (List.mem_of_getElem? hi)
    have hbelow := omits_below (g := g) (s := s) homits hrules
    obtain rfl : (g.kindOf r s).1 = kind := congrArg Prod.fst (Unpacking.ofNaming_eq_ok.mp hkind)
    cases hexp : r.expansion with
    | none => rfl
    | some symbols =>
      have hsymbols : symbol ∉ symbols := by simpa [Rule.symbols, hexp] using homits.symbols
      simp only
      rw [unpackArgs_mention (fun x cs => ih hbelow cs) hsymbols]

theorem unpackFrom_mention (hg : g.Omits symbol) (text : String) :
    (g.mention symbol).unpackFrom nt text = g.unpackFrom nt text := by
  have hrules : (g.mention symbol).table.allRules = g.table.allRules :=
    g.table.allRules_mention symbol
  simp only [unpackFrom, hrules, unpackNode_mention hg]

end Unused

section Rejected

variable [Scalar K] {g g' : Grammar K} {r : Rule K} {e : InvalidWeight K}

theorem push_eq_error {hr : r.isVariableUse = false} (h : g.push r hr = (g', .error e)) :
    g' = g := by
  rw [push] at h
  split at h
  · cases h
  · exact (congrArg Prod.fst h).symm

/-- A plain rule that is rejected leaves the grammar as it was. A rejected binder rule mentions the
type of its variable. This changes nothing if that was a nonterminal; else it becomes the last one.
The rules, what finds them, scores and packed texts stay. What is generated, listed and read stays
as well if no rule has that type among its arguments. -/
theorem eq_of_rejected (g : Grammar K) (nt name : String) (expansion : Option (List String))
    (weight : K) :
    (∀ g' e, g.addRule nt name expansion weight = (g', .error e) → g' = g) ∧
      ∀ spec g' e, g.addBinder nt name expansion weight spec = (g', .error e) →
        g' = g.mention spec.boundType ∧ (g' = g ↔ g.isNonterminal spec.boundType = true) ∧
        (g'.nonterminals = if g.isNonterminal spec.boundType then g.nonterminals
          else g.nonterminals ++ [spec.boundType]) ∧
        (∀ x, g'.isNonterminal x = (g.isNonterminal x || x == spec.boundType)) ∧
        (∀ x scope, g'.visibleRules x scope = g.visibleRules x scope) ∧
        (∀ scope t, g'.ruleForNode scope t = g.ruleForNode scope t) ∧
        (∀ scope t, g'.logProbabilityIn scope t = g.logProbabilityIn scope t) ∧
        (∀ t, g'.pack t = g.pack t) ∧
        (g.Omits spec.boundType →
          (∀ x, x ≠ spec.boundType → g'.generate x = g.generate x) ∧
            (∀ maxDepth x, g'.list maxDepth x = g.list maxDepth x) ∧
            ∀ x text, g'.unpackFrom x text = g.unpackFrom x text) := by
  refine ⟨fun g' e h => push_eq_error h, fun spec g' e h => ?_⟩
  obtain rfl : g' = g.mention spec.boundType := push_eq_error h
  refine ⟨rfl, mention_eq_self, g.nonterminals_mention _, g.isNonterminal_mention _,
    g.visibleRules_mention _, g.ruleForNode_mention _, g.logProbabilityIn_mention _,
    g.pack_mention _, fun hg => ⟨fun x hx => ?_, fun _ _ => list_mention hg _, fun _ text =>
      unpackFrom_mention hg text⟩⟩
  have hexpand : (g.mention spec.boundType).expand (g.maxDepth + 1) none [] x =
      g.expand (g.maxDepth + 1) none [] x :=
    expand_mention hg (by simp) hx _ _
  rw [generate, generateIn, generate, generateIn, ← hexpand]
  rfl

/-- Without a weight, a binder of variables that no rule asks for is rejected from the terms, and
generation does not take notice of it. -/
theorem eq_of_rejected_terms :
    let call := (terms : Grammar Float).addBinder "T" "let" (some ["T"]) 0 ⟨"X", none, "x", none⟩
    (∃ e, call = (call.1, .error e)) ∧ call.1.generate "T" = terms.generate "T" := by
  intro call
  have hrejected : call = (call.1, .error ⟨"T", "let", 0⟩) := by rfl
  have homits : (terms : Grammar Float).Omits "X" := by
    rw [Omits, allRules_terms]
    simp only [List.forall_mem_cons]
    refine ⟨⟨by simp [Rule.symbols], by simp⟩, ⟨by simp [Rule.symbols], by simp⟩,
      ⟨by simp [Rule.symbols], by simp⟩, by simp⟩
  obtain ⟨-, -, -, -, -, -, -, -, hrest⟩ :=
    (eq_of_rejected terms "T" "let" (some ["T"]) 0).2 _ _ _ hrejected
  exact ⟨⟨_, hrejected⟩, (hrest homits).1 "T" (by decide)⟩

/-- A grammar with one rule, over a terminal. -/
def wrapping : Grammar K := ((empty "E").addRule "E" "f" (some ["X"]) 1).1

/-- A rejected binder of variables of the type that the rule has for a terminal makes the terminal a
nonterminal, and the rule unfit for use. -/
theorem not_eq_of_rejected_wrapping : ∃ (g' : Grammar Float) (e : InvalidWeight Float),
    wrapping.addBinder "E" "lambda" (some ["E"]) 0 ⟨"X", none, defaultStem, none⟩ =
        (g', .error e) ∧
      g' ≠ wrapping ∧ (wrapping : Grammar Float).isNonterminal "X" = false ∧
      g'.isNonterminal "X" = true ∧
      (Rand.run (wrapping.generate "E" .initial) (.ofList [3] 0)).1.1 =
        .ok (.node "E" "f" .plain (some [.terminal "X"])) ∧
      (Rand.run (g'.generate "E" .initial) (.ofList [3] 0)).1.1 = .error .exhausted := by
  have hbefore : (wrapping : Grammar Float).isNonterminal "X" = false := by decide +kernel
  have hbehind : (wrapping.mention "X" : Grammar Float).isNonterminal "X" = true := by
    decide +kernel
  refine ⟨wrapping.mention "X", ⟨"E", "lambda", 0⟩, by rfl, fun heq => ?_, hbefore, hbehind, by rfl,
    by rfl⟩
  rw [heq, hbefore] at hbehind
  cases hbehind

end Rejected

end Grammar

end ScopedGrammar
