import ScopedGrammar.Decimal.Shortest
import ScopedGrammar.Grammar.Scope
import ScopedGrammar.Grammar.Table
import ScopedGrammar.NameSupply

/-!
# Grammars

A grammar has a table of fixed rules, which no traversal changes, and a default weight for the
uses of variables. What can expand a nonterminal at some point of a tree are its fixed rules and
the variables of that nonterminal in scope; together they are visible there. A node is made by
exactly one visible rule, which is found again by the signature of the node. How shallow a tree of
fixed rules can be is found by looking at all rules again until no depth gets lower; each time the
rank of what is known falls, so this comes to an end.
-/
namespace ScopedGrammar

/-- A weighted grammar whose binder rules introduce variables. -/
structure Grammar (K : Type) where
  /-- The nonterminal at the root of its trees. -/
  start : String
  table : RuleTable K
  /-- The weight of using a variable for which its binder gives none. -/
  variableWeight : K
  /-- Trees that would grow deeper are not generated. -/
  maxDepth : Nat

/-- The weight of a rule is not a positive finite number. -/
structure InvalidWeight (K : Type) where
  nonterminal : String
  name : String
  weight : K

def InvalidWeight.message (e : InvalidWeight Float) : String :=
  "rule " ++ e.nonterminal ++ " -> " ++ e.name ++ " has non-positive weight " ++
    Decimal.shortest e.weight

namespace Grammar

variable {K : Type} [Scalar K]

/-- The grammar without rules. -/
def empty (start : String) : Grammar K := ⟨start, .empty, Scalar.ofNat 10, 512⟩

/-- A weight that a rule may have. -/
def validWeight (w : K) : Bool := Scalar.lt 0 w && Scalar.isFinite w

/-- Add a rule to the table, unless its weight is invalid. -/
def push (g : Grammar K) (r : Rule K) (hr : r.isVariableUse = false) :
    Grammar K × Except (InvalidWeight K) (Rule K) :=
  if validWeight r.weight then ({ g with table := g.table.insert r hr }, .ok r)
  else (g, .error ⟨r.nonterminal, r.name, r.weight⟩)

/-- Add a rule that introduces no variable. -/
def addRule (g : Grammar K) (nt name : String) (expansion : Option (List String)) (weight : K) :
    Grammar K × Except (InvalidWeight K) (Rule K) :=
  g.push ⟨nt, name, expansion, weight, .plain⟩ rfl

/-- Add a rule whose nodes introduce a variable for their arguments. The type of the variable
becomes a nonterminal in any case. -/
def addBinder (g : Grammar K) (nt name : String) (expansion : Option (List String)) (weight : K)
    (spec : BinderSpec K) : Grammar K × Except (InvalidWeight K) (Rule K) :=
  { g with table := g.table.mention spec.boundType }.push ⟨nt, name, expansion, weight, .binder spec⟩
    rfl

end Grammar

namespace Grammar

variable {K : Type}

/-- The number of fixed rules. -/
def ruleCount (g : Grammar K) : Nat := g.table.allRules.length

/-- The nonterminals in the order in which they were first mentioned. -/
def nonterminals (g : Grammar K) : List String := g.table.nonterminals

/-- The symbol has rules or is the type of some binder's variable. -/
def isNonterminal (g : Grammar K) (symbol : String) : Bool := g.nonterminals.contains symbol

/-- The fixed rules of a nonterminal in the order in which they were added. -/
def rulesFor (g : Grammar K) (nt : String) : Except GrammarError (List (Rule K)) :=
  if g.isNonterminal nt then .ok (g.table.rulesFor nt) else .error (.unknownNonterminal nt)

/-- What can expand a nonterminal in a scope: its fixed rules, then the variables in force. -/
def visibleRules (g : Grammar K) (nt : String) (scope : Scope K) : List (Rule K) :=
  g.table.rulesFor nt ++ scope.rulesOf nt

/-- The first fixed rule of a name, by nonterminal and then in the order of addition. -/
def ruleNamed? (g : Grammar K) (name : String) : Option (Rule K) :=
  g.table.allRules.find? fun r => r.name == name

/-- No argument of the rule is a nonterminal. -/
def isTerminalRule (g : Grammar K) (r : Rule K) : Bool :=
  r.symbols.all fun s => !g.isNonterminal s

/-- The kind of a node that a rule makes; a binder rule takes a fresh name for its variable. -/
def kindOf (g : Grammar K) (r : Rule K) : Naming (NodeKind K) :=
  match r.kind with
  | .plain => pure .plain
  | .variableUse _ => pure .variableUse
  | .binder spec => do
      let name ← freshName
      pure <| .binder
        ⟨spec.boundType, name, spec.boundArgs, spec.useWeight.getD g.variableWeight,
          .variableUse spec.stem⟩

/-- The visible rule that made a node, which has to be the only one with its signature. -/
def ruleForNode (g : Grammar K) (scope : Scope K) (t : Tree K) : Except GrammarError (Rule K) :=
  if t.isVariableUse && !scope.binds t.name then .error (.scopeViolation t.name)
  else
    match g.table.withSignature t.signature ++ scope.withSignature t.signature with
    | [r] => .ok r
    | rules => .error (.noUniqueRule t.signature rules.length)

end Grammar

/-- A depth for each of some nonterminals. -/
abbrev Depths := String → Option Nat

namespace Depths

variable {known : Depths} {nt : String} {d : Nat}

/-- Note a depth of a nonterminal. -/
def note (known : Depths) (nt : String) (d : Nat) : Depths :=
  fun s => if s = nt then some d else known s

/-- The depth is lower than what is known of the nonterminal, if anything is. -/
def improvedBy (known : Depths) (nt : String) (d : Nat) : Bool := (known nt).all (d < ·)

/-- How many of some nonterminals have no depth, and the sum of the depths of the others. -/
def rank (known : Depths) : List String → Nat × Nat
  | [] => (0, 0)
  | nt :: nts =>
      match known nt with
      | none => ((known.rank nts).1 + 1, (known.rank nts).2)
      | some d => ((known.rank nts).1, (known.rank nts).2 + d)

/-- With its first depth a nonterminal is one less of those that have none. -/
theorem rank_note_of_none (hnone : known nt = none) (nts : List String) :
    ((known.note nt d).rank nts).1 + (if nt ∈ nts then 1 else 0) ≤ (known.rank nts).1 := by
  induction nts with
  | nil => simp [rank]
  | cons s nts ih =>
    by_cases hs : s = nt
    · subst hs
      simp only [rank, note, hnone] at ih ⊢
      grind
    · simp only [rank, note, hs] at ih ⊢
      grind

/-- A lower depth makes the sum lower. -/
theorem rank_note_of_some {e : Nat} (hsome : known nt = some e) (hlt : d < e) (nts : List String) :
    ((known.note nt d).rank nts).1 = (known.rank nts).1 ∧
      ((known.note nt d).rank nts).2 + (if nt ∈ nts then 1 else 0) ≤ (known.rank nts).2 := by
  induction nts with
  | nil => simp [rank]
  | cons s nts ih =>
    by_cases hs : s = nt
    · subst hs
      simp only [rank, note, hsome] at ih ⊢
      grind
    · simp only [rank, note, hs] at ih ⊢
      grind

theorem rank_note_lt {nts : List String} (hmem : nt ∈ nts) (hd : known.improvedBy nt d) :
    Prod.Lex (· < ·) (· < ·) ((known.note nt d).rank nts) (known.rank nts) := by
  rw [Prod.lex_def]
  cases hknown : known nt with
  | none =>
    have hle := rank_note_of_none (d := d) hknown nts
    rw [if_pos hmem] at hle
    exact .inl hle
  | some e =>
    have hlt : d < e := by simpa [improvedBy, hknown] using hd
    have hle := rank_note_of_some hknown hlt nts
    rw [if_pos hmem] at hle
    exact .inr hle

end Depths

namespace Grammar

variable {K : Type}

/-- The depth of a tree over shallowest subtrees for its argument symbols, as far as depths are
known. -/
def depthOver (g : Grammar K) (known : Depths) : List String → Option Nat
  | [] => some 0
  | s :: symbols =>
      if g.isNonterminal s then do
        let d ← known s
        let rest ← g.depthOver known symbols
        return max (d + 1) rest
      else g.depthOver known symbols

/-- The depth of the shallowest tree that some rules make over trees of known depths. -/
def depthByRules (g : Grammar K) (known : Depths) (rules : List (Rule K)) : Option Nat :=
  (rules.filterMap fun r => g.depthOver known r.symbols).min?

/-- Look at the rules of a nonterminal. A better depth is noted, as is that there was one. -/
def relax (g : Grammar K) (state : Depths × Bool) (row : String × List (Rule K)) : Depths × Bool :=
  match g.depthByRules state.1 row.2 with
  | some d => if state.1.improvedBy row.1 d then (state.1.note row.1 d, true) else state
  | none => state

/-- Look at the rules of every nonterminal in turn, each time with the depths noted before. -/
def sweep (g : Grammar K) (rows : Rows K) (known : Depths) : Depths × Bool :=
  rows.foldl g.relax (known, false)

/-- Either the rules give no better depth and all stays as it is, or the better one is noted. -/
theorem relax_cases (g : Grammar K) (state : Depths × Bool) (row : String × List (Rule K)) :
    (g.relax state row = state ∧
      ∀ d, g.depthByRules state.1 row.2 = some d → state.1.improvedBy row.1 d = false) ∨
    ∃ d, g.depthByRules state.1 row.2 = some d ∧ state.1.improvedBy row.1 d = true ∧
      g.relax state row = (state.1.note row.1 d, true) := by
  rw [relax]
  cases g.depthByRules state.1 row.2 with
  | none => exact .inl ⟨rfl, by simp⟩
  | some d =>
    cases himproved : state.1.improvedBy row.1 d with
    | false => exact .inl ⟨by simp [himproved], by simpa using himproved⟩
    | true => exact .inr ⟨d, rfl, himproved, by simp [himproved]⟩

/-- A sweep that notes a depth lowers the rank. -/
theorem rank_sweep_lt (g : Grammar K) {rows : Rows K} {known : Depths}
    (h : (g.sweep rows known).2 = true) : Prod.Lex (· < ·) (· < ·)
      ((g.sweep rows known).1.rank rows.nonterminals) (known.rank rows.nonterminals) := by
  refine (List.foldlRecOn (motive := fun state => state = (known, false) ∨
    Prod.Lex (· < ·) (· < ·) (state.1.rank rows.nonterminals) (known.rank rows.nonterminals))
    rows g.relax (.inl rfl) fun state hstate row hrow => ?_).resolve_left fun heq => ?_
  · obtain ⟨heq, -⟩ | ⟨d, -, himproved, heq⟩ := g.relax_cases state row
    · rwa [heq]
    · have hmem : row.1 ∈ rows.nonterminals := List.mem_map.mpr ⟨row, hrow, rfl⟩
      have hlt := Depths.rank_note_lt hmem himproved
      rw [heq]
      right
      rcases hstate with rfl | hstate
      · exact hlt
      · rw [Prod.lex_def] at hstate hlt ⊢
        dsimp only
        omega
  · rw [sweep, heq] at h
    cases h

/-- Sweep until nothing more is noted. -/
def settle (g : Grammar K) (rows : Rows K) (known : Depths) : Depths :=
  if (g.sweep rows known).2 then g.settle rows (g.sweep rows known).1 else (g.sweep rows known).1
termination_by known.rank rows.nonterminals
decreasing_by exact g.rank_sweep_lt ‹_›

/-- The depth of the shallowest tree for a symbol that fixed rules can make, absent if none is
finite, with the rows looked at in a given order. Terminals have depth `0`. -/
def depthInOrder (g : Grammar K) (rows : Rows K) (symbol : String) : Option Nat :=
  if g.isNonterminal symbol then g.settle rows (fun _ => none) symbol else some 0

/-- The depth of the shallowest tree for a symbol that fixed rules can make. -/
def depthToTerminal (g : Grammar K) (symbol : String) : Option Nat :=
  g.depthInOrder g.table.rows symbol

section Weights

variable [Scalar K]

/-- The total weight of what is visible for a nonterminal. -/
def visibleWeight (g : Grammar K) (nt : String) (scope : Scope K) : K :=
  Scalar.sum ((g.visibleRules nt scope).map (·.weight))

/-- Divide the weights of each nonterminal's fixed rules by their sum. -/
def renormalize (g : Grammar K) : Grammar K :=
  { g with
    table := g.table.mapWeights fun rules r =>
      let total := Scalar.sum (rules.map (·.weight))
      if Scalar.lt 0 total then r.weight / total else r.weight }

end Weights

end Grammar

end ScopedGrammar
