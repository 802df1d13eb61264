import ScopedGrammar.Grammar.Basic
import ScopedGrammar.Listing

/-!
# Enumerating trees

The trees of exactly one depth are listed rule by rule. If a rule has nonterminal arguments, every
way is taken to give them depths below that of the tree of which one is just below it, and for
each way every choice of subtrees. A rule without nonterminal arguments makes leaves only. Taking
the depths in ascending order lists every tree up to a depth.
-/
namespace ScopedGrammar.Grammar

variable {K : Type}

/-- Argument symbols with a depth below `n` for each nonterminal and none for a terminal, in all
ways; the depth of the last argument varies fastest. -/
def depthAssignments (g : Grammar K) (n : Nat) : List String → List (List (String × Option (Fin n)))
  | [] => [[]]
  | s :: symbols =>
      if g.isNonterminal s then
        (List.finRange n).flatMap fun d =>
          (g.depthAssignments n symbols).map ((s, some d) :: ·)
      else (g.depthAssignments n symbols).map ((s, none) :: ·)

/-- Some argument reaches the greatest depth below `n`. -/
def reachesDepth {n : Nat} (slots : List (String × Option (Fin n))) : Bool :=
  slots.any fun slot => slot.2.any fun d => d.val + 1 = n

theorem reachesDepth_cons {n : Nat} (s : String) (d : Option (Fin n))
    (slots : List (String × Option (Fin n))) :
    reachesDepth ((s, d) :: slots) = (d.any (fun d => d.val + 1 = n) || reachesDepth slots) :=
  rfl

/-- The assignments in which some argument reaches the greatest depth below `n`. Those that do not
reach it are not written out. -/
def deepAssignments (g : Grammar K) (n : Nat) : List String → List (List (String × Option (Fin n)))
  | [] => []
  | s :: symbols =>
      let deep := g.deepAssignments n symbols
      if g.isNonterminal s then
        let every := g.depthAssignments n symbols
        (List.finRange n).flatMap fun d =>
          (if d.val + 1 = n then every else deep).map ((s, some d) :: ·)
      else deep.map ((s, none) :: ·)

theorem deepAssignments_eq_filter (g : Grammar K) (n : Nat) (symbols : List String) :
    g.deepAssignments n symbols = (g.depthAssignments n symbols).filter reachesDepth := by
  induction symbols with
  | nil => rfl
  | cons s symbols ih =>
      simp only [deepAssignments, depthAssignments, ih]
      split
      · rw [List.filter_flatMap]
        congr 1
        funext d
        by_cases h : d.val + 1 = n
        · have every : ∀ slots ∈ g.depthAssignments n symbols,
              reachesDepth ((s, some d) :: slots) = true := by
            simp [reachesDepth_cons, h]
          simp [List.filter_map, Function.comp_def, h, List.filter_eq_self.mpr every]
        · simp [List.filter_map, Function.comp_def, reachesDepth_cons, h]
      · simp [List.filter_map, Function.comp_def, reachesDepth_cons]

/-- The argument lists for a choice of depths, given the subtrees for a depth and a symbol. -/
def listArgs {n : Nat} (subtrees : Fin n → String → Lister (Tree K)) :
    List (String × Option (Fin n)) → Lister (List (Arg K))
  | [] => .singleton []
  | (s, none) :: slots => fun names => (listArgs subtrees slots names).map (.terminal s :: ·)
  | (s, some d) :: slots => fun names =>
      (subtrees d s names).flatMap fun t names =>
        (listArgs subtrees slots names).map (.subtree t :: ·)

/-- The trees of a depth whose root is made by a rule. -/
def listRule (g : Grammar K) (depth : Nat) (scope : Scope K)
    (subtrees : Scope K → Fin depth → String → Lister (Tree K)) (r : Rule K) : Lister (Tree K) :=
  .naming (g.kindOf r) fun kind =>
    if g.isTerminalRule r then
      if depth = 0 then
        .singleton (.node r.nonterminal r.name kind (r.expansion.map (·.map .terminal)))
      else .nil
    else
      .concat
        (fun slots names =>
          (listArgs (subtrees (scope.below kind)) slots names).map fun as =>
            .node r.nonterminal r.name kind (some as))
        (g.deepAssignments depth r.symbols)

/-- The trees of exactly one depth that may use the variables of a scope. -/
def listIn (g : Grammar K) (depth : Nat) (scope : Scope K) (nt : String) : Lister (Tree K) :=
  .concat (g.listRule depth scope fun scope d s => g.listIn d.val scope s)
    (g.visibleRules nt scope)
termination_by depth
decreasing_by exact d.isLt

/-- The trees of exactly one depth with no variable in scope. -/
def listAtDepth (g : Grammar K) (depth : Nat) (nt : String) : Lister (Tree K) :=
  g.listIn depth [] nt

/-- The trees up to a depth, in the order of their depth. -/
def list (g : Grammar K) (maxDepth : Nat) (nt : String) : Lister (Tree K) :=
  .ascending (fun depth => g.listAtDepth depth nt) 0 (maxDepth + 1)

end ScopedGrammar.Grammar
