import ScopedGrammar.Grammar.Basic

/-!
# Packed trees

A packed tree is a text with one character for each node in pre-order. The character stands for
the index of the node's rule: fixed rules are numbered by nonterminal and then in the order of
addition, and a variable takes the next free index while the arguments of its binder are written,
so that neighbouring binders use the same index. A packed text has a meaning for its grammar only.
-/
namespace ScopedGrammar

/-- The characters for the indices `0` to `61`. -/
def packAlphabet : List Char :=
  "0123456789abcdefghijklmnopqrstuvwxyzABCDEFGHIJKLMNOPQRSTUVWXYZ".toList

/-- The character for an index. -/
def packIndex (i : Nat) : Except GrammarError Char :=
  match packAlphabet[i]? with
  | some c => .ok c
  | none => .error (.pack (.overflow i))

/-- The index that a character stands for. -/
def unpackIndex (c : Char) : Except GrammarError Nat :=
  match packAlphabet.idxOf? c with
  | some i => .ok i
  | none => .error (.pack (.unknownCharacter c))

/-- The indices of the rules that can be named, by signature. Of equal signatures the first
counts. -/
abbrev PackIndex := List (Signature × Nat)

namespace PackIndex

/-- The index without an entry for the given signatures. -/
def without (ix : PackIndex) (signatures : List Signature) : PackIndex :=
  ix.filter fun entry => !signatures.contains entry.1

end PackIndex

namespace Tree

variable {K : Type}

mutual

/-- The signatures of the variables that the binders of a tree introduce. -/
def introducedSignatures : Tree K → List Signature
  | .node _ _ kind none =>
      match kind with
      | .binder v => [v.signature]
      | _ => []
  | .node _ _ kind (some as) =>
      match kind with
      | .binder v => v.signature :: introducedSignaturesArgs as
      | _ => introducedSignaturesArgs as

def introducedSignaturesArgs : List (Arg K) → List Signature
  | [] => []
  | .subtree t :: as => introducedSignatures t ++ introducedSignaturesArgs as
  | .terminal _ :: as => introducedSignaturesArgs as

end

/-- The index of the rule of the root. -/
def packedIndex (ix : PackIndex) (t : Tree K) : Except GrammarError Nat :=
  match ix.lookup t.signature with
  | some i => .ok i
  | none =>
      if t.isVariableUse then .error (.scopeViolation t.name)
      else .error (.noUniqueRule t.signature 0)

/-- The character for the root. -/
def packRoot (ix : PackIndex) (t : Tree K) : Except GrammarError Char := do
  let i ← t.packedIndex ix
  packIndex i

/-- The names below a node: its variable takes the next index. -/
def packBelow (ix : PackIndex) (next : Nat) : NodeKind K → PackIndex × Nat
  | .binder v => ((v.signature, next) :: ix, next + 1)
  | _ => (ix, next)

mutual

/-- Write a subtree, where `next` is the first free index. What it introduces is forgotten behind
it, also where it hides a rule. -/
def packFrom (ix : PackIndex) (next : Nat) : Tree K → Except GrammarError (List Char)
  | .node nt name kind none => do
      let c ← (node nt name kind none).packRoot ix
      pure [c]
  | .node nt name kind (some as) => do
      let c ← (node nt name kind (some as)).packRoot ix
      let cs ← packArgs (packBelow ix next kind).1 (packBelow ix next kind).2 as
      pure (c :: cs)

def packArgs (ix : PackIndex) (next : Nat) : List (Arg K) → Except GrammarError (List Char)
  | [] => pure []
  | .subtree t :: as => do
      let cs ← packFrom ix next t
      let cs' ← packArgs (ix.without t.introducedSignatures) next as
      pure (cs ++ cs')
  | .terminal _ :: as => packArgs ix next as

end

end Tree

namespace Grammar

variable {K : Type}

/-- The numbering of the fixed rules. -/
def packIndex (g : Grammar K) : PackIndex :=
  g.table.allRules.zipIdx.map fun (r, i) => (r.signature, i)

/-- The packed text of a tree. -/
def pack (g : Grammar K) (t : Tree K) : Except GrammarError String := do
  let cs ← t.packFrom g.packIndex g.ruleCount
  pure (String.ofList cs)

/-- A reader of packed text: it takes fresh names and may fail. -/
abbrev Unpacking := ExceptT GrammarError Naming

/-- Read the rule that the first character stands for among the numbered ones; it has to expand
the nonterminal. -/
def unpackRule (rules : List (Rule K)) (nt : String) :
    List Char → Except GrammarError (Rule K × List Char)
  | [] => .error (.pack .truncated)
  | c :: cs => do
      let i ← unpackIndex c
      match rules[i]? with
      | none => .error (.pack (.unknownIndex i))
      | some r =>
          if r.nonterminal == nt then .ok (r, cs) else .error (.pack (.mismatch nt r.nonterminal))

/-- Read a subtree for a nonterminal, where `rules` are the rules by their indices. Each level
takes a character, so a text as long as the number of levels has ended when they have. The rest of
the text is returned. -/
def unpackNode (g : Grammar K) :
    Nat → List (Rule K) → String → List Char → Unpacking (Tree K × List Char)
  | 0, _, _, _ => throw (.pack .truncated)
  | levels + 1, rules, nt, cs => do
      let (r, cs) ← unpackRule rules nt cs
      let kind ← g.kindOf r
      match r.expansion with
      | none => pure (.node r.nonterminal r.name kind none, cs)
      | some symbols => do
          let (as, cs) ← unpackArgs (g.unpackNode levels (Scope.below rules kind)) symbols cs
          pure (.node r.nonterminal r.name kind (some as), cs)
where
  /-- Read the arguments, given how a subtree is read. -/
  unpackArgs (unpackSubtree : String → List Char → Unpacking (Tree K × List Char)) :
      List String → List Char → Unpacking (List (Arg K) × List Char)
    | [], cs => pure ([], cs)
    | s :: symbols, cs => do
        if g.isNonterminal s then
          let (t, cs) ← unpackSubtree s cs
          let (as, cs) ← unpackArgs unpackSubtree symbols cs
          pure (.subtree t :: as, cs)
        else
          let (as, cs) ← unpackArgs unpackSubtree symbols cs
          pure (.terminal s :: as, cs)

/-- Read a packed tree with a nonterminal at its root. -/
def unpackFrom (g : Grammar K) (nt text : String) : Unpacking (Tree K) := do
  let cs := text.toList
  let (t, rest) ← g.unpackNode (cs.length + 1) g.table.allRules nt cs
  if rest.isEmpty then pure t else throw (.pack (.trailing rest.length))

/-- Read a packed tree with the start symbol at its root. -/
def unpack (g : Grammar K) (text : String) : Unpacking (Tree K) := g.unpackFrom g.start text

end Grammar

end ScopedGrammar
