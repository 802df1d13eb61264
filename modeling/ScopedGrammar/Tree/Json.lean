import ScopedGrammar.Settings.Writer
import ScopedGrammar.Tree.Basic

/-!
# Rules and trees in JSON

A rule is an object with its nonterminal, name, argument symbols and weight; one for the use of a
variable also has its stem, and a binder rule the description of its variable. A node has its
nonterminal, its name and its arguments, which are nodes or terminals; a binder also has the rule
of its variable.
-/
namespace ScopedGrammar

open Settings

/-- What a rule says besides its nonterminal, name, arguments and weight. -/
def RuleKind.members : RuleKind Float → List (String × Json)
  | .plain => []
  | .variableUse stem => [("use", .str stem)]
  | .binder spec => [("binder", ofBinderSpec spec)]

def Rule.toJson (r : Rule Float) : Json :=
  .ofMembers <|
    [("nt", .str r.nonterminal), ("name", .str r.name), ("to", ofOption ofStrings r.expansion),
      ("weight", ofFloat r.weight)] ++ r.kind.members

/-- What a node says besides its nonterminal, name and arguments. -/
def NodeKind.members : NodeKind Float → List (String × Json)
  | .plain => []
  | .binder v => [("binder", v.toJson)]
  | .variableUse => [("use", .bool true)]

mutual

def Tree.toJson : Tree Float → Json
  | .node nt name kind none =>
      .ofMembers ([("type", .str nt), ("name", .str name), ("args", .null)] ++ kind.members)
  | .node nt name kind (some as) =>
      .ofMembers
        ([("type", .str nt), ("name", .str name), ("args", .array (Arg.listToJson as))] ++
          kind.members)

def Arg.listToJson : List (Arg Float) → List Json
  | [] => []
  | .subtree t :: as => t.toJson :: Arg.listToJson as
  | .terminal s :: as => .str s :: Arg.listToJson as

end

/-- An argument is a node or a terminal. -/
def Arg.toJson : Arg Float → Json
  | .subtree t => t.toJson
  | .terminal s => .str s

end ScopedGrammar
