import ScopedGrammar.Text.Substitution
import ScopedGrammar.Tree.Canonical

/-!
# Renderings of a tree

A tree is shown as the expression that it stands for. The name of a node may be a template: every
`%s` in it takes the text of one argument, and `<BV>` the name of the variable that the node
introduces. A `lambda` over one argument is written as such, a node without a name shows its only
argument, and any other node is a call. The second rendering is an s-expression. Both name a bound
variable by the stem and the depth of its binder.
-/
namespace ScopedGrammar.Tree

variable {K : Type}

/-- The mark that a template has in the place of an argument. -/
def argumentMark : String := "%s"

/-- The mark that a name has in the place of the introduced variable. -/
def variableMark : String := "<BV>"

/-- Fill the marks of a template with the texts of the arguments, one after the other. -/
def fillTemplate (template : String) (args : List String) : String :=
  args.foldl (fun text a => Text.replaceFirst text argumentMark a) template

/-- The expression of a node that has arguments: `name` is what the node is called, `shown` how
the name is shown, and `own` the printed name of the variable that it introduces. -/
def expressionOf (name shown : String) (own : Option String) (args : List String) : String :=
  match name, args with
  | "", [a] => a
  | name, args =>
      if Text.contains name argumentMark then fillTemplate shown args
      else
        match name, args with
        | "lambda", [a] => "lambda " ++ own.getD "" ++ ": " ++ a
        | _, args => shown ++ "(" ++ ", ".intercalate args ++ ")"

/-- The printed name of the variable that a node at a depth introduces. -/
def ownName (depth : Nat) : NodeKind K → Option String
  | .binder v => some (displayName v depth)
  | _ => none

/-- Put the name of the introduced variable into its marks. -/
def markVariable (own : Option String) (text : String) : String :=
  match own with
  | some v => Text.replaceAll text variableMark v
  | none => text

mutual

/-- The expression of a subtree at a depth, where `r` holds the printed names of variables. -/
def renderFrom (depth : Nat) (r : Renaming) : Tree K → String
  | .node _ name kind none => markVariable (ownName depth kind) (shownName r name kind)
  | .node _ name kind (some as) =>
      markVariable (ownName depth kind) <|
        expressionOf name (shownName r name kind) (ownName depth kind)
          (renderArgs (depth + 1) (entered depth r kind) as)

def renderArgs (depth : Nat) (r : Renaming) : List (Arg K) → List String
  | [] => []
  | .subtree t :: as => renderFrom depth r t :: renderArgs depth (r.behind t as) as
  | .terminal s :: as => s :: renderArgs depth r as

end

theorem renderArgs_subtree (depth : Nat) (r : Renaming) (t : Tree K) (as : List (Arg K)) :
    renderArgs depth r (.subtree t :: as) =
      renderFrom depth r t :: renderArgs depth (r.without t.introducedNames) as := by
  cases as <;> simp [renderArgs, Renaming.behind_cons]

/-- The expression that a tree stands for. -/
def render (t : Tree K) : String := t.renderFrom 0 []

mutual

/-- The s-expression of a subtree at a depth. -/
def schemeFrom (depth : Nat) (r : Renaming) : Tree K → String
  | .node _ name kind none => shownName r name kind
  | .node _ name kind (some as) =>
      let own := (ownName depth kind).map fun v => "(" ++ v ++ ")"
      let parts := shownName r name kind :: own.toList ++
        schemeArgs (depth + 1) (entered depth r kind) as
      "(" ++ " ".intercalate parts ++ ")"

def schemeArgs (depth : Nat) (r : Renaming) : List (Arg K) → List String
  | [] => []
  | .subtree t :: as => schemeFrom depth r t :: schemeArgs depth (r.behind t as) as
  | .terminal s :: as => s :: schemeArgs depth r as

end

/-- The tree as an s-expression, such as `(lambda (y0) (and_ y0 True))`. -/
def scheme (t : Tree K) : String := t.schemeFrom 0 []

end ScopedGrammar.Tree
