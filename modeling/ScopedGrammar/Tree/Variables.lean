import ScopedGrammar.NameSupply
import ScopedGrammar.Tree.Place

/-!
# Variables of a tree

A variable use is bound if a binder above it within the tree introduces its name, and free
otherwise. `uniquify` gives every binder a fresh name and renames the uses that come after it in
pre-order.
-/
namespace ScopedGrammar.Tree

variable {K : Type}

mutual

/-- The names of the variables that are used but not introduced above their use, in pre-order and
as often as they are used; `bound` holds the names introduced further up. -/
def freeUses (bound : List String) : Tree K → List String
  | .node _ name kind none =>
      match kind with
      | .variableUse => if bound.contains name then [] else [name]
      | _ => []
  | .node _ name kind (some as) =>
      match kind with
      | .plain => freeUsesArgs bound as
      | .binder v => freeUsesArgs (v.name :: bound) as
      | .variableUse => (if bound.contains name then [] else [name]) ++ freeUsesArgs bound as

def freeUsesArgs (bound : List String) : List (Arg K) → List String
  | [] => []
  | .subtree t :: as => freeUses bound t ++ freeUsesArgs bound as
  | .terminal _ :: as => freeUsesArgs bound as

end

/-- The free variables of a tree, each once, in the order of their first use. -/
def freeVariables (t : Tree K) : List String := (t.freeUses []).eraseDups

/-- The free variables in the order in which their names are first used, be it bound or free. -/
def freeNames (t : Tree K) : List String :=
  let free := t.freeVariables
  (((t.subnodes.filter (·.2.isVariableUse)).map (·.2.name)).eraseDups).filter free.contains

/-- The root introduces a variable that is used below it. -/
def usesOwnVariable (t : Tree K) : Bool :=
  match t.introduced? with
  | some v =>
      t.children.any fun c => c.subnodes.any fun s => s.2.isVariableUse && s.2.name == v.name
  | none => false

mutual

/-- The names that the binders of a tree introduce, in pre-order. -/
def introducedNames : Tree K → List String
  | .node _ _ kind none =>
      match kind with
      | .binder v => [v.name]
      | _ => []
  | .node _ _ kind (some as) =>
      match kind with
      | .binder v => v.name :: introducedNamesArgs as
      | _ => introducedNamesArgs as

def introducedNamesArgs : List (Arg K) → List String
  | [] => []
  | .subtree t :: as => introducedNames t ++ introducedNamesArgs as
  | .terminal _ :: as => introducedNamesArgs as

end

/-- Which name stands for which; an earlier pair hides a later one. -/
abbrev Renaming := List (String × String)

namespace Renaming

/-- The name that stands for a name, itself if there is none. -/
def apply (r : Renaming) (name : String) : String := (r.lookup name).getD name

/-- The renaming without any pair for the given names. -/
def without (r : Renaming) (names : List String) : Renaming :=
  r.filter fun pair => !names.contains pair.1

/-- What is left of a renaming for the arguments behind a subtree: what the subtree introduces is
forgotten, also where it hides a name from further up. Nothing is left for no arguments. -/
def behind (r : Renaming) (t : Tree K) (as : List (Arg K)) : Renaming :=
  if r.isEmpty || as.isEmpty then [] else r.without t.introducedNames

theorem behind_cons (r : Renaming) (t : Tree K) (a : Arg K) (as : List (Arg K)) :
    r.behind t (a :: as) = r.without t.introducedNames := by
  cases r <;> rfl

end Renaming

mutual

/-- Give fresh names to the binders of a tree in pre-order, and to each variable use the name that
its variable has been given last. The names given so far are kept to the end. -/
def uniquifyFrom (r : Renaming) : Tree K → Naming (Tree K × Renaming)
  | .node nt name kind none => do
      let (name, kind, r) ← refresh r name kind
      pure (.node nt name kind none, r)
  | .node nt name kind (some as) => do
      let (name, kind, r) ← refresh r name kind
      let (as, r) ← uniquifyArgs r as
      pure (.node nt name kind (some as), r)
where
  /-- Rename one node. -/
  refresh (r : Renaming) (name : String) (kind : NodeKind K) :
      Naming (String × NodeKind K × Renaming) :=
    match kind with
    | .plain => pure (name, kind, r)
    | .binder v => do
        let fresh ← freshName
        pure (name, .binder { v with name := fresh }, (v.name, fresh) :: r)
    | .variableUse => pure (r.apply name, kind, r)

def uniquifyArgs (r : Renaming) : List (Arg K) → Naming (List (Arg K) × Renaming)
  | [] => pure ([], r)
  | .subtree t :: as => do
      let (t, r) ← uniquifyFrom r t
      let (as, r) ← uniquifyArgs r as
      pure (.subtree t :: as, r)
  | .terminal s :: as => do
      let (as, r) ← uniquifyArgs r as
      pure (.terminal s :: as, r)

end

/-- A copy in which every binder has a fresh name and the uses of its variable follow. -/
def uniquify (t : Tree K) : Naming (Tree K) := do
  let (t, _) ← t.uniquifyFrom []
  pure t

end ScopedGrammar.Tree
