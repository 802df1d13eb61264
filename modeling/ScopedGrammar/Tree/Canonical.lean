import ScopedGrammar.Tree.Variables

/-!
# Canonical texts

The canonical text of a tree writes every node with its nonterminal and names a bound variable by
the stem and the depth of its binder, so the names that binders happened to be given do not show.
Two trees count as equal if their canonical texts are. For a subtree within a tree the variables
bound above it are named by the depth of their binders in the whole tree and marked by a prime.
-/
namespace ScopedGrammar.Tree

variable {K : Type}

/-- The printed name of the variable of a binder at a depth. -/
def displayName (v : Rule K) (depth : Nat) : String := v.stem ++ toString depth

/-- The renaming below a node at a depth. -/
def entered (depth : Nat) (r : Renaming) : NodeKind K → Renaming
  | .binder v => (v.name, displayName v depth) :: r
  | _ => r

/-- The name that a node shows. -/
def shownName (r : Renaming) (name : String) : NodeKind K → String
  | .variableUse => r.apply name
  | _ => name

mutual

/-- The canonical text of a subtree at a depth, where `r` holds the printed names of variables. -/
def canonicalFrom (depth : Nat) (r : Renaming) : Tree K → String
  | .node nt name kind none => heading depth r nt name kind
  | .node nt name kind (some as) =>
      heading depth r nt name kind ++
        "(" ++ ", ".intercalate (canonicalArgs (depth + 1) (entered depth r kind) as) ++ ")"
where
  /-- Name, nonterminal and introduced variable of a node. -/
  heading (depth : Nat) (r : Renaming) (nt name : String) (kind : NodeKind K) : String :=
    shownName r name kind ++ "<" ++ nt ++ ">" ++
      match kind with
      | .binder v => " " ++ displayName v depth ++ ":"
      | _ => ""

def canonicalArgs (depth : Nat) (r : Renaming) : List (Arg K) → List String
  | [] => []
  | .subtree t :: as =>
      canonicalFrom depth r t :: canonicalArgs depth (r.behind t as) as
  | .terminal s :: as => s :: canonicalArgs depth r as

end

theorem canonicalArgs_subtree (depth : Nat) (r : Renaming) (t : Tree K) (as : List (Arg K)) :
    canonicalArgs depth r (.subtree t :: as) =
      canonicalFrom depth r t :: canonicalArgs depth (r.without t.introducedNames) as := by
  cases as <;> simp [canonicalArgs, Renaming.behind_cons]

/-- The canonical text of a tree. -/
def canonical (t : Tree K) : String := t.canonicalFrom 0 []

/-- Trees are alike if they differ at most by the names of their bound variables. -/
def alike (s t : Tree K) : Bool := s.canonical == t.canonical

/-- The printed names, marked by a prime, of the variables introduced on the way to a place, where
the root has the given depth. Of equal names the innermost counts. -/
def outerNames : Nat → Tree K → Place → Renaming
  | _, _, [] => []
  | depth, t, i :: p =>
      (match t.child? i with
        | some c => outerNames (depth + 1) c p
        | none => []) ++
      (t.introduced?.map fun v => (v.name, displayName v depth ++ "'")).toList

/-- The canonical text of the subtree at a place. -/
def canonicalAt (t : Tree K) (p : Place) : Option String :=
  (t.get? p).map fun n => n.canonicalFrom 0 (outerNames 0 t p)

/-- The canonical form of one node of a tree: name, nonterminal, whether it is a binder, and the
symbols of its arguments. -/
def headAt (t : Tree K) (p : Place) : Option String :=
  (t.get? p).map fun n =>
    shownName (outerNames 0 t p) n.name n.kind ++ "<" ++ n.nonterminal ++ ">" ++
      (if n.isBinder then ":" else "") ++
      match n.args? with
      | none => ""
      | some as => "(" ++ ", ".intercalate (as.map Arg.symbol) ++ ")"

/-- Two canonical texts are there and are the same. -/
def sameText : Option String → Option String → Bool
  | some a, some b => a == b
  | _, _ => false

/-- The subtree of one tree at one place and that of another tree at another are alike, if both
trees name the variables bound above them in the same way. -/
def alikeAt (s : Tree K) (p : Place) (t : Tree K) (q : Place) : Bool :=
  sameText (s.canonicalAt p) (t.canonicalAt q)

end ScopedGrammar.Tree

namespace ScopedGrammar.Arg

/-- Arguments are alike if they are alike as trees, or the same terminal. -/
def alike {K : Type} : Arg K → Arg K → Bool
  | .subtree s, .subtree t => s.alike t
  | .terminal s, .terminal t => s == t
  | _, _ => false

end ScopedGrammar.Arg
