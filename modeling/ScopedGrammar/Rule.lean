import ScopedGrammar.Scalar.Basic

/-!
# Rules

A rule is one weighted way to expand a nonterminal. A binder rule also says which variable its
nodes introduce, and the rule that stands for such a variable is of a kind of its own. Rules with
equal signatures are interchangeable, whatever their weights.
-/
namespace ScopedGrammar

/-- What identifies a rule: the nonterminal that it expands, its name, and the symbols of its
arguments, absent for a terminal. -/
structure Signature where
  nonterminal : String
  name : String
  expansion : Option (List String)
  deriving Repr, DecidableEq

/-- The nonterminal, an arrow, the name, and the argument symbols in brackets if there are any to
give. -/
def Signature.text (s : Signature) : String :=
  s.nonterminal ++ " -> " ++ s.name ++
    match s.expansion with
    | none => ""
    | some symbols => "[" ++ ", ".intercalate symbols ++ "]"

/-- The variable that a binder rule introduces. -/
structure BinderSpec (K : Type) where
  /-- The nonterminal that the variable can stand for. -/
  boundType : String
  /-- The symbols of the variable's own arguments, if it is used as a function. -/
  boundArgs : Option (List String)
  /-- What the variable's printed name starts with, such as the `y` of `lambda y0: y0`. -/
  stem : String
  /-- The weight of using the variable; by default the grammar's weight for variables. -/
  useWeight : Option K
  deriving Repr

inductive RuleKind (K : Type) where
  | plain
  | binder (spec : BinderSpec K)
  /-- The use of a bound variable. -/
  | variableUse (stem : String)
  deriving Repr

/-- One weighted expansion of a nonterminal. No expansion at all marks a terminal, an empty one a
call without arguments. -/
structure Rule (K : Type) where
  nonterminal : String
  name : String
  expansion : Option (List String)
  weight : K
  kind : RuleKind K
  deriving Repr

/-- The stem of variables for which nothing else is said. -/
def defaultStem : String := "y"

namespace Rule

variable {K : Type}

def signature (r : Rule K) : Signature := ⟨r.nonterminal, r.name, r.expansion⟩

def isBinder (r : Rule K) : Bool :=
  match r.kind with
  | .binder _ => true
  | _ => false

def isVariableUse (r : Rule K) : Bool :=
  match r.kind with
  | .variableUse _ => true
  | _ => false

/-- What the printed names of the variables start with that the rule introduces or stands for. -/
def stem (r : Rule K) : String :=
  match r.kind with
  | .plain => defaultStem
  | .binder spec => spec.stem
  | .variableUse stem => stem

/-- The symbols of the arguments, none for a terminal. -/
def symbols (r : Rule K) : List String := r.expansion.getD []

/-- The argument positions that expand the rule's own nonterminal again. -/
def replicatingSlots (r : Rule K) : List Nat :=
  (r.symbols.zipIdx.filter fun s => s.1 == r.nonterminal).map (·.2)

@[simp] theorem mem_replicatingSlots {r : Rule K} {i : Nat} :
    i ∈ r.replicatingSlots ↔ r.symbols[i]? = some r.nonterminal := by
  simp [replicatingSlots, List.mem_zipIdx_iff_getElem?]

end Rule

end ScopedGrammar
