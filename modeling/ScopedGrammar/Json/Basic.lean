import ScopedGrammar.Decimal.Reader

/-!
# JSON values

Values as they are written: members of an object keep their order and may repeat a name, and a
number keeps its decimal digits, so that an integer is told from another number.
-/
namespace ScopedGrammar

/-- A number as it is written. -/
structure JsonNumber where
  literal : Decimal.Literal
  /-- There is neither a point nor an exponent. -/
  integral : Bool
  deriving Repr, DecidableEq

/-- A JSON value. A string is absent where its escapes do not make up characters. -/
inductive Json where
  | null
  | bool (b : Bool)
  | number (n : JsonNumber)
  | string (s : Option String)
  | array (elements : List Json)
  | object (members : List (Option String × Json))

namespace JsonNumber

/-- The number that stands for a count. -/
def ofNat (n : Nat) : JsonNumber := ⟨⟨false, Decimal.digits n, 0⟩, true⟩

/-- The nearest binary number. -/
def toFloat (n : JsonNumber) : Float := n.literal.toFloat

/-- The value of an integer without a sign that fits 64 bits. -/
def toNat? (n : JsonNumber) : Option Nat :=
  let value := Decimal.natOfDigits n.literal.digits
  if n.integral && !n.literal.negative && value < Nat.pow 2 64 then some value else none

end JsonNumber

namespace Json

/-- A string value. -/
def str (s : String) : Json := .string (some s)

/-- The value of a count. -/
def ofNat (n : Nat) : Json := .number (.ofNat n)

/-- An object with the given members. -/
def ofMembers (members : List (String × Json)) : Json :=
  .object (members.map fun (name, value) => (some name, value))

mutual

/-- The number of containers that are open where most are. -/
def nesting : Json → Nat
  | .array elements => nestingOfElements elements + 1
  | .object members => nestingOfMembers members + 1
  | _ => 0

/-- The greatest nesting of the elements of an array. -/
def nestingOfElements : List Json → Nat
  | [] => 0
  | e :: es => max e.nesting (nestingOfElements es)

/-- The greatest nesting of the values of an object. -/
def nestingOfMembers : List (Option String × Json) → Nat
  | [] => 0
  | (_, value) :: ms => max value.nesting (nestingOfMembers ms)

end

def isNull : Json → Bool
  | .null => true
  | _ => false

def asString? : Json → Option String
  | .string s => s
  | _ => none

def asBool? : Json → Option Bool
  | .bool b => some b
  | _ => none

def asNat? : Json → Option Nat
  | .number n => n.toNat?
  | _ => none

def asArray? : Json → Option (List Json)
  | .array elements => some elements
  | _ => none

/-- The member of a name, the last one if it is repeated. -/
def member? (name : String) : Json → Option Json
  | .object members => members.reverse.lookup (some name)
  | _ => none

end Json

end ScopedGrammar
