import ScopedGrammar.Json.Basic
import ScopedGrammar.Text.Quoted

/-!
# Writing JSON

Values are written without blanks, and the members of an object in the order of their names.
-/
namespace ScopedGrammar.Json

/-- A character as it stands in a string. -/
def escape (c : Char) : String :=
  if c == '"' then "\\\""
  else if c == '\\' then "\\\\"
  else if c.toNat < 32 then
    let ds := Nat.toDigits 16 c.toNat
    "\\u" ++ String.ofList (List.replicate (4 - ds.length) '0' ++ ds)
  else c.toString

def writeString (s : String) : String := "\"" ++ String.join (s.toList.map escape) ++ "\""

/-- The digits of a number with its sign and its exponent. -/
def writeNumber (n : JsonNumber) : String :=
  (if n.literal.negative then "-" else "") ++ String.ofList n.literal.digits ++
    if n.integral then "" else "e" ++ toString n.literal.exponent

/-- Names in the order of their characters; a name that is none comes first. -/
def nameLE : Option String × String → Option String × String → Bool
  | (none, _), _ => true
  | (some _, _), (none, _) => false
  | (some a, _), (some b, _) => !decide (b < a)

/-- Members in the order of their names, written out. -/
def joinMembers (members : List (Option String × String)) : String :=
  ",".intercalate <|
    (members.mergeSort nameLE).map fun (name, value) =>
      writeString (name.getD "") ++ ":" ++ value

mutual

def write : Json → String
  | .null => "null"
  | .bool b => if b then "true" else "false"
  | .number n => writeNumber n
  | .string s => writeString (s.getD "")
  | .array elements => "[" ++ ",".intercalate (writeElements elements) ++ "]"
  | .object members => "\x7b" ++ joinMembers (writeMembers members) ++ "\x7d"

def writeElements : List Json → List String
  | [] => []
  | e :: es => write e :: writeElements es

def writeMembers : List (Option String × Json) → List (Option String × String)
  | [] => []
  | (name, value) :: ms => (name, write value) :: writeMembers ms

end

end ScopedGrammar.Json
