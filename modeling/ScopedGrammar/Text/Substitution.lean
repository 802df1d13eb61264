/-!
# Substitution in text

`replaceFirst` fills the first occurrence of a pattern and `replaceAll` every one, from left to
right and without looking at what was filled in. Patterns are not empty.
-/
namespace ScopedGrammar.Text

/-- Some suffix of a text starts with the pattern. -/
def occurs (pattern : List Char) : List Char → Bool
  | [] => pattern.isEmpty
  | c :: cs => pattern.isPrefixOf (c :: cs) || occurs pattern cs

/-- Exchange the first occurrence of a pattern. -/
def replaceFirstChars (pattern filling : List Char) : List Char → List Char
  | [] => []
  | c :: cs =>
      if pattern.isPrefixOf (c :: cs) then filling ++ (c :: cs).drop pattern.length
      else c :: replaceFirstChars pattern filling cs

/-- Exchange every occurrence of a pattern; the first `skip` characters belong to an occurrence
that has been exchanged already. -/
def replaceAllChars (pattern filling : List Char) : Nat → List Char → List Char
  | _, [] => []
  | skip + 1, _ :: cs => replaceAllChars pattern filling skip cs
  | 0, c :: cs =>
      if pattern.isPrefixOf (c :: cs) then
        filling ++ replaceAllChars pattern filling (pattern.length - 1) cs
      else c :: replaceAllChars pattern filling 0 cs

def contains (text pattern : String) : Bool := occurs pattern.toList text.toList

def replaceFirst (text pattern filling : String) : String :=
  String.ofList (replaceFirstChars pattern.toList filling.toList text.toList)

def replaceAll (text pattern filling : String) : String :=
  String.ofList (replaceAllChars pattern.toList filling.toList 0 text.toList)

end ScopedGrammar.Text
