import ScopedGrammar.Json.Basic

/-!
# Reading JSON

The reader takes exactly the texts of the JSON grammar: a number has no leading zeros, a string no
raw control characters, and nothing but blanks stands around a value.
-/
namespace ScopedGrammar.Json

def isBlank (c : Char) : Bool := c == ' ' || c == '\n' || c == '\t' || c == '\r'

def skipBlanks (cs : List Char) : List Char := cs.dropWhile isBlank

/-- The value of a hexadecimal digit. -/
def hexDigit? (c : Char) : Option Nat :=
  if c.isDigit then some (c.toNat - '0'.toNat)
  else if 'a' ≤ c && c ≤ 'f' then some (c.toNat - 'a'.toNat + 10)
  else if 'A' ≤ c && c ≤ 'F' then some (c.toNat - 'A'.toNat + 10)
  else none

/-- The value of four hexadecimal digits. -/
def hexUnit? (a b c d : Char) : Option Nat := do
  let a ← hexDigit? a
  let b ← hexDigit? b
  let c ← hexDigit? c
  let d ← hexDigit? d
  pure (((a * 16 + b) * 16 + c) * 16 + d)

/-- The character of a short escape. -/
def shortEscape? (c : Char) : Option Char :=
  match c with
  | '"' => some '"'
  | '\\' => some '\\'
  | '/' => some '/'
  | 'b' => some '\x08'
  | 'f' => some '\x0c'
  | 'n' => some '\n'
  | 'r' => some '\r'
  | 't' => some '\t'
  | _ => none

/-- A piece of a string: a character, or a unit of 16 bits that was written by its number. -/
abbrev StringPiece := Char ⊕ Nat

/-- Read the pieces of a string behind its opening quote. -/
def readPieces : List Char → Option (List StringPiece × List Char)
  | [] => none
  | '"' :: cs => some ([], cs)
  | '\\' :: 'u' :: a :: b :: c :: d :: cs => do
      let unit ← hexUnit? a b c d
      let (pieces, rest) ← readPieces cs
      pure (.inr unit :: pieces, rest)
  | '\\' :: e :: cs => do
      let c ← shortEscape? e
      let (pieces, rest) ← readPieces cs
      pure (.inl c :: pieces, rest)
  | c :: cs =>
      if c.toNat < 32 || c == '\\' then none
      else do
        let (pieces, rest) ← readPieces cs
        pure (.inl c :: pieces, rest)

/-- Join pieces to characters: two units make up one beyond the basic plane. -/
def joinPieces : List StringPiece → Option (List Char)
  | [] => some []
  | .inl c :: pieces => (joinPieces pieces).map (c :: ·)
  | .inr high :: .inr low :: pieces =>
      if 0xD800 ≤ high && high < 0xDC00 then
        if 0xDC00 ≤ low && low < 0xE000 then
          (joinPieces pieces).map
            (Char.ofNat (0x10000 + (high - 0xD800) * 0x400 + (low - 0xDC00)) :: ·)
        else none
      else if 0xDC00 ≤ high && high < 0xE000 then none
      else (joinPieces (.inr low :: pieces)).map (Char.ofNat high :: ·)
  | .inr unit :: pieces =>
      if 0xD800 ≤ unit && unit < 0xE000 then none
      else (joinPieces pieces).map (Char.ofNat unit :: ·)

/-- Read a string behind its opening quote. -/
def readString (cs : List Char) : Option (Option String × List Char) := do
  let (pieces, rest) ← readPieces cs
  pure ((joinPieces pieces).map String.ofList, rest)

/-- Digits and what comes after them. -/
def spanDigits (cs : List Char) : List Char × List Char :=
  (cs.takeWhile Char.isDigit, cs.dropWhile Char.isDigit)

/-- Read digits of which there has to be one. -/
def readDigits (cs : List Char) : Option (List Char × List Char) :=
  match spanDigits cs with
  | ([], _) => none
  | (ds, rest) => some (ds, rest)

/-- Read the digits behind a point, if there is one. -/
def readPlaces : List Char → Option (Option (List Char) × List Char)
  | '.' :: cs => do
      let (ds, rest) ← readDigits cs
      pure (some ds, rest)
  | cs => some (none, cs)

/-- Read an exponent, if there is one. -/
def readExponent : List Char → Option (Option Int × List Char)
  | c :: cs =>
      if c == 'e' || c == 'E' then do
        let (negative, cs) :=
          match cs with
          | '-' :: cs => (true, cs)
          | '+' :: cs => (false, cs)
          | cs => (false, cs)
        let (ds, rest) ← readDigits cs
        let n : Int := Decimal.natOfDigits ds
        pure (some (if negative then -n else n), rest)
      else some (none, c :: cs)
  | [] => some (none, [])

/-- Read a number behind its sign. -/
def readUnsigned (negative : Bool) (cs : List Char) : Option (JsonNumber × List Char) := do
  let (whole, rest) ← readDigits cs
  if whole.length ≠ 1 && whole.head? == some '0' then none
  else do
    let (places, rest) ← readPlaces rest
    let (exponent, rest) ← readExponent rest
    let decimals := places.getD []
    pure
      (⟨⟨negative, whole ++ decimals, exponent.getD 0 - decimals.length⟩,
        places.isNone && exponent.isNone⟩, rest)

def readNumber : List Char → Option (JsonNumber × List Char)
  | '-' :: cs => readUnsigned true cs
  | cs => readUnsigned false cs

/-- Read a word. -/
def readWord (word : String) (value : Json) (cs : List Char) : Option (Json × List Char) :=
  if word.toList.isPrefixOf cs then some (value, cs.drop word.length) else none

mutual

/-- Read a value. Calls are nested no deeper than there are characters: at most two of them come
before the next character is taken, and a container takes one at either end. -/
def readValue : Nat → List Char → Option (Json × List Char)
  | 0, _ => none
  | fuel + 1, cs =>
      match skipBlanks cs with
      | '"' :: cs => (readString cs).map fun (s, rest) => (.string s, rest)
      | '[' :: cs =>
          match skipBlanks cs with
          | ']' :: rest => some (.array [], rest)
          | cs => (readElements fuel cs).map fun (es, rest) => (.array es, rest)
      | '\x7b' :: cs =>
          match skipBlanks cs with
          | '\x7d' :: rest => some (.object [], rest)
          | cs => (readMembers fuel cs).map fun (ms, rest) => (.object ms, rest)
      | 'n' :: cs => readWord "null" .null ('n' :: cs)
      | 't' :: cs => readWord "true" (.bool true) ('t' :: cs)
      | 'f' :: cs => readWord "false" (.bool false) ('f' :: cs)
      | cs => (readNumber cs).map fun (n, rest) => (.number n, rest)

/-- Read the elements of an array, of which there is one, and the closing bracket. -/
def readElements : Nat → List Char → Option (List Json × List Char)
  | 0, _ => none
  | fuel + 1, cs => do
      let (e, rest) ← readValue fuel cs
      match skipBlanks rest with
      | ']' :: rest => pure ([e], rest)
      | ',' :: rest => do
          let (es, rest) ← readElements fuel rest
          pure (e :: es, rest)
      | _ => none

/-- Read the members of an object, of which there is one, and the closing brace. -/
def readMembers : Nat → List Char → Option (List (Option String × Json) × List Char)
  | 0, _ => none
  | fuel + 1, cs =>
      match skipBlanks cs with
      | '"' :: cs => do
          let (name, rest) ← readString cs
          match skipBlanks rest with
          | ':' :: rest => do
              let (value, rest) ← readValue fuel rest
              match skipBlanks rest with
              | '\x7d' :: rest => pure ([(name, value)], rest)
              | ',' :: rest => do
                  let (ms, rest) ← readMembers fuel rest
                  pure ((name, value) :: ms, rest)
              | _ => none
          | _ => none
      | _ => none

end

/-- Read a text that holds one value. -/
def ofText? (text : String) : Option Json := do
  let cs := text.toList
  let (value, rest) ← readValue (cs.length + 1) cs
  if (skipBlanks rest).isEmpty then pure value else none

end ScopedGrammar.Json
