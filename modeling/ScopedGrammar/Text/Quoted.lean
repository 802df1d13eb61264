import ScopedGrammar.Text.Invisible

/-!
# Quoted characters

A character is quoted between apostrophes. The apostrophe, the backslash and four controls have
short escapes, and a character that does not show by itself is written by its code point.
-/
namespace ScopedGrammar.Text

/-- The lower-case hexadecimal digits of a number. -/
def hexDigits (n : Nat) : String := String.ofList (Nat.toDigits 16 n)

/-- What stands between the apostrophes for a character. -/
def escapeChar (c : Char) : String :=
  if c == '\x00' then "\\0"
  else if c == '\t' then "\\t"
  else if c == '\n' then "\\n"
  else if c == '\r' then "\\r"
  else if c == '\'' then "\\'"
  else if c == '\\' then "\\\\"
  else if isInvisible c then "\\u\x7b" ++ hexDigits c.toNat ++ "\x7d"
  else c.toString

/-- A character between apostrophes. -/
def quoteChar (c : Char) : String := "'" ++ escapeChar c ++ "'"

end ScopedGrammar.Text
