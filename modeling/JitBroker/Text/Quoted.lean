import JitBroker.Text.Unprintable

/-!
# Quoted texts in listings

Listings for people show a text in double quotes. Quotes, backslashes, tabs and line ends have
escapes of their own; every other character without a printed form is shown by its number, in
lower-case hexadecimal digits between braces.
-/

namespace JitBroker.Text

/-- The number of a character between braces. -/
def numbered (c : Char) : List Char :=
  ['\\', 'u', '\x7b'] ++ Nat.toDigits 16 c.toNat ++ ['\x7d']

/-- A character as it stands in a quoted text. -/
def quoteChar (c : Char) : List Char :=
  if c = '"' then ['\\', '"']
  else if c = '\\' then ['\\', '\\']
  else if c = '\t' then ['\\', 't']
  else if c = '\r' then ['\\', 'r']
  else if c = '\n' then ['\\', 'n']
  else if c.toNat = 0 then ['\\', '0']
  else if c.toNat < 32 ∨ c.toNat = 127 then numbered c
  else if c.toNat < 128 then [c]
  else if isUnprintable c then numbered c
  else [c]

/-- A text in quotes. -/
def quoted (s : String) : String := "\"" ++ String.ofList (s.toList.flatMap quoteChar) ++ "\""

end JitBroker.Text
