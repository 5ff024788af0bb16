import TermGraph.Text.Hidden

/-!
Quoted texts. A text is written between double quotes; a quote and a backslash take a backslash
before them, the line end, the carriage return, the tabulator and the zero character have a letter
of their own, and every other character that is not plain is written as its number in sixteens
between braces. Which characters are plain is a parameter, so that nothing here hangs on a table.
-/

namespace TermGraph.Text

/-- How one character is written inside quotes. -/
def escape (plain : Char → Bool) (c : Char) : List Char :=
  if c = '"' then ['\\', '"']
  else if c = '\\' then ['\\', '\\']
  else if c = '\n' then ['\\', 'n']
  else if c = '\r' then ['\\', 'r']
  else if c = '\t' then ['\\', 't']
  else if c = '\x00' then ['\\', '0']
  else if plain c then [c]
  else ['\\', 'u', '\x7b'] ++ Nat.toDigits 16 c.toNat ++ ['\x7d']

/-- The text between double quotes, each character escaped. -/
def quoteWith (plain : Char → Bool) (s : String) : String :=
  String.ofList ('"' :: s.toList.flatMap (escape plain) ++ ['"'])

/-- The text between double quotes, with the characters of the table of hidden ones escaped. -/
def quote (s : String) : String := quoteWith isPlain s

end TermGraph.Text
