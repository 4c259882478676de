import Slr.Text.Hex
import Slr.Text.Printable

/-!
Quoted text. A text stands between single quotes, or between double quotes when it holds a single
quote and no double one. A backslash goes before the quote in use and before a backslash; the line
feed, the tabulator and the carriage return have letters of their own; every other character that is
not printable is written by its code point in two, four or eight digits.
-/

namespace Slr.Text

def quoteFor (cs : List Char) : Char := if '\'' ∈ cs ∧ '"' ∉ cs then '"' else '\''

def escapeCodePoint (n : Nat) : List Char :=
  if n < 0x100 then '\\' :: 'x' :: hex 2 n
  else if n < 0x10000 then '\\' :: 'u' :: hex 4 n
  else '\\' :: 'U' :: hex 8 n

def escapeChar (quote c : Char) : List Char :=
  if c = quote ∨ c = '\\' then ['\\', c]
  else if c = '\n' then ['\\', 'n']
  else if c = '\t' then ['\\', 't']
  else if c = '\r' then ['\\', 'r']
  else if isPrintable c then [c]
  else escapeCodePoint c.toNat

def quoteChars (cs : List Char) : List Char :=
  let quote := quoteFor cs
  quote :: (cs.flatMap (escapeChar quote) ++ [quote])

def quoted (s : String) : String := String.ofList (quoteChars s.toList)

end Slr.Text
