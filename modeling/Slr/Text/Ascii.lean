import Slr.Text.Hex

/-!
Text between double quotes in ASCII alone, as an object notation wants it: code points above U+FFFF
are written as two halves of a surrogate pair.
-/

namespace Slr.Text

def escapeUnit (n : Nat) : List Char := '\\' :: 'u' :: hex 4 n

/-- The UTF-16 units of a code point. -/
def units (n : Nat) : List Nat :=
  if n < 0x10000 then [n]
  else [0xD800 + (n - 0x10000) / 0x400, 0xDC00 + (n - 0x10000) % 0x400]

def escapeAsciiChar (c : Char) : List Char :=
  if c = '"' ∨ c = '\\' then ['\\', c]
  else if c = '\n' then ['\\', 'n']
  else if c = '\t' then ['\\', 't']
  else if c = '\r' then ['\\', 'r']
  else if c = '\x08' then ['\\', 'b']
  else if c = '\x0c' then ['\\', 'f']
  else if ' ' ≤ c ∧ c ≤ '~' then [c]
  else (units c.toNat).flatMap escapeUnit

def asciiQuoted (s : String) : String :=
  String.ofList ('"' :: (s.toList.flatMap escapeAsciiChar ++ ['"']))

end Slr.Text
