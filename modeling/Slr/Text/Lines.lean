/-!
Lines of a text. A line ends at a line feed, a carriage return, the two of them together, or one of the
separators that stand for a line end elsewhere.
-/

namespace Slr.Text

def isLineEnd (c : Char) : Bool :=
  ['\n', '\r', '\x0b', '\x0c', '\x1c', '\x1d', '\x1e', '\x85', '\u2028', '\u2029'].contains c

/-- The last line of a text that a line feed is written behind. A carriage return at its end belongs to
that line feed; any other line end leaves nothing behind it. -/
def lastLine (text : String) : String :=
  let backward := match text.toList.reverse with
    | '\r' :: before => before
    | cs => cs
  String.ofList (backward.takeWhile (!isLineEnd ·)).reverse

end Slr.Text
