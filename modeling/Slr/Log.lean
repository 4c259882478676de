/-! Notes on what is going on, for an onlooker: a level, a channel and a line of text. -/

namespace Slr

inductive Level where
  | info
  | warning
  deriving DecidableEq

/-- What a note is about: the making of a table, or the moves of a parser. -/
inductive Channel where
  | build
  | action
  deriving DecidableEq

structure Note where
  level : Level
  channel : Channel
  message : String

end Slr
