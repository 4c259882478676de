import Slr.Fault
import Slr.Symbol

/-! Tokens, and the things a source may yield in their place. -/

namespace Slr

structure Token where
  kind : String
  value : Value
  start : Int
  stop : Int
  deriving Inhabited

/-- The end of the input, at a place of no width. -/
def Token.atEnd (place : Int) : Token := ⟨endName, .none, place, place⟩

def Token.isEnd (t : Token) : Bool := t.kind == endName

@[simp] theorem Token.isEnd_iff {t : Token} : t.isEnd = true ↔ t.kind = endName := beq_iff_eq

@[simp] theorem Token.isEnd_eq_false_iff {t : Token} : t.isEnd = false ↔ t.kind ≠ endName :=
  beq_eq_false_iff_ne

/-- What a source yields: a token, a kind with a value, nothing (which ends the input), or a fault. -/
inductive RawToken where
  | token (t : Token)
  | pair (kind : String) (value : Value)
  | nothing
  | fault (f : Fault)

/-- The token at index `i` among those pulled; a pair takes up the place from `i` to `i + 1`. -/
def RawToken.token? (i : Nat) : RawToken → Option Token
  | token t => some t
  | pair kind value => some ⟨kind, value, i, i + 1⟩
  | nothing | fault _ => none

end Slr
