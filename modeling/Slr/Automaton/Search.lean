import Slr.Automaton.Path

/-!
The search for a state with a queue. The trail that has waited longest is taken up. If it does not lead to
the state, it is extended over each successor of where it ends, and the longer trails wait behind the
others; a state where that was done before is passed over. So a state may wait at the end of many trails.
-/

namespace Slr.Automaton

/-- What is found behind trails that wait: the symbols that lead to the state, or nothing when no trail is
left; `none` if so many steps are not enough. -/
def seek (a : Automaton) (target : Int) : Nat → List Nat → List Trail → Option (Option (List Symbol))
  | 0, _, _ => none
  | _ + 1, _, [] => some none
  | steps + 1, visited, t :: queue =>
    if (t.1 : Int) = target then some (some t.2)
    else if t.1 ∈ visited then seek a target steps visited queue
    else seek a target steps (t.1 :: visited) (queue ++ a.extend t)

end Slr.Automaton
