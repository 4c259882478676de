import Slr.Grammar.Draft
import Slr.Rule.Workshop

/-!
From rules to a grammar. Starting with one rule, the rules it mentions are taken up in the order in which
they are first mentioned, each once, and the alternatives of each become its productions. Two rules of one
name cannot be in one grammar. There are no more rules to take up than rules written and repetitions
written in them.
-/

namespace Slr

mutual

/-- The repetitions in a form. -/
def Form.repetitions : Form → Nat
  | .nothing | .terminal _ | .rule _ | .shared _ => 0
  | .choice parts | .sequence parts => Form.repetitionsOf parts
  | .act form _ | .actWith form _ => form.repetitions
  | .repeated _ parts => Form.repetitionsOf parts + 1

def Form.repetitionsOf : List Form → Nat
  | [] => 0
  | form :: rest => form.repetitions + Form.repetitionsOf rest

end

def RuleFamily.size (f : RuleFamily) : Nat :=
  f.rules.length + Form.repetitionsOf (f.rules.map WrittenRule.form) + Form.repetitionsOf f.shared

namespace Workshop

def drafts (name : String) (alternatives : List Alternative) : List Draft :=
  alternatives.map fun a => ⟨.nonterminal name, a.parts.map Part.candidate, a.action⟩

def mentioned (alternatives : List Alternative) : List RuleRef :=
  alternatives.flatMap fun a => a.parts.filterMap Part.ruleRef?

/-- Takes up the rules of a queue; `taken` are those before. -/
def gatherFrom : Nat → List RuleRef → List RuleRef → List Draft → Workshop → Made (List Draft)
  | 0, _, _, found, w => (.ok found, w)
  | _ + 1, [], _, found, w => (.ok found, w)
  | fuel + 1, r :: queue, taken, found, w =>
    if taken.any fun t => t.name == r.name then (.error (.sameName r.name), w)
    else
      match body r.id w with
      | (.error e, w) => (.error e, w)
      | (.ok alternatives, w) =>
        let taken := taken ++ [r]
        let new := (mentioned alternatives).filter fun m => m ∉ taken && m ∉ queue
        gatherFrom fuel (queue ++ new.eraseDups) taken (found ++ drafts r.name alternatives) w

/-- The productions of a rule and of everything it mentions. -/
def gather (start : RuleRef) (w : Workshop) : Made (List Draft) :=
  gatherFrom (w.family.size + 1) [start] [] [] w

/-- The grammar with a written rule as its start. -/
def grammar (index : Nat) (w : Workshop) : Made AttributedGrammar :=
  let start := w.refTo (.written index)
  match gather start w with
  | (.error e, w) => (.error e, w)
  | (.ok found, w) => (AttributedGrammar.ofDrafts found (.nonterminal start.name), w)

end Workshop

end Slr
