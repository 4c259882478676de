import Slr.Rule.Gather

/-!
Gathering with a queue in which a rule may wait many times. What a rule mentions is put at the end of the
queue, unless it was taken up; what was taken up since then is passed over when its turn comes.
-/

namespace Slr.Workshop

/-- Takes up the rules of a queue; `none` if so many steps are not enough. -/
def drain : Nat → List RuleRef → List RuleRef → List Draft → Workshop → Option (Made (List Draft))
  | 0, _, _, _, _ => none
  | _ + 1, [], _, found, w => some (.ok found, w)
  | steps + 1, r :: queue, taken, found, w =>
    if r ∈ taken then drain steps queue taken found w
    else if taken.any fun t => t.name == r.name then some (.error (.sameName r.name), w)
    else
      match body r.id w with
      | (.error e, w) => some (.error e, w)
      | (.ok alternatives, w) =>
        let taken := taken ++ [r]
        let waiting := queue ++ (mentioned alternatives).filter fun m => m ∉ taken
        drain steps waiting taken (found ++ drafts r.name alternatives) w

end Slr.Workshop
