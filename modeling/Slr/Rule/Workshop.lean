import Slr.Rule.Flatten

/-!
Making bodies of rules. The workshop knows whose body is being made and how many hidden rules it has made
there; from these a hidden rule takes its name. A body is made when it is first asked for, under its own
name and with the count at zero, and afterwards the workshop is back where it was, whether that went well
or not. A body that went well is kept.
-/

namespace Slr

/-- A hidden rule: what it repeats, and the sequence it repeats. -/
structure HiddenRule where
  name : String
  repetition : Repetition
  parts : List Expr

structure Workshop where
  family : RuleFamily
  shared : List Expr
  /-- The rule whose body is being made. -/
  current : Option RuleId
  /-- The number of the next hidden rule there. -/
  next : Nat
  hidden : List (RuleId × HiddenRule)
  bodies : List (RuleId × List Alternative)

namespace Workshop

/-! ## The values of repetitions -/

/-- Several values are kept together in a tuple; one stands for itself. -/
def itemOf : List Value → Value
  | [v] => v
  | values => .tuple values

def item : Action := .ofFunction fun values => .ok (itemOf values)

def startList : Action := .ofFunction fun values => .ok (.list [itemOf values])

def extendList : Action := .ofFunction fun values =>
  match values with
  | .list items :: rest => .ok (.list (items ++ [itemOf rest]))
  | v :: _ => .error (.cannotAppend v)
  | [] => .error (.missing "_append_list" ["accumulator"])

/-- The right hand side of a hidden rule: repetitions go on to the left, so that a list grows at its end. -/
def expand (self : RuleRef) (h : HiddenRule) : Except GrammarError Expr :=
  let more := (Expr.sequence (.rule self :: h.parts)).map (.act · extendList)
  match h.repetition with
  | .optional =>
    (Expr.sequence h.parts).map fun e => .either (.act e item) (.act .nothing (.constant .none))
  | .oneOrMore => do
    let first ← Expr.sequence h.parts
    return .either (.act first startList) (← more)
  | .zeroOrMore => do return .either (.act .nothing .list) (← more)

/-! ## Making expressions -/

def nameOf (w : Workshop) : RuleId → String
  | .written i => ((w.family.rules[i]?).map WrittenRule.name).getD ""
  | id => ((w.hidden.lookup id).map HiddenRule.name).getD ""

def refTo (w : Workshop) (id : RuleId) : RuleRef := ⟨id, w.nameOf id⟩

/-- The name under which hidden rules are made. -/
def definition (w : Workshop) : String :=
  match w.current with
  | none => "__global"
  | some id => w.nameOf id

def owner (w : Workshop) : Option Nat :=
  match w.current with
  | some (.written i) => some i
  | _ => none

/-- A new hidden rule over the sequence of `parts`. -/
def generate (w : Workshop) (repetition : Repetition) (parts : List Expr) : RuleRef × Workshop :=
  let id := RuleId.hidden w.owner w.next
  let name := "__gen_" ++ w.definition ++ "_" ++ toString w.next
  (⟨id, name⟩, { w with next := w.next + 1, hidden := (id, ⟨name, repetition, parts⟩) :: w.hidden })

abbrev Made (α : Type) := Except GrammarError α × Workshop

mutual

/-- Makes an expression of a form: parts first, from left to right. -/
def make : Form → Workshop → Made Expr
  | .nothing, w => (.ok .nothing, w)
  | .terminal name, w => (.ok (.terminal name), w)
  | .rule i, w => (.ok (.rule (w.refTo (.written i))), w)
  | .shared i, w => (.ok ((w.shared[i]?).getD .nothing), w)
  | .choice parts, w =>
    match makeAll parts w with
    | (.error e, w) => (.error e, w)
    | (.ok es, w) => (Expr.choice es, w)
  | .sequence parts, w =>
    match makeAll parts w with
    | (.error e, w) => (.error e, w)
    | (.ok es, w) => (Expr.sequence es, w)
  | .act form action, w =>
    match make form w with
    | (.error e, w) => (.error e, w)
    | (.ok e, w) => (.ok (.act e action), w)
  | .actWith form value, w =>
    match make form w with
    | (.error e, w) => (.error e, w)
    | (.ok _, w) => (.error (.notCallable value), w)
  | .repeated repetition parts, w =>
    match makeAll parts w with
    | (.error e, w) => (.error e, w)
    | (.ok es, w) =>
      let (r, w) := w.generate repetition es
      (.ok (.rule r), w)

def makeAll : List Form → Workshop → Made (List Expr)
  | [], w => (.ok [], w)
  | form :: rest, w =>
    match make form w with
    | (.error e, w) => (.error e, w)
    | (.ok e, w) =>
      match makeAll rest w with
      | (.error e, w) => (.error e, w)
      | (.ok es, w) => (.ok (e :: es), w)

end

/-- The expression of a rule, made anew. -/
def makeRule (id : RuleId) (w : Workshop) : Made Expr :=
  match id with
  | .written i =>
    match w.family.rules[i]? with
    | some r => make r.form w
    | none => (.ok .nothing, w)
  | .hidden .. =>
    match w.hidden.lookup id with
    | some h => (expand (w.refTo id) h, w)
    | none => (.ok .nothing, w)

/-- The alternatives of a rule, from what is kept or made now. -/
def body (id : RuleId) (w : Workshop) : Made (List Alternative) :=
  match w.bodies.lookup id with
  | some alternatives => (.ok alternatives, w)
  | none =>
    let (made, after) := makeRule id { w with current := some id, next := 0 }
    let back := { after with current := w.current, next := w.next }
    match made.bind Expr.alternatives with
    | .error e => (.error e, back)
    | .ok alternatives =>
      (.ok alternatives, { back with bodies := (id, alternatives) :: back.bodies })

def empty (family : RuleFamily) : Workshop := ⟨family, [], none, 0, [], []⟩

def shareAll : List Form → Workshop → Made Unit
  | [], w => (.ok (), w)
  | form :: rest, w =>
    match make form w with
    | (.error e, w) => (.error e, w)
    | (.ok e, w) => shareAll rest { w with shared := w.shared ++ [e] }

/-- A workshop with the shared expressions of a family made, outside of all bodies. -/
def ofFamily (family : RuleFamily) : Except GrammarError Workshop :=
  match shareAll family.shared (empty family) with
  | (.error e, _) => .error e
  | (.ok (), w) => .ok w

end Workshop

end Slr
