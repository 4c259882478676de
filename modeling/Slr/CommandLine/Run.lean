import Slr.Automaton.Printer
import Slr.CommandLine.Modules
import Slr.Table.Printer
import Slr.Text.Lines
import Slr.Value.Limit

/-!
The program behind the command line: it loads a grammar, prints its states, its FOLLOW sets and its table
as asked, and parses a text, printing every step and the result. Notes go to the error output. Conflicts,
and verdicts on the text that is parsed, end the program with exit code 1; everything else that goes wrong
escapes.
-/

namespace Slr.CommandLine

/-- What the program has written, and its exit code unless something escaped. -/
structure Report where
  output : String
  errors : String
  outcome : Except Failure Nat

def programName : String := "ascent"

def Report.empty : Report := ⟨"", "", .ok 0⟩

namespace Report

def print (r : Report) (line : String) : Report := { r with output := r.output ++ line ++ "\n" }

def complain (r : Report) (line : String) : Report := { r with errors := r.errors ++ line ++ "\n" }

def exit (r : Report) (code : Nat) : Report := { r with outcome := .ok code }

def escape (r : Report) (f : Failure) : Report := { r with outcome := .error f }

def channelName : Channel → String
  | .build => programName ++ ".build"
  | .action => programName ++ ".action"

/-- Writes notes; those that only inform need a verbosity above 0. -/
def log (r : Report) (verbosity : Nat) (notes : List Note) : Report :=
  let wanted := notes.filter fun n => n.level == .warning || 0 < verbosity
  wanted.foldl (fun r n => r.complain (channelName n.channel ++ ": " ++ n.message)) r

end Report

/-! ## Finding things -/

/-- The part of a text before its first colon, and the part behind it. -/
def splitTarget (target : String) : String × String :=
  let cs := target.toList
  (String.ofList (cs.takeWhile (· != ':')), String.ofList ((cs.dropWhile (· != ':')).drop 1))

/-- The names of the packages around a module, from the outside, and its own. -/
def enclosing (name : String) : List String :=
  let parts := name.splitOn "."
  (List.range parts.length).map fun i => ".".intercalate (parts.take (i + 1))

/-- Whether other modules can be inside a module. -/
def isPackage (modules : List Module) (name : String) : Bool :=
  modules.any fun m => m.name == name && m.origin == .package

def noModule (modules : List Module) (name : String) (parent : Option String) : Failure :=
  let hint := match parent with
    | some p => if isPackage modules p then "" else "; " ++ Text.quoted p ++ " is not a package"
    | none => ""
  .moduleNotFound ("No module named " ++ Text.quoted name ++ hint)

def findFrom (modules : List Module) (parent : Option String) :
    List String → Except Failure (Option Module)
  | [] => .ok none
  | name :: inner =>
    match modules.find? fun m => m.name == name with
    | none => .error (noModule modules name parent)
    | some m =>
      if inner.isEmpty then .ok (some m) else findFrom modules (some name) inner

def findModule (modules : List Module) (name : String) : Except Failure Module :=
  if name.isEmpty then .error (.valueError "Empty module name")
  else if startsWith "." name then
    .error (.typeError ("the 'package' argument is required to perform a relative import for " ++
      Text.quoted name))
  else do
    match ← findFrom modules none (enclosing name) with
    | some m => return m
    | none => throw (.valueError "Empty module name")

/-- The thing a target names, or the only thing of a sort in the module it names. -/
def load (modules : List Module) (target : String) (wanted : Thing → Bool) (what : String) :
    Except Failure Thing := do
  let (moduleName, name) := splitTarget target
  let m ← findModule modules moduleName
  if name.isEmpty then
    match (m.members.map Prod.snd).filter wanted with
    | [thing] => return thing
    | several =>
      throw (.valueError ("Found " ++ toString several.length ++ " " ++ what ++ "s in " ++
        moduleName ++ "; say which one with " ++ moduleName ++ ":NAME"))
  else
    match m.attribute? name with
    | some thing => return thing
    | none =>
      throw (.attributeError ("module '" ++ moduleName ++ "' has no attribute '" ++ name ++ "'"))

def loadGrammar (modules : List Module) (target : String) : Except Failure AttributedGrammar := do
  match ← load modules target Thing.isGrammar "grammar" with
  | .grammar g => return g
  | .rule workshop index =>
    match (Workshop.grammar index workshop).1 with
    | .ok g => return g
    | .error e => throw (.grammar e)
  | _ => throw (.valueError (target ++ " is not a Grammar or a rule"))

/-- The target of the lexer: the one that is asked for, if any, and else `tokenize` in the module of the
grammar. -/
def lexerTarget (asked : Option Setting) (target : String) : String :=
  let usual := (splitTarget target).1 ++ ":tokenize"
  match asked with
  | some (.text text) => if text.isEmpty then usual else text
  | some .emptyList | none => usual

/-! ## The program -/

def printStates (r : Report) (verbosity : Nat) (g : Grammar) : Report :=
  let a := Automaton.build g
  let r := r.log verbosity a.notes
  ((List.range a.size).foldl (fun r i => r.print (a.stateText i)) r).print ""

def printFollow (r : Report) (g : Grammar) : Report :=
  let line (e : String × List String) : String :=
    "FOLLOW(" ++ e.1 ++ ") = \x7b" ++ ", ".intercalate e.2 ++ "\x7d"
  (g.follow.foldl (fun r e => r.print (line e)) r).print ""

def printSteps (r : Report) (s : Session) : Report :=
  s.steps.toList.foldl (fun r step => r.print step.text) r

/-- The result of a parse in print. -/
def resultText (v : Value) : Except Fault String :=
  if v.isWritable then
    .ok (match v with
      | .tree .. => v.outlineText
      | v => v.text)
  else .error (.tooManyDigits "")

/-- A verdict on the text ends the program; other errors escape. -/
def judge (r : Report) (e : ParseError) : Report :=
  if e.isVerdict then (r.complain e.message).exit 1 else r.escape (.parse e)

def parseText (r : Report) (verbosity : Nat) (g : AttributedGrammar) (t : Table) (lexer : Thing)
    (text : Setting) : Report :=
  let called := lexer.call text
  let r := r.log verbosity called.notes
  match called.tokens with
  | .error (.parse e) => judge r e
  | .error f => r.escape f
  | .ok items =>
    match Ascent.parse t g.semantics (.ofStream (.ofItems items false)) with
    | none => r.escape .unfinished
    | some (result, s) =>
      let r := r.log verbosity s.notes.toList
      match result with
      | .error e => judge (if e.isVerdict then printSteps r s else r) e
      | .ok v =>
        let r := printSteps r s
        match resultText v with
        | .ok text => (r.print text).exit 0
        | .error f => r.escape (.other f)

def runParse (r : Report) (modules : List Module) (o : Options) (target : String)
    (g : AttributedGrammar) (t : Table) : Report :=
  match o.parse with
  | none => r.exit 0
  | some text =>
    match load modules (lexerTarget o.lexer target) Thing.isCallable "lexer" with
    | .error f => r.escape f
    | .ok lexer => parseText r o.verbosity g t lexer text

def runGrammar (modules : List Module) (o : Options) (target : String) (g : AttributedGrammar) :
    Report :=
  let r := Report.empty
  let r := if o.states then printStates r o.verbosity g.grammar else r
  let r := if o.follow then printFollow r g.grammar else r
  let a := Automaton.build g.grammar
  let r := r.log o.verbosity a.notes
  match a.table g.grammar.follow with
  | .error e => (r.complain e.message).exit 1
  | .ok t =>
    let r := r.log o.verbosity [t.note]
    let r := if o.table then (r.print t.text).print "" else r
    runParse r modules o target g t

/-- Runs the program on its arguments. Wrong arguments end it with exit code 2 and the last line of what
is wrong, without an end. -/
def run (modules : List Module) (arguments : List String) : Report :=
  match options arguments with
  | .error message => ⟨"", Text.lastLine (programName ++ ": error: " ++ message), .ok 2⟩
  | .ok o =>
    if o.help then Report.empty
    else
      let target := o.grammar.getD ""
      match loadGrammar modules target with
      | .error f => Report.empty.escape f
      | .ok g => runGrammar modules o target g

end Slr.CommandLine
