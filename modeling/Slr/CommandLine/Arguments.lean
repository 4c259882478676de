import Slr.Text.Decimal
import Slr.Text.Quoted

/-!
Command line arguments. Long options may be shortened as long as they stay unique, a value may follow an
equals sign, options of one letter may share a dash, and options may stand on either side of the grammar.
A text that looks like a negative number, or that holds a space, is never an option. Behind `--` nothing
is.
-/

namespace Slr.CommandLine

inductive Flag where
  | help
  | states
  | follow
  | table
  | parse
  | lexer
  | verbose
  deriving DecidableEq

namespace Flag

def takesValue : Flag → Bool
  | parse | lexer => true
  | _ => false

/-- Every way to write a flag in full. -/
def spellings : List (String × Flag) :=
  [("-h", help), ("--help", help), ("--states", states), ("--follow", follow), ("--table", table),
    ("--parse", parse), ("--lexer", lexer), ("-v", verbose), ("--verbose", verbose)]

/-- A flag in messages: all its spellings. -/
def title (f : Flag) : String :=
  "/".intercalate ((spellings.filter fun s => s.2 == f).map Prod.fst)

def ofSpelling? (s : String) : Option Flag := spellings.lookup s

end Flag

/-- What an option is set to. The separator in the place of a value leaves an empty list. -/
inductive Setting where
  | text (text : String)
  | emptyList
  deriving DecidableEq

/-- The name of a setting's kind, as messages give it. -/
def Setting.kindName : Setting → String
  | text _ => "str"
  | emptyList => "list"

structure Options where
  grammar : Option String
  states : Bool
  follow : Bool
  table : Bool
  parse : Option Setting
  lexer : Option Setting
  verbosity : Nat
  help : Bool
  /-- Arguments nobody asked for. -/
  extra : List String

def Options.empty : Options := ⟨none, false, false, false, none, none, 0, false, []⟩

inductive Word where
  | plain (text : String)
  | separator
  /-- A flag, whether it is written in several letters, and what stands in the same argument. -/
  | option (flag : Flag) (long : Bool) (inline : Option String)
  | unknown (text : String)

/-! ## What an argument is -/

def startsWith (start text : String) : Bool := start.toList.isPrefixOf text.toList

/-- A text up to its first equals sign, and what is behind the sign. -/
def splitValue (text : String) : String × Option String :=
  let cs := text.toList
  match cs.dropWhile (· != '=') with
  | [] => (text, none)
  | _ :: value => (String.ofList (cs.takeWhile (· != '=')), some (String.ofList value))

def isLong (text : String) : Bool := startsWith "--" text

/-- The flags that a text may be short for, each with its spelling and the value that is part of it. -/
def abbreviated (text : String) : List (String × Flag × Option String) :=
  if isLong text then
    let (start, inline) := splitValue text
    (Flag.spellings.filter fun s => startsWith start s.1).map fun s => (s.1, s.2, inline)
  else
    let letter := String.ofList (text.toList.take 2)
    let tail := String.ofList (text.toList.drop 2)
    Flag.spellings.filterMap fun s =>
      if s.1 == letter then some (s.1, s.2, some tail)
      else if startsWith text s.1 then some (s.1, s.2, none)
      else none

/-- Without a line end that it may have. -/
def dropLineEnd (cs : List Char) : List Char := if cs.getLast? = some '\n' then cs.dropLast else cs

/-- Digits behind a minus sign, with a point before the last of them or none. -/
def looksNegative (text : String) : Bool :=
  match dropLineEnd text.toList with
  | '-' :: cs =>
    match cs.dropWhile Text.isDecimal with
    | [] => !cs.isEmpty
    | '.' :: fraction => !fraction.isEmpty && fraction.all Text.isDecimal
    | _ => false
  | _ => false

def inFull? (text : String) : Option Word :=
  match Flag.ofSpelling? text with
  | some f => some (.option f (isLong text) none)
  | none =>
    match splitValue text with
    | (_, none) => none
    | (start, inline) => (Flag.ofSpelling? start).map (.option · (isLong start) inline)

def ambiguous (text : String) (spellings : List String) : String :=
  "ambiguous option: " ++ text ++ " could match " ++ ", ".intercalate spellings

def classify (text : String) : Except String Word :=
  if !startsWith "-" text || text.length == 1 then .ok (.plain text)
  else match inFull? text with
    | some word => .ok word
    | none =>
      match abbreviated text with
      | [(spelling, flag, inline)] => .ok (.option flag (isLong spelling) inline)
      | [] => .ok (if looksNegative text || text.contains ' ' then .plain text else .unknown text)
      | several => .error (ambiguous text (several.map Prod.fst))

def classifyAll : List String → Except String (List Word)
  | [] => .ok []
  | "--" :: rest => .ok (.separator :: rest.map .plain)
  | text :: rest => do return (← classify text) :: (← classifyAll rest)

/-! ## What the arguments say -/

def Setting.ofText (text : String) : Setting := if text == "--" then .emptyList else .text text

def Options.set (o : Options) : Flag → String → Options
  | .help, _ => { o with help := true }
  | .states, _ => { o with states := true }
  | .follow, _ => { o with follow := true }
  | .table, _ => { o with table := true }
  | .parse, text => { o with parse := some (.ofText text) }
  | .lexer, text => { o with lexer := some (.ofText text) }
  | .verbose, _ => { o with verbosity := o.verbosity + 1 }

def ignored (f : Flag) (text : String) : String :=
  "argument " ++ f.title ++ ": ignored explicit argument " ++ Text.quoted text

/-- A flag of one letter with more letters behind it, which are flags too. -/
def setLetters (o : Options) (f : Flag) : List Char → Except String Options
  | [] => .ok (o.set f "")
  | c :: rest =>
    match Flag.ofSpelling? (String.ofList ['-', c]) with
    | some g => setLetters (o.set f "") g rest
    | none => .error (ignored f (String.ofList (c :: rest)))

/-- An option with what stands in the same argument. -/
def setOption (o : Options) (f : Flag) (long : Bool) (inline : Option String) : Except String Options :=
  match f.takesValue, inline with
  | true, some text => .ok (o.set f text)
  | true, none => .error ("argument " ++ f.title ++ ": expected one argument")
  | false, none => .ok (o.set f "")
  | false, some text =>
    if long || text.isEmpty then .error (ignored f text) else setLetters o f text.toList

/-- A word that is no option: the first one is the grammar. -/
def Options.place (o : Options) (text : String) (asWritten : List String) : Options :=
  if o.grammar.isNone then { o with grammar := some text } else { o with extra := o.extra ++ asWritten }

/-- An option that wants a value and has none takes the next word, if that is plain. -/
def joinValues : List Word → List Word
  | .option f long none :: .plain text :: rest =>
    if f.takesValue then .option f long (some text) :: joinValues rest
    else .option f long none :: .plain text :: joinValues rest
  | w :: rest => w :: joinValues rest
  | [] => []

/-- Takes words in their order, up to a call for help. -/
def consume (o : Options) : List Word → Except String Options
  | [] => .ok o
  | .plain text :: .separator :: rest => consume (o.place text [text, "--"]) rest
  | .plain text :: rest => consume (o.place text [text]) rest
  | .separator :: .plain text :: rest => consume (o.place text ["--", text]) rest
  | .separator :: rest => consume { o with extra := o.extra ++ ["--"] } rest
  | .unknown text :: rest => consume { o with extra := o.extra ++ [text] } rest
  | .option f long inline :: rest =>
    match setOption o f long inline with
    | .error e => .error e
    | .ok o => if o.help then .ok o else consume o rest

/-- The options, or what is wrong with the arguments. -/
def options (arguments : List String) : Except String Options := do
  let o ← consume .empty (joinValues (← classifyAll arguments))
  if o.help then return o
  if o.grammar.isNone then throw "the following arguments are required: grammar"
  if !o.extra.isEmpty then throw ("unrecognized arguments: " ++ " ".intercalate o.extra)
  return o

end Slr.CommandLine
