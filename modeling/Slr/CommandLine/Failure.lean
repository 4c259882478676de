import Slr.Grammar.Error
import Slr.Parser.Error

/-! What can escape from the command line program. -/

namespace Slr.CommandLine

inductive Failure where
  | grammar (e : GrammarError)
  | parse (e : ParseError)
  /-- A fault in finding or calling what the arguments name. -/
  | other (f : Fault)
  /-- A parse took too many moves. -/
  | unfinished

namespace Failure

def message : Failure → String
  | grammar e => e.message
  | parse e => e.message
  | other f => f.message
  | unfinished => "too many moves"

def valueError (text : String) : Failure := other (.ordinary "ValueError" text)

def typeError (text : String) : Failure := other (.ordinary "TypeError" text)

def attributeError (text : String) : Failure := other (.ordinary "AttributeError" text)

def moduleNotFound (text : String) : Failure := other (.ordinary "ModuleNotFoundError" text)

def notIterable (kind : String) : Failure := typeError ("'" ++ kind ++ "' object is not iterable")

def notCallable (kind : String) : Failure := typeError ("'" ++ kind ++ "' object is not callable")

end Failure

end Slr.CommandLine
