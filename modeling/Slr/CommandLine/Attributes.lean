import Slr.CommandLine.Thing

/-!
What a module knows about itself and can do as an object. These attributes are found by their names only:
they do not count when a module is searched for a thing of some sort.
-/

namespace Slr.CommandLine

/-- Where a module comes from. -/
inductive Origin where
  /-- A file with other modules inside. -/
  | package
  | file
  | memory
  deriving DecidableEq

namespace Attributes

def objects (kind : String) (names : List String) : List (String × Thing) :=
  names.map (·, .object kind)

/-- What is known of a module that was read from a file. -/
def loaded : List (String × Thing) :=
  objects "str" ["__package__", "__file__", "__cached__"] ++ objects "dict" ["__builtins__"] ++
    [("__loader__", .object "SourceFileLoader"), ("__spec__", .object "ModuleSpec")]

/-- What the origin of a module tells about it. -/
def ofOrigin : Origin → List (String × Thing)
  | .memory => objects "NoneType" ["__doc__", "__package__", "__loader__", "__spec__"]
  | .file => objects "NoneType" ["__doc__"] ++ loaded
  | .package => objects "str" ["__doc__"] ++ objects "list" ["__path__"] ++ loaded

def oneTooMany (name : String) : Thing :=
  .refusing (.typeError (name ++ "() takes no arguments (1 given)"))

/-- A function with a refusal of its own for each kind of argument. -/
def refusingKinds (refusal : String → String) : Thing :=
  .callable fun setting => .failing (.typeError (refusal setting.kindName))

def badName : String := "module() argument 'name' must be str, not list"

/-- Writes a module as a text, without a format. -/
def format : Thing :=
  .callable fun
    | .text "" => .giving [Called.loneCharacter]
    | .text _ => .failing (.typeError "unsupported format string passed to module.__format__")
    | .emptyList => .failing (.typeError "__format__() argument must be str, not list")

def methods : List (String × Thing) :=
  ["__eq__", "__ge__", "__gt__", "__le__", "__lt__", "__ne__", "__subclasshook__"].map
      (·, .maker "NotImplementedType") ++
    (["__dir__", "__getstate__", "__reduce__", "__sizeof__"].map fun name => (name, oneTooMany name)) ++
    ["__hash__", "__repr__", "__str__"].map
      (·, .refusing (.typeError "expected 0 arguments, got 1")) ++
    [("__class__", .textMaker "module" badName), ("__init__", .textMaker "NoneType" badName),
      ("__init_subclass__", oneTooMany "module.__init_subclass__"),
      ("__setattr__", .refusing (.typeError " expected 2 arguments, got 1")),
      ("__new__", refusingKinds fun kind => "module.__new__(X): X is not a type object (" ++ kind ++ ")"),
      ("__reduce_ex__", refusingKinds fun kind =>
        "'" ++ kind ++ "' object cannot be interpreted as an integer"),
      ("__format__", format)]

/-- All attributes of a module but its members. -/
def ofModule (origin : Origin) : List (String × Thing) :=
  objects "str" ["__name__"] ++ objects "dict" ["__dict__", "__annotations__"] ++ ofOrigin origin ++
    methods

end Attributes

end Slr.CommandLine
