import Slr.Action.Basic
import Slr.Automaton.Basic
import Slr.Automaton.Closure
import Slr.Automaton.Item
import Slr.Automaton.Path
import Slr.Automaton.Printer
import Slr.CommandLine.Arguments
import Slr.CommandLine.Attributes
import Slr.CommandLine.Failure
import Slr.CommandLine.Modules
import Slr.CommandLine.Run
import Slr.CommandLine.Thing
import Slr.Fault
import Slr.Grammar.Basic
import Slr.Grammar.Draft
import Slr.Grammar.Error
import Slr.Grammar.Printer
import Slr.Language.Arithmetic
import Slr.Language.Arrays
import Slr.Language.Scanner
import Slr.Log
import Slr.Lookahead.First
import Slr.Lookahead.Follow
import Slr.Lookahead.Sweeps
import Slr.Main
import Slr.Number.Layout
import Slr.Number.Reader
import Slr.Number.Rounding
import Slr.Number.Shortest
import Slr.Parser.Ascent
import Slr.Parser.Error
import Slr.Parser.Returns
import Slr.Parser.Session
import Slr.Parser.Stack
import Slr.Reachability
import Slr.Rule.Basic
import Slr.Rule.Flatten
import Slr.Rule.Gather
import Slr.Rule.Workshop
import Slr.Stream.Basic
import Slr.Stream.Token
import Slr.Symbol
import Slr.Table.Basic
import Slr.Table.Builder
import Slr.Table.Construction
import Slr.Table.Filling
import Slr.Table.Printer
import Slr.Text.Ascii
import Slr.Text.Blank
import Slr.Text.Column
import Slr.Text.Decimal
import Slr.Text.Hex
import Slr.Text.Lines
import Slr.Text.Printable
import Slr.Text.Quoted
import Slr.Value.Basic
import Slr.Value.Equality
import Slr.Value.Limit
import Slr.Value.Operators
import Slr.Value.Printer
import Slr.Proofs.Derivation.Rightmost
import Slr.Proofs.Grammar.Symbols
import Slr.Proofs.Reachability
import Slr.Proofs.Parser.Moves
import Slr.Proofs.Stream.Pulls
import Slr.Proofs.Parser.Events
import Slr.Proofs.Association
import Slr.Proofs.Lookahead.First
import Slr.Proofs.Lookahead.Follow
import Slr.Proofs.Automaton.Closure
import Slr.Proofs.Automaton.States
import Slr.Proofs.Automaton.Viable
import Slr.Proofs.Automaton.Prefixes
import Slr.Proofs.Automaton.Paths
import Slr.Proofs.Table.Entries
import Slr.Proofs.Table.Filling
import Slr.Proofs.Table.Exactness
import Slr.Proofs.Derivation.Shape
import Slr.Proofs.Derivation.Visits
import Slr.Proofs.Derivation.Replay
import Slr.Proofs.Parser.Soundness
import Slr.Proofs.Parser.Completeness
import Slr.Proofs.Automaton.Extension
import Slr.Proofs.Parser.Lockstep
import Slr.Proofs.Parser.Halting
import Slr.Proofs.Parser.Unambiguous
import Slr.Proofs.Parser.Rejection
import Slr.Proofs.Automaton.Depth
import Slr.Proofs.Parser.Procedures
import Slr.Proofs.Parser.Frames
import Slr.Proofs.Parser.Calls
import Slr.Proofs.Parser.Agreement
import Slr.Proofs.Parser.Nesting
import Slr.Proofs.Parser.Safety
import Slr.Proofs.Parser.Termination
import Slr.Proofs.Parser.Actions
import Slr.Proofs.Grammar.Shared
import Slr.Proofs.Grammar.Rearranged
import Slr.Proofs.Lookahead.Shared
import Slr.Proofs.Automaton.Shared
import Slr.Proofs.Table.Shared
import Slr.Proofs.Table.Rearranged
import Slr.Proofs.Table.Enlarged
import Slr.Proofs.Table.Cover
import Slr.Proofs.Derivation.Yields
import Slr.Proofs.Parser.Verdicts
import Slr.Proofs.Language.Decimal
import Slr.Proofs.Language.Made
import Slr.Proofs.Language.Scanner
import Slr.Proofs.Language.Arrays
import Slr.Proofs.Language.RoundTrip
import Slr.Proofs.Language.Arithmetic
import Slr.Proofs.Derivation.Words
import Slr.Proofs.Lookahead.Openings
import Slr.Proofs.Lookahead.Sweeps
import Slr.Proofs.Lookahead.Adjacent
import Slr.Proofs.Parser.Rounds
import Slr.Proofs.Parser.Returns
import Slr.Proofs.Parser.Returned
import Slr.Proofs.Parser.Held
import Slr.Proofs.Parser.Expected
import Slr.Proofs.Stream.Uses
import Slr.Automaton.Worklist
import Slr.Proofs.Automaton.Numbering
import Slr.Proofs.Automaton.Stacked
import Slr.Proofs.Automaton.Worklist
import Slr.Proofs.Grammar.Admitted
import Slr.Proofs.Table.Rows
import Slr.Proofs.Rule.Making
import Slr.Proofs.Rule.Bodies
import Slr.Proofs.Rule.Names
import Slr.Rule.Queue
import Slr.Proofs.Rule.Gathering
import Slr.Proofs.Rule.Unrolling
import Slr.Proofs.Derivation.Forests
import Slr.Proofs.Derivation.Repetition
import Slr.Proofs.Rule.Repeated
import Slr.Proofs.Parser.Handed
import Slr.Rule.Memory
import Slr.Proofs.Derivation.Running
import Slr.Proofs.Rule.Owned
import Slr.Proofs.Rule.Reading
import Slr.Proofs.Rule.Promises
import Slr.Proofs.Rule.Independence
import Slr.Proofs.Rule.Alternatives
import Slr.Automaton.Search
import Slr.Proofs.Automaton.Shortest
import Slr.Proofs.Table.ConflictPaths
import Slr.Proofs.Language.Tiling
import Slr.Proofs.Language.Lexemes
import Slr.Proofs.Lookahead.Barren
import Slr.Proofs.Automaton.Kernels
import Slr.Proofs.Automaton.Occurrences
