import MacroEngine.Main
import MacroEngine.Script.Hooks
import MacroEngine.Text.Dedent
import MacroEngine.Proofs.Control.Run
import MacroEngine.Proofs.Control.Returns
import MacroEngine.Proofs.Control.Cleanup
import MacroEngine.Proofs.Control.DeferredActions
import MacroEngine.Proofs.Expansion.Journal
import MacroEngine.Proofs.Expansion.BoundSites
import MacroEngine.Proofs.Expansion.Ending
import MacroEngine.Proofs.Expansion.Anchors
import MacroEngine.Proofs.Expansion.Asking
import MacroEngine.Proofs.Loading.History
import MacroEngine.Proofs.Placement
import MacroEngine.Proofs.Edits.Derives
import MacroEngine.Proofs.Edits.Sites
import MacroEngine.Proofs.Unchanged.Compile
import MacroEngine.Proofs.Registry.Consistency
import MacroEngine.Proofs.Registry.Derives
import MacroEngine.Proofs.Registry.Imports
import MacroEngine.Proofs.Loading.Bodies
import MacroEngine.Proofs.Grammar.Matches
import MacroEngine.Proofs.Grammar.Tokens
import MacroEngine.Proofs.Grammar.Delimited
import MacroEngine.Proofs.Grammar.Lookahead
import MacroEngine.Proofs.Grammar.Names
import MacroEngine.Proofs.RoundTrip.Expressions
import MacroEngine.Proofs.RoundTrip.Heads
import MacroEngine.Proofs.RoundTrip.Operands
import MacroEngine.Proofs.RoundTrip.FixedPoint
import MacroEngine.Proofs.RoundTrip.Quoting
import MacroEngine.Proofs.Order.AnyOrder
import MacroEngine.Proofs.Policies.Misses
import MacroEngine.Proofs.Policies.Program
import MacroEngine.Proofs.Reset.Registry
import MacroEngine.Proofs.Reset.Shifted
import MacroEngine.Proofs.Reset.Anew
import MacroEngine.Proofs.Incremental.Alongside
import MacroEngine.Proofs.Incremental.FileByFile
import MacroEngine.Proofs.Control.Conservative
import MacroEngine.Proofs.Control.WellPlaced
import MacroEngine.Proofs.Emission
import MacroEngine.Proofs.Checking.Memory
import MacroEngine.Proofs.Checking.Sites
import MacroEngine.Proofs.Checking.Turns
import MacroEngine.Proofs.Loading.Failures
import MacroEngine.Proofs.Registry.Closure
import MacroEngine.Proofs.Registry.Meaning
import MacroEngine.Proofs.Registry.Collection
import MacroEngine.Proofs.Operators.Commute
import MacroEngine.Proofs.Annotation.Regrouping
import MacroEngine.Proofs.Announcement.Exports
import MacroEngine.Proofs.Parsed.Identities
import MacroEngine.Proofs.Parsed.Shape
import MacroEngine.Proofs.Hoisting.Compiled
import MacroEngine.Proofs.Indentation
import MacroEngine.Proofs.Registry.Normalised
import MacroEngine.Proofs.Expansion.InProgress
import MacroEngine.Proofs.Trivia.Insignificant
