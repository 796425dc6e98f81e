import Lox.Main
import Lox.Proofs.Calls.Activations
import Lox.Proofs.Calls.Depth
import Lox.Proofs.Calls.Initializers
import Lox.Proofs.Calls.Overflow
import Lox.Proofs.Calls.Returns
import Lox.Proofs.Concatenation.Bounds
import Lox.Proofs.Concatenation.Containment
import Lox.Proofs.Concatenation.Expressions
import Lox.Proofs.Concatenation.Extension
import Lox.Proofs.Concatenation.Guarded
import Lox.Proofs.Concatenation.Lexing
import Lox.Proofs.Concatenation.Programs
import Lox.Proofs.Concatenation.Runs
import Lox.Proofs.Concatenation.Statements
import Lox.Proofs.Frames.Access
import Lox.Proofs.Frames.Extension
import Lox.Proofs.Grammar.Broken
import Lox.Proofs.Grammar.Complete.Expressions
import Lox.Proofs.Grammar.Complete.Statements
import Lox.Proofs.Grammar.Diagnostics
import Lox.Proofs.Grammar.Ebnf
import Lox.Proofs.Grammar.Language
import Lox.Proofs.Grammar.Merging
import Lox.Proofs.Grammar.Operators
import Lox.Proofs.Grammar.Programs
import Lox.Proofs.Grammar.Reads
import Lox.Proofs.Grammar.Recovery
import Lox.Proofs.Grammar.Semicolons
import Lox.Proofs.Grammar.Sound.Expressions
import Lox.Proofs.Grammar.Sound.Statements
import Lox.Proofs.Grammar.Takes
import Lox.Proofs.Grammar.Trees
import Lox.Proofs.Grammar.Weights
import Lox.Proofs.Grammar.Words
import Lox.Proofs.Grammar.Yields
import Lox.Proofs.Machine.Contexts
import Lox.Proofs.Machine.Declarations
import Lox.Proofs.Machine.Environment
import Lox.Proofs.Machine.Evaluation
import Lox.Proofs.Machine.Growth
import Lox.Proofs.Machine.Operations
import Lox.Proofs.Machine.Preservation
import Lox.Proofs.Machine.Runs
import Lox.Proofs.Machine.Soundness
import Lox.Proofs.Machine.TopLevel
import Lox.Proofs.Methods.Ancestry
import Lox.Proofs.Methods.Bound
import Lox.Proofs.Methods.Held
import Lox.Proofs.Methods.Homes
import Lox.Proofs.Methods.Moments
import Lox.Proofs.Methods.Preservation
import Lox.Proofs.Methods.Tables
import Lox.Proofs.Number.Signs
import Lox.Proofs.Number.Texts
import Lox.Proofs.Order.Diagnostics
import Lox.Proofs.Order.Expressions
import Lox.Proofs.Order.Findings
import Lox.Proofs.Order.Rules
import Lox.Proofs.Order.Statements
import Lox.Proofs.Output.Sinks
import Lox.Proofs.Output.Truncation
import Lox.Proofs.Prediction.Choices
import Lox.Proofs.Prediction.Complete
import Lox.Proofs.Prediction.Expressions
import Lox.Proofs.Prediction.Programs
import Lox.Proofs.Prediction.Relaxed
import Lox.Proofs.Prediction.Rounds
import Lox.Proofs.Prediction.Rules
import Lox.Proofs.Prediction.Statements
import Lox.Proofs.Prediction.Walks
import Lox.Proofs.Printing.Bracketed
import Lox.Proofs.Printing.Composed
import Lox.Proofs.Printing.Legible
import Lox.Proofs.Printing.Trees
import Lox.Proofs.Printing.Unambiguous
import Lox.Proofs.Reach.Calls
import Lox.Proofs.Reach.Region
import Lox.Proofs.Reach.Unreached
import Lox.Proofs.Relabelling.Fresh
import Lox.Proofs.Relabelling.Identities
import Lox.Proofs.Relabelling.Parsing
import Lox.Proofs.Relabelling.Resolution
import Lox.Proofs.Relabelling.Runs
import Lox.Proofs.Relabelling.Sessions
import Lox.Proofs.Relabelling.States
import Lox.Proofs.Relabelling.Trees
import Lox.Proofs.Renaming.Frames
import Lox.Proofs.Renaming.Lockstep
import Lox.Proofs.Renaming.Operations
import Lox.Proofs.Renaming.Rename
import Lox.Proofs.Renaming.Resolution
import Lox.Proofs.Renaming.Sessions
import Lox.Proofs.Renaming.Simulation
import Lox.Proofs.Replacement.Advances
import Lox.Proofs.Replacement.Expressions
import Lox.Proofs.Replacement.Loops
import Lox.Proofs.Replacement.Programs
import Lox.Proofs.Replacement.Readings
import Lox.Proofs.Replacement.Seams
import Lox.Proofs.Replacement.Statements
import Lox.Proofs.Scope.Acceptance
import Lox.Proofs.Scope.Checks
import Lox.Proofs.Scope.Places
import Lox.Proofs.Scope.Recorded
import Lox.Proofs.Scope.Rules
import Lox.Proofs.Scope.Supers
import Lox.Proofs.Scope.WellScoped
import Lox.Proofs.Session.Ancestry
import Lox.Proofs.Session.Batch
import Lox.Proofs.Session.Defenses
import Lox.Proofs.Session.Evaluation
import Lox.Proofs.Session.Globals
import Lox.Proofs.Session.History
import Lox.Proofs.Session.Identities
import Lox.Proofs.Session.Initializers
import Lox.Proofs.Session.Invariant
import Lox.Proofs.Session.References
import Lox.Proofs.Session.Rejected
import Lox.Proofs.Session.Superclasses
import Lox.Proofs.Session.Truncation
import Lox.Proofs.Syntax.Shape
import Lox.Proofs.Termination.Loops
import Lox.Proofs.Termination.Parsing
import Lox.Proofs.Token.Coverage
import Lox.Proofs.Token.Joining
import Lox.Proofs.Token.LongestMatch
import Lox.Proofs.Token.Spelling
import Lox.Proofs.Unparse.Consumes
import Lox.Proofs.Unparse.Expressions
import Lox.Proofs.Unparse.Programs
import Lox.Proofs.Unparse.Statements
import Lox.Proofs.Unparse.Tokens
