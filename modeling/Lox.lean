import Lox.CommandLine
import Lox.Proofs.Grammar
import Lox.Proofs.Parsing.Outcome
import Lox.Proofs.Parsing.Soundness
import Lox.Proofs.Parsing.Progress
import Lox.Proofs.Parsing.Completeness
import Lox.Proofs.Parsing.Acceptance
import Lox.Proofs.Parsing.Panics
import Lox.Proofs.Parsing.Recovery
import Lox.Proofs.Relabelling.Parsing
import Lox.Proofs.Relabelling.Evaluation
import Lox.Proofs.Relabelling.Resolution
import Lox.Proofs.Relabelling.Diagnostic
import Lox.Proofs.Scanning
import Lox.Proofs.Lexical.Grammar
import Lox.Proofs.Lexical.Lossless
import Lox.Proofs.Session.Numbering
import Lox.Proofs.Session.Console
import Lox.Proofs.Session.StaticErrors
import Lox.Proofs.Session.Splitting
import Lox.Proofs.Scoping.Distances
import Lox.Proofs.Scoping.Words
import Lox.Proofs.Evaluation.Traced
import Lox.Proofs.Scoping.Chain
import Lox.Proofs.Scoping.Soundness
import Lox.Proofs.Scoping.Actions
import Lox.Proofs.Scoping.Evaluation
import Lox.Proofs.Scoping.Session
import Lox.Proofs.Evaluation.Jobs
import Lox.Proofs.Scoping.Jobs
import Lox.Proofs.Scoping.Assignments
import Lox.Proofs.Session.HopTable
import Lox.Proofs.Scoping.Occurrence
import Lox.Proofs.Scoping.Violations
import Lox.Proofs.Evaluation.Controlled
import Lox.Proofs.Evaluation.Restored
import Lox.Proofs.Session.Control
import Lox.Proofs.Scoping.Slots
import Lox.Proofs.Scoping.Links
import Lox.Proofs.Scoping.Layout
import Lox.Proofs.Scoping.Agreement
import Lox.Proofs.Scoping.Search
import Lox.Proofs.Session.Search
import Lox.Proofs.Evaluation.Frames
import Lox.Proofs.Evaluation.Ending
import Lox.Proofs.Session.Ending
import Lox.Proofs.Lexical.Insertion
import Lox.Proofs.Session.Utterances
import Lox.Proofs.Session.Insertion
import Lox.Proofs.Session.ConsoleExchange
import Lox.Proofs.Session.Prompt
import Lox.Proofs.Scoping.Nesting
import Lox.Proofs.Scoping.LexicalDistance
import Lox.Proofs.Evaluation.Binding
import Lox.Proofs.Scoping.Ledger
import Lox.Proofs.Scoping.Bookkeeping
import Lox.Proofs.Scoping.Accounting
import Lox.Proofs.Session.Runs
import Lox.Proofs.Evaluation.Returning
import Lox.Proofs.Session.Initializers
import Lox.Proofs.Session.Classes
import Lox.Proofs.Session.SuperDispatch
import Lox.Proofs.Evaluation.Keeping
import Lox.Proofs.Session.Definitions
import Lox.Proofs.Parsing.Operators
import Lox.Proofs.Evaluation.Operating
import Lox.Proofs.Session.Defences
import Lox.Proofs.Evaluation.Printing
import Lox.Proofs.Evaluation.Cutting
import Lox.Proofs.Session.LimitedOutput
import Lox.Proofs.Number.Double
import Lox.Proofs.Number.Decimal
import Lox.Proofs.Lexical.Genuine
import Lox.Proofs.Printing.Form
import Lox.Proofs.Printing.Trees
import Lox.Proofs.Printing.Legible
import Lox.Proofs.Printing.Reading
import Lox.Proofs.Desugaring.Syntax
import Lox.Proofs.Desugaring.Parsing
import Lox.Proofs.Desugaring.Resolution
import Lox.Proofs.Desugaring.Thinning
import Lox.Proofs.Desugaring.Weaving
import Lox.Proofs.Desugaring.Evaluation
import Lox.Proofs.Desugaring.Correspondence
import Lox.Proofs.Desugaring.Agreement
import Lox.Proofs.Desugaring.Simulation
import Lox.Proofs.Session.ForLoops
import Lox.Proofs.Parsing.Cursor
import Lox.Proofs.Parsing.Walks
import Lox.Proofs.Parsing.Bounds
import Lox.Proofs.Parsing.Seam
import Lox.Proofs.Lexical.Lines
import Lox.Proofs.Lexical.Rescan
import Lox.Proofs.Lexical.LineNumbers
import Lox.Proofs.Environment.Forest
import Lox.Proofs.Session.Outcome
import Lox.Proofs.Evaluation.Timeless
import Lox.Proofs.Session.Noninterference
import Lox.Proofs.Scoping.Balance
import Lox.Proofs.Lexical.Numerals
