import FlowFacts.Check.Report
import FlowFacts.CommandLine.Run
import FlowFacts.Files.Tree
import FlowFacts.Main
import FlowFacts.Program.Builder
import FlowFacts.Program.Listing
import FlowFacts.Program.Order
import FlowFacts.Program.Validate
import FlowFacts.Settings.Options
import FlowFacts.Source.Load
import FlowFacts.Proofs.Lookup
import FlowFacts.Proofs.Logic.Clause
import FlowFacts.Proofs.Logic.Formula
import FlowFacts.Proofs.Logic.Substitution
import FlowFacts.Proofs.Logic.Search
import FlowFacts.Proofs.Logic.Satisfiable
import FlowFacts.Proofs.Flow.Environment
import FlowFacts.Proofs.Flow.Transfer
import FlowFacts.Proofs.Program.Order
import FlowFacts.Proofs.Flow.Sweep
import FlowFacts.Proofs.Program.Built
import FlowFacts.Proofs.Source.Resolve
import FlowFacts.Proofs.Source.Rule
import FlowFacts.Proofs.Source.Token
import FlowFacts.Proofs.Source.Written
import FlowFacts.Proofs.Source.Named
import FlowFacts.Proofs.Source.Excerpt
import FlowFacts.Proofs.Program.Validate
import FlowFacts.Proofs.Program.Body
import FlowFacts.Proofs.Program.Typing
import FlowFacts.Proofs.Program.Spelling
import FlowFacts.Proofs.Program.Growth
import FlowFacts.Proofs.Program.WellFormed
import FlowFacts.Proofs.Source.Listed
import FlowFacts.Proofs.Source.Lines
import FlowFacts.Proofs.Source.Meaning
import FlowFacts.Proofs.Flow.Execution
import FlowFacts.Proofs.Flow.Describes
import FlowFacts.Proofs.Flow.Soundness
import FlowFacts.Proofs.Source.Region
import FlowFacts.Proofs.Flow.Operations
import FlowFacts.Proofs.Flow.Exactness
import FlowFacts.Proofs.Flow.Effect
import FlowFacts.Proofs.Flow.Invariant
import FlowFacts.Proofs.Flow.Atoms
import FlowFacts.Proofs.Program.Dominance
import FlowFacts.Proofs.Flow.Canonical
import FlowFacts.Proofs.Flow.Kept
import FlowFacts.Proofs.Flow.Facts
import FlowFacts.Proofs.Flow.Below
import FlowFacts.Proofs.Flow.Convergence
import FlowFacts.Proofs.Flow.Precision
import FlowFacts.Proofs.Program.Relocated
import FlowFacts.Proofs.Program.Renumber
import FlowFacts.Proofs.Source.Recreated
import FlowFacts.Proofs.Flow.Relocated
import FlowFacts.Proofs.Source.Relocated
import FlowFacts.Proofs.Source.Modular
import FlowFacts.Proofs.Source.RoundTrip
import FlowFacts.Proofs.Flow.Formulas
import FlowFacts.Proofs.Flow.Questions
import FlowFacts.Proofs.Flow.Search
import FlowFacts.Proofs.Flow.Limit
import FlowFacts.Proofs.Flow.Acyclic
import FlowFacts.Proofs.Flow.Points
import FlowFacts.Proofs.Flow.FixedPoint
import FlowFacts.Proofs.Flow.Assumptions
import FlowFacts.Proofs.Flow.Arguments
import FlowFacts.Proofs.Source.Structure
import FlowFacts.Proofs.Source.Typed
import FlowFacts.Proofs.Source.Definitions
import FlowFacts.Proofs.Source.Printed
import FlowFacts.Proofs.Flow.Symmetry
import FlowFacts.Proofs.Source.Arises
import FlowFacts.Proofs.Source.Logged
import FlowFacts.Proofs.Source.Labels
import FlowFacts.Proofs.Flow.Texts
