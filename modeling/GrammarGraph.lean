import GrammarGraph.Compaction
import GrammarGraph.Derivative
import GrammarGraph.Dot.Document
import GrammarGraph.Dot.Quoted
import GrammarGraph.Drawing.View
import GrammarGraph.Drawing.Witness
import GrammarGraph.Emptiness
import GrammarGraph.Engine
import GrammarGraph.Engine.Bound
import GrammarGraph.Engine.Parts
import GrammarGraph.Evaluation
import GrammarGraph.Extraction
import GrammarGraph.Fault
import GrammarGraph.Forest
import GrammarGraph.Forest.Distinct
import GrammarGraph.Grammar
import GrammarGraph.Graph
import GrammarGraph.Kind
import GrammarGraph.Listing
import GrammarGraph.Memo
import GrammarGraph.Node
import GrammarGraph.Parse
import GrammarGraph.Query
import GrammarGraph.Run
import GrammarGraph.Run.Within
import GrammarGraph.Session
import GrammarGraph.Survey
import GrammarGraph.Table
import GrammarGraph.Term
import GrammarGraph.Term.Build
import GrammarGraph.Text.Quoted
import GrammarGraph.Transform
import GrammarGraph.Transform.Catalogue
import GrammarGraph.Value
import GrammarGraph.Value.Equality
import GrammarGraph.Value.Written
import GrammarGraph.Walk
import GrammarGraph.Proofs.Completeness
import GrammarGraph.Proofs.Exactness
import GrammarGraph.Proofs.Decision
import GrammarGraph.Proofs.Regular
import GrammarGraph.Proofs.Fringe
import GrammarGraph.Proofs.Rejection
import GrammarGraph.Proofs.Termination
import GrammarGraph.Proofs.Growth
import GrammarGraph.Proofs.Choices.Answers
import GrammarGraph.Proofs.Tree.Passes
import GrammarGraph.Proofs.Consultation
import GrammarGraph.Proofs.Failure.Sessions
import GrammarGraph.Proofs.Resumption
import GrammarGraph.Proofs.Interleaving
import GrammarGraph.Proofs.Sketch.Chaining
import GrammarGraph.Proofs.Repeated.Sessions
import GrammarGraph.Proofs.Recursion.Context
import GrammarGraph.Proofs.Recursion.Reachability
import GrammarGraph.Proofs.Recursion.Acyclic
import GrammarGraph.Proofs.Recursion.Memoized
import GrammarGraph.Proofs.Canonical.Sessions
import GrammarGraph.Proofs.WriteOnce
import GrammarGraph.Proofs.Unfilled.Rewinding
import GrammarGraph.Proofs.Drawing
import GrammarGraph.Proofs.Drawing.Tree
import GrammarGraph.Proofs.Bookkeeping.Evaluators
import GrammarGraph.Proofs.Composition
import GrammarGraph.Proofs.Tally.Benches
import GrammarGraph.Proofs.Normal
