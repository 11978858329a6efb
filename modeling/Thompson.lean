import Thompson.Automaton.Listing
import Thompson.Automaton.History
import Thompson.Automaton.Simulation
import Thompson.Automaton.Structure
import Thompson.Fragment
import Thompson.Main
import Thompson.Pattern.Descent
import Thompson.Pattern.Grammar
import Thompson.Pattern.Construction
import Thompson.Proofs.Pattern.Correctness
import Thompson.Proofs.Fragment.Trim
import Thompson.Proofs.Fragment.Pools
import Thompson.Proofs.Pattern.Descending
import Thompson.Proofs.Pattern.Meaning
import Thompson.Proofs.Pattern.Postfix
import Thompson.Proofs.Pattern.Composition
import Thompson.Proofs.Automaton.Tables
import Thompson.Proofs.Automaton.Listings
import Thompson.Proofs.Pattern.Shape
import Thompson.Proofs.JsonTree.RoundTrip
import Thompson.Proofs.Automaton.Replay
import Thompson.Trace
import Thompson.Proofs.Pattern.Calls
import Thompson.Proofs.CommandLine.Agreement
import Thompson.Proofs.Pattern.Tracing
import Thompson.Pattern.Rules
import Thompson.Proofs.Pattern.Following
import Thompson.Proofs.Automaton.Subsets
import Thompson.Proofs.Fragment.Languages
import Thompson.Proofs.Pattern.DeadEnds
import Thompson.Proofs.Pattern.Sizes
import Thompson.Pattern.Parser
import Thompson.Proofs.Pattern.Actions
import Thompson.Proofs.Pattern.Parsing
import Thompson.Proofs.Pattern.Issuing
import Thompson.Proofs.Pattern.Groups
import Thompson.Proofs.Pattern.CallDepth
import Thompson.Proofs.Pattern.Progress
import Thompson.Proofs.Pattern.Entries
import Thompson.Proofs.Diagnostic.Ranges
import Thompson.Proofs.Automaton.Worklist
import Thompson.Proofs.Automaton.Absorbing
import Thompson.Proofs.Text.Quoting
import Thompson.Proofs.CommandLine.Verdicts
import Thompson.Proofs.CommandLine.Sources
import Thompson.Proofs.Pattern.Recording
import Thompson.Proofs.Automaton.Views
import Thompson.Pattern.Cursor
import Thompson.Proofs.Pattern.Slicing
