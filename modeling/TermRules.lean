import TermRules.Main
import TermRules.Token.Reader
import TermRules.Proofs.Steps
import TermRules.Proofs.Growth
import TermRules.Proofs.Runs
import TermRules.Proofs.Checking
import TermRules.Proofs.Variants
import TermRules.Proofs.Meaning
import TermRules.Proofs.Execution
import TermRules.Proofs.Drafts
import TermRules.Proofs.Simulation
import TermRules.Proofs.Refinement
import TermRules.Proofs.CallSites
import TermRules.Proofs.Binders
import TermRules.Proofs.DefinitionOrder
import TermRules.Proofs.JoinedFiles
import TermRules.Proofs.RoundTrip
import TermRules.Proofs.Partition
import TermRules.Proofs.Refusals
import TermRules.Proofs.Expansions
import TermRules.Proofs.Faultless
import TermRules.Proofs.ClosedModules
import TermRules.Proofs.Environments
import TermRules.Proofs.Stages
import TermRules.Proofs.Arguments
import TermRules.Proofs.Renaming
import TermRules.Proofs.Substitutions
import TermRules.Proofs.GuardedLowering
import TermRules.Proofs.Identifiers
import TermRules.Proofs.GuardedText
import TermRules.Proofs.NameClashes
import TermRules.Proofs.Spans
import TermRules.Proofs.Places
import TermRules.Proofs.Positions
import TermRules.Proofs.Symbols
import TermRules.Proofs.Literals
import TermRules.Proofs.EmittedLines
import TermRules.Proofs.Tracing
import TermRules.Proofs.Unfolding
import TermRules.Proofs.Erasure
import TermRules.Proofs.ExpansionStack
import TermRules.Proofs.ProperRules
import TermRules.Proofs.Completeness
import TermRules.Proofs.PriorityOrder
import TermRules.Proofs.Priorities
import TermRules.Proofs.Layout
import TermRules.Proofs.IntegerLiterals
import TermRules.Proofs.Refutability
import TermRules.Proofs.Labels
import TermRules.Proofs.PathNames
import TermRules.Proofs.FileNumbers
import TermRules.Proofs.Invocations
import TermRules.Proofs.Lookahead
import TermRules.Proofs.WrittenTokens
import TermRules.Proofs.NodeChecks
