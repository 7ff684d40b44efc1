import DeterministicParsing.Automaton.ViablePrefix
import DeterministicParsing.Main
import DeterministicParsing.Proofs.FixedPoint
import DeterministicParsing.Proofs.AscendingMap
import DeterministicParsing.Proofs.FirstSets
import DeterministicParsing.Proofs.FollowSets
import DeterministicParsing.Proofs.Grammar.Augmentation
import DeterministicParsing.Proofs.Item.Basic
import DeterministicParsing.Proofs.Item.Closure
import DeterministicParsing.Proofs.Automaton.ViablePrefix
import DeterministicParsing.Proofs.Grammar.Contraction
import DeterministicParsing.Proofs.Automaton.Construction
import DeterministicParsing.Proofs.Automaton.Build
import DeterministicParsing.Proofs.Automaton.Recognition
import DeterministicParsing.Proofs.Automaton.Merging
import DeterministicParsing.Proofs.Registry
import DeterministicParsing.Proofs.ShiftReduce.Table
import DeterministicParsing.Proofs.DerivationTree
import DeterministicParsing.Proofs.Token
import DeterministicParsing.Proofs.ShiftReduce.Machine
import DeterministicParsing.Proofs.ShiftReduce.Analysis
import DeterministicParsing.Proofs.ShiftReduce.Soundness
import DeterministicParsing.Proofs.ShiftReduce.Completeness
import DeterministicParsing.Proofs.ShiftReduce.Invariant
import DeterministicParsing.Proofs.ShiftReduce.Settling
import DeterministicParsing.Proofs.ShiftReduce.Termination
import DeterministicParsing.Proofs.ShiftReduce.Hierarchy
import DeterministicParsing.Proofs.Predictive.Table
import DeterministicParsing.Proofs.Predictive.Parser
import DeterministicParsing.Proofs.Predictive.Soundness
import DeterministicParsing.Proofs.Predictive.Expansion
import DeterministicParsing.Proofs.Forest.Derivation
import DeterministicParsing.Proofs.Predictive.Completeness
import DeterministicParsing.Proofs.Predictive.Decision
import DeterministicParsing.Proofs.ShiftReduce.Rejection
import DeterministicParsing.Proofs.Forest.Growth
import DeterministicParsing.Proofs.ShiftReduce.Evaluation
import DeterministicParsing.Proofs.Automaton.Reachability
import DeterministicParsing.Proofs.Predictive.Spine
import DeterministicParsing.Proofs.Predictive.Agreement
import DeterministicParsing.Proofs.Sentences.Table
import DeterministicParsing.Proofs.Sentences.Exactness
import DeterministicParsing.Proofs.WitnessError
import DeterministicParsing.Proofs.Context
import DeterministicParsing.Proofs.Predictive.Witness
import DeterministicParsing.Proofs.Predictive.Lookahead
import DeterministicParsing.Proofs.Automaton.Route
import DeterministicParsing.Proofs.ShiftReduce.Expansion
import DeterministicParsing.Proofs.ShiftReduce.Witness
import DeterministicParsing.Proofs.ShiftReduce.Realisation
import DeterministicParsing.Proofs.ShiftReduce.Course
import DeterministicParsing.Proofs.ShiftReduce.Arrival
import DeterministicParsing.Proofs.Description.Resolution
import DeterministicParsing.Proofs.Fault
import DeterministicParsing.Proofs.Printer
import DeterministicParsing.Proofs.ShiftReduce.Fault
import DeterministicParsing.Proofs.Predictive.Fault
import DeterministicParsing.Proofs.Safety
import DeterministicParsing.Proofs.Item.ClosureLaws
import DeterministicParsing.Proofs.Automaton.Structure
import DeterministicParsing.Proofs.Predictive.Cells
import DeterministicParsing.Proofs.ShiftReduce.Cells
import DeterministicParsing.Proofs.ConflictKind
import DeterministicParsing.Proofs.Sentences.Minimality
import DeterministicParsing.Proofs.DerivationTree.Outcome
import DeterministicParsing.Proofs.DerivationTree.Structure
import DeterministicParsing.Proofs.DerivationTree.Parses
import DeterministicParsing.Proofs.ShiftReduce.Failure
import DeterministicParsing.Proofs.Description.Syntax
import DeterministicParsing.Proofs.Description.Token
import DeterministicParsing.Proofs.Description.Names
import DeterministicParsing.Proofs.Grammar.Conservativity
import DeterministicParsing.Proofs.Grammar.Calls
import DeterministicParsing.Proofs.Item.Merging
import DeterministicParsing.Proofs.Context.Minimality
