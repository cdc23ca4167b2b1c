import ParserGen.Automaton.Basic
import ParserGen.Automaton.Buildable
import ParserGen.Automaton.Closure
import ParserGen.Automaton.Conflict
import ParserGen.Automaton.ConflictPrinter
import ParserGen.Automaton.Construction
import ParserGen.Automaton.Item
import ParserGen.Automaton.Merging
import ParserGen.Automaton.Printer
import ParserGen.Automaton.StateGraph
import ParserGen.Automaton.Table
import ParserGen.Compilation
import ParserGen.Engine.Basic
import ParserGen.Engine.Printer
import ParserGen.Engine.Run
import ParserGen.Engine.Table
import ParserGen.Event
import ParserGen.Fixpoint
import ParserGen.Grammar.Basic
import ParserGen.Grammar.Definition
import ParserGen.Grammar.FirstSets
import ParserGen.Grammar.Printer
import ParserGen.Grammar.Productivity
import ParserGen.Grammar.Sketch
import ParserGen.Grammar.Symbol
import ParserGen.IdSet
import ParserGen.IndexMap
import ParserGen.Language.Recognition
import ParserGen.Language.Sentences
import ParserGen.Proofs.Acyclic
import ParserGen.Proofs.Automaton.Accepting
import ParserGen.Proofs.Automaton.Actions
import ParserGen.Proofs.Automaton.Candidates
import ParserGen.Proofs.Automaton.Closure
import ParserGen.Proofs.Automaton.Compatibility
import ParserGen.Proofs.Automaton.Coverage
import ParserGen.Proofs.Automaton.Edits
import ParserGen.Proofs.Automaton.Evaluation
import ParserGen.Proofs.Automaton.Finished
import ParserGen.Proofs.Automaton.Generation
import ParserGen.Proofs.Automaton.Kernels
import ParserGen.Proofs.Automaton.LeastClosure
import ParserGen.Proofs.Automaton.Merging
import ParserGen.Proofs.Automaton.Numbering
import ParserGen.Proofs.Automaton.Obstacles
import ParserGen.Proofs.Automaton.Paths
import ParserGen.Proofs.Automaton.Placement
import ParserGen.Proofs.Automaton.Quotient
import ParserGen.Proofs.Automaton.Reading
import ParserGen.Proofs.Automaton.Resolution
import ParserGen.Proofs.Automaton.Rooted
import ParserGen.Proofs.Automaton.Separation
import ParserGen.Proofs.Automaton.Simulation
import ParserGen.Proofs.Automaton.Size
import ParserGen.Proofs.Automaton.StateGraph
import ParserGen.Proofs.Automaton.Termination
import ParserGen.Proofs.Automaton.Transitions
import ParserGen.Proofs.Automaton.Twins
import ParserGen.Proofs.Automaton.Unions
import ParserGen.Proofs.Automaton.ValidItems
import ParserGen.Proofs.Automaton.Walk
import ParserGen.Proofs.Automaton.Warnings
import ParserGen.Proofs.Engine.Agreement
import ParserGen.Proofs.Engine.Dialogue
import ParserGen.Proofs.Engine.Errors
import ParserGen.Proofs.Engine.Machine
import ParserGen.Proofs.Engine.Moves
import ParserGen.Proofs.Engine.Protocol
import ParserGen.Proofs.Engine.Reductions
import ParserGen.Proofs.Engine.StackMachine
import ParserGen.Proofs.Grammar.Beginnings
import ParserGen.Proofs.Grammar.Declaring
import ParserGen.Proofs.Grammar.Derivation
import ParserGen.Proofs.Grammar.ExactFirstSets
import ParserGen.Proofs.Grammar.FirstSets
import ParserGen.Proofs.Grammar.LeftmostDerivation
import ParserGen.Proofs.Grammar.Listing
import ParserGen.Proofs.Grammar.Productivity
import ParserGen.Proofs.Grammar.Refusals
import ParserGen.Proofs.Grammar.Repetition
import ParserGen.Proofs.Grammar.RightContexts
import ParserGen.Proofs.Grammar.RuleTable
import ParserGen.Proofs.Grammar.WellFormed
import ParserGen.Proofs.Language.Acceptance
import ParserGen.Proofs.Language.Ambiguity
import ParserGen.Proofs.Language.Completeness
import ParserGen.Proofs.Language.EndOfInput
import ParserGen.Proofs.Language.Merging
import ParserGen.Proofs.Language.Sentences
import ParserGen.Proofs.Language.Soundness
import ParserGen.Proofs.Language.Termination
import ParserGen.Proofs.Language.ValidPrefixes
import ParserGen.Proofs.Operators.Actions
import ParserGen.Proofs.Operators.Grammar
import ParserGen.Proofs.Operators.Kernels
import ParserGen.Proofs.Operators.Parsing
import ParserGen.Proofs.Operators.PrecedenceParser
import ParserGen.Proofs.Repetitions
import ParserGen.Proofs.Results
import ParserGen.Proofs.Saturation
import ParserGen.Proofs.Sorts.Alike
import ParserGen.Proofs.Sorts.Allocation
import ParserGen.Proofs.Sorts.Culprits
import ParserGen.Proofs.Sorts.Decoding
import ParserGen.Proofs.Sorts.Merges
import ParserGen.Proofs.Sorts.Models
import ParserGen.Proofs.Sorts.Occurrence
import ParserGen.Proofs.Sorts.Representatives
import ParserGen.Proofs.Sorts.Symmetry
import ParserGen.Proofs.Sorts.Termination
import ParserGen.Proofs.Sorts.Unification
import ParserGen.Proofs.Template.BreadthFirst
import ParserGen.Proofs.Template.Checks
import ParserGen.Proofs.Template.Constraints
import ParserGen.Proofs.Template.Declarations
import ParserGen.Proofs.Template.Diagnostics
import ParserGen.Proofs.Template.Divergence
import ParserGen.Proofs.Template.ExpandedLanguage
import ParserGen.Proofs.Template.Failures
import ParserGen.Proofs.Template.InstanceNames
import ParserGen.Proofs.Template.Instances
import ParserGen.Proofs.Template.Productions
import ParserGen.Proofs.Template.Readability
import ParserGen.Proofs.Template.Rewriting
import ParserGen.Proofs.Template.Scopes
import ParserGen.Proofs.Template.SortInference
import ParserGen.Proofs.Template.SortedInstances
import ParserGen.Proofs.Template.Sorting
import ParserGen.Proofs.Template.Turns
import ParserGen.Proofs.WorkQueue
import ParserGen.Samples.Grammars
import ParserGen.Samples.Templates
import ParserGen.Sorts.Arena
import ParserGen.Sorts.Term
import ParserGen.Template.Basic
import ParserGen.Template.ExpandedGrammar
import ParserGen.Template.Expansion.Basic
import ParserGen.Template.Expansion.Bound
import ParserGen.Template.Expansion.Substitution
import ParserGen.Template.Expansion.Vocabulary
import ParserGen.Template.Parameter
import ParserGen.Template.SortInference
import ParserGen.Text
import ParserGen.WorkQueue
