import LanguageTheory.Collection.OrderedSet
import LanguageTheory.Collection.OrderedTable
import LanguageTheory.Collection.SortedSet
import LanguageTheory.Collection.Iteration
import LanguageTheory.Symbol
import LanguageTheory.FreshName
import LanguageTheory.Text
import LanguageTheory.Error
import LanguageTheory.Automaton.Basic
import LanguageTheory.Automaton.Run
import LanguageTheory.Automaton.Path
import LanguageTheory.Automaton.Reachability
import LanguageTheory.Automaton.Determinization
import LanguageTheory.Automaton.Minimization
import LanguageTheory.Automaton.BooleanOperations
import LanguageTheory.Regex.Basic
import LanguageTheory.Regex.Language
import LanguageTheory.Regex.Reader
import LanguageTheory.Regex.Compilation
import LanguageTheory.Grammar.Basic
import LanguageTheory.Grammar.Classification
import LanguageTheory.Grammar.Derivation
import LanguageTheory.Grammar.Reader
import LanguageTheory.Grammar.FirstFollow
import LanguageTheory.Grammar.PredictiveTable
import LanguageTheory.Grammar.Recognizer
import LanguageTheory.Grammar.LeftRecursion
import LanguageTheory.Grammar.LeftFactoring
import LanguageTheory.Grammar.Simplification
import LanguageTheory.RegularGrammar
import LanguageTheory.Record
import LanguageTheory.Proofs.Collection.DepthFirst
import LanguageTheory.Proofs.Collection.Discovery
import LanguageTheory.Proofs.CompositeName
import LanguageTheory.Proofs.FreshName
import LanguageTheory.Proofs.Automaton.Acceptance
import LanguageTheory.Proofs.Automaton.Construction
import LanguageTheory.Proofs.Automaton.Deterministic
import LanguageTheory.Proofs.Automaton.MoveSystem
import LanguageTheory.Proofs.Automaton.Determinization
import LanguageTheory.Proofs.Regex.Compilation
import LanguageTheory.Proofs.Automaton.Minimization
import LanguageTheory.Proofs.Collection.Stages
import LanguageTheory.Proofs.Grammar.Construction
import LanguageTheory.Proofs.Grammar.SymbolSets
import LanguageTheory.Proofs.Grammar.First
import LanguageTheory.Proofs.Grammar.Follow
import LanguageTheory.Proofs.Grammar.PredictiveTable
import LanguageTheory.Proofs.Grammar.Height
import LanguageTheory.Proofs.Grammar.Progress
import LanguageTheory.Proofs.Grammar.Termination
import LanguageTheory.Proofs.Grammar.Recognizer
import LanguageTheory.Proofs.Grammar.LeftCorner
import LanguageTheory.Proofs.Grammar.Unambiguity
import LanguageTheory.Proofs.Automaton.ReachedSets
import LanguageTheory.Proofs.Automaton.SetAutomata
import LanguageTheory.Proofs.Automaton.Operations
import LanguageTheory.Proofs.Automaton.Composition
import LanguageTheory.Proofs.Grammar.Interpretation
import LanguageTheory.Proofs.Grammar.RuleTable
import LanguageTheory.Proofs.Grammar.RecursionSteps
import LanguageTheory.Proofs.Grammar.LeftRecursion
import LanguageTheory.Proofs.Grammar.SymbolOrder
import LanguageTheory.Proofs.Automaton.Product
import LanguageTheory.Proofs.Automaton.Union
import LanguageTheory.Proofs.Grammar.LeftFactoring
import LanguageTheory.Proofs.Grammar.Factorization
import LanguageTheory.Proofs.Grammar.Saturation
import LanguageTheory.Proofs.Grammar.EmptyBodies
import LanguageTheory.Proofs.Grammar.UnitBodies
import LanguageTheory.Proofs.Grammar.Simplification
import LanguageTheory.Proofs.Automaton.Completion
import LanguageTheory.Proofs.Grammar.RegularForm
import LanguageTheory.Proofs.Grammar.RegularAutomaton
import LanguageTheory.Proofs.Automaton.RegularGrammar
import LanguageTheory.Proofs.Regex.Grouping
import LanguageTheory.Proofs.Regex.ParsedLiterals
import LanguageTheory.Proofs.Regex.RoundTrip
import LanguageTheory.Proofs.Regex.Syntax
import LanguageTheory.Proofs.Regex.FaultPosition
import LanguageTheory.Proofs.Text.Layout
import LanguageTheory.Proofs.Grammar.ShownGrammar
import LanguageTheory.Proofs.Grammar.Lookahead
import LanguageTheory.Proofs.Grammar.Notation
import LanguageTheory.Proofs.Grammar.PrintedText
import LanguageTheory.Proofs.Grammar.TableConflicts
import LanguageTheory.Proofs.Grammar.Transformation
import LanguageTheory.Proofs.Record.Machine
import LanguageTheory.Proofs.Record.Grammar
import LanguageTheory.Proofs.Record.Storage
import LanguageTheory.Proofs.Grammar.EmptyBodyRemoval
import LanguageTheory.Proofs.Grammar.UnitBodyRemoval
import LanguageTheory.Proofs.Grammar.UselessSymbolRemoval
import LanguageTheory.Proofs.Grammar.TransformationSequence
import LanguageTheory.Proofs.Automaton.CanonicalForm
import LanguageTheory.Proofs.Automaton.MinimalForm
import LanguageTheory.Proofs.Automaton.EquivalentStates
import LanguageTheory.Proofs.Automaton.OperationSequence
import LanguageTheory.Proofs.Grammar.DirectRecursion
import LanguageTheory.Proofs.Grammar.LeadingTerminals
import LanguageTheory.Proofs.Grammar.ReadInput
import LanguageTheory.Proofs.Grammar.DirectFactoring
import LanguageTheory.Proofs.Automaton.TransitionChain
import LanguageTheory.Proofs.Automaton.StepwiseRun
import LanguageTheory.Proofs.Automaton.Trimming
import LanguageTheory.Proofs.Automaton.RepeatedDeterminization
import LanguageTheory.Proofs.Grammar.ReadText
import LanguageTheory.Proofs.NameSequence
import LanguageTheory.Proofs.Regex.PositionWords
