import LanguageTheory.Alphabet
import LanguageTheory.AutomatonDraft
import LanguageTheory.Collections.Closure
import LanguageTheory.Collections.OrderedSet
import LanguageTheory.Collections.Table
import LanguageTheory.Collections.Universe
import LanguageTheory.Dfa.Basic
import LanguageTheory.Dfa.Completion
import LanguageTheory.Dfa.Minimization
import LanguageTheory.Dfa.Product
import LanguageTheory.Dfa.Reachability
import LanguageTheory.Error
import LanguageTheory.Grammar.Basic
import LanguageTheory.Grammar.Chomsky
import LanguageTheory.Grammar.Draft
import LanguageTheory.Grammar.Greibach
import LanguageTheory.Grammar.LeftRecursion
import LanguageTheory.Grammar.Membership
import LanguageTheory.Grammar.Proper
import LanguageTheory.Grammar.Reduction
import LanguageTheory.Grammar.Regular
import LanguageTheory.Grammar.RuleText
import LanguageTheory.Grammar.SpanTable
import LanguageTheory.Grammar.Symbols
import LanguageTheory.Grammar.Token
import LanguageTheory.Nfa.Basic
import LanguageTheory.Nfa.Conversions
import LanguageTheory.Nfa.Path
import LanguageTheory.Numbered.Basic
import LanguageTheory.Numbered.Operations
import LanguageTheory.Numbered.Refinement
import LanguageTheory.Numbered.Sources
import LanguageTheory.Numbered.Subsets
import LanguageTheory.Partition
import LanguageTheory.Partition.Packed
import LanguageTheory.Partition.PackedRefinement
import LanguageTheory.Partition.Refinement
import LanguageTheory.Proofs.AutomatonDraft
import LanguageTheory.Proofs.Checks
import LanguageTheory.Proofs.Collections.Closure
import LanguageTheory.Proofs.Collections.Indexing
import LanguageTheory.Proofs.Collections.OrderedSet
import LanguageTheory.Proofs.Collections.Table
import LanguageTheory.Proofs.Dfa.Canonical
import LanguageTheory.Proofs.Dfa.Completion
import LanguageTheory.Proofs.Dfa.Drafts
import LanguageTheory.Proofs.Dfa.Equivalence
import LanguageTheory.Proofs.Dfa.Isomorphism
import LanguageTheory.Proofs.Dfa.Minimization
import LanguageTheory.Proofs.Dfa.Product
import LanguageTheory.Proofs.Dfa.Reachability
import LanguageTheory.Proofs.Dfa.Runs
import LanguageTheory.Proofs.Dfa.ShortestWord
import LanguageTheory.Proofs.Grammar.Binarization
import LanguageTheory.Proofs.Grammar.Chomsky
import LanguageTheory.Proofs.Grammar.ChomskySize
import LanguageTheory.Proofs.Grammar.CoinedNames
import LanguageTheory.Proofs.Grammar.Construction
import LanguageTheory.Proofs.Grammar.Draft
import LanguageTheory.Proofs.Grammar.DraftMeaning
import LanguageTheory.Proofs.Grammar.EmptyBodies
import LanguageTheory.Proofs.Grammar.Fronts
import LanguageTheory.Proofs.Grammar.Greibach
import LanguageTheory.Proofs.Grammar.LeftRecursion
import LanguageTheory.Proofs.Grammar.Membership
import LanguageTheory.Proofs.Grammar.Passes
import LanguageTheory.Proofs.Grammar.Productions
import LanguageTheory.Proofs.Grammar.Proper
import LanguageTheory.Proofs.Grammar.Reduction
import LanguageTheory.Proofs.Grammar.Regular
import LanguageTheory.Proofs.Grammar.RegularStates
import LanguageTheory.Proofs.Grammar.RegularText
import LanguageTheory.Proofs.Grammar.RuleMeaning
import LanguageTheory.Proofs.Grammar.RuleText
import LanguageTheory.Proofs.Grammar.SpanTable
import LanguageTheory.Proofs.Grammar.Symbols
import LanguageTheory.Proofs.Grammar.Units
import LanguageTheory.Proofs.Grammar.Yield
import LanguageTheory.Proofs.Nfa.Constructions
import LanguageTheory.Proofs.Nfa.Deterministic
import LanguageTheory.Proofs.Nfa.DeterministicRuns
import LanguageTheory.Proofs.Nfa.DraftPaths
import LanguageTheory.Proofs.Nfa.EpsilonFree
import LanguageTheory.Proofs.Nfa.Paths
import LanguageTheory.Proofs.Nfa.Subsets
import LanguageTheory.Proofs.Numbered.Constructions
import LanguageTheory.Proofs.Numbered.Lookups
import LanguageTheory.Proofs.Numbered.Minimization
import LanguageTheory.Proofs.Numbered.Operations
import LanguageTheory.Proofs.Numbered.Refinement
import LanguageTheory.Proofs.Numbered.Sources
import LanguageTheory.Proofs.Numbered.Subsets
import LanguageTheory.Proofs.Partition.Calls
import LanguageTheory.Proofs.Partition.Packed
import LanguageTheory.Proofs.Partition.PackedRefinement
import LanguageTheory.Proofs.Partition.Refinement
import LanguageTheory.Proofs.Partition.Splitting
import LanguageTheory.Proofs.Pushdown.BottomUp
import LanguageTheory.Proofs.Pushdown.BoundedRuns
import LanguageTheory.Proofs.Pushdown.Runs
import LanguageTheory.Proofs.Pushdown.TopDown
import LanguageTheory.Proofs.Regex.Failures
import LanguageTheory.Proofs.Regex.Graph
import LanguageTheory.Proofs.Regex.Language
import LanguageTheory.Proofs.Regex.Postorder
import LanguageTheory.Proofs.Regex.Printing
import LanguageTheory.Proofs.Regex.Progress
import LanguageTheory.Proofs.Regex.Reading
import LanguageTheory.Proofs.Regex.SyntaxErrors
import LanguageTheory.Proofs.Regex.Thompson
import LanguageTheory.Proofs.Regex.Transcription
import LanguageTheory.Proofs.Regex.WordGraph
import LanguageTheory.Proofs.Search.Calls
import LanguageTheory.Proofs.Search.DepthFirst
import LanguageTheory.Proofs.Search.Exploration
import LanguageTheory.Proofs.Search.Lockstep
import LanguageTheory.Proofs.Search.Reachability
import LanguageTheory.Proofs.Search.ShortestPaths
import LanguageTheory.Proofs.Search.Trails
import LanguageTheory.Proofs.Search.WordOrders
import LanguageTheory.Proofs.Text.Lines
import LanguageTheory.Pushdown.Basic
import LanguageTheory.Pushdown.Draft
import LanguageTheory.Pushdown.Recognizers
import LanguageTheory.Regex.Basic
import LanguageTheory.Regex.Graph
import LanguageTheory.Regex.Postorder
import LanguageTheory.Regex.Reading
import LanguageTheory.Regex.Syntax
import LanguageTheory.Regex.Thompson
import LanguageTheory.Regex.Transcription
import LanguageTheory.Search.Agenda
import LanguageTheory.Search.Calls
import LanguageTheory.Search.DepthFirst
import LanguageTheory.Search.Trail
import LanguageTheory.Symbol
import LanguageTheory.Text.FreshName
import LanguageTheory.Text.Lines
