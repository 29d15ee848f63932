import LanguageTheory.Regex.Thompson
import LanguageTheory.Text.FreshName

/-!
# Graphs labelled by expressions

The edges of a graph are labelled by regular expressions. A path stands for the words that are
composed of a word of each of its edges, and the graph for the paths from its initial to its final
states. States are declared by using them.

Spec guidance: `SPEC_FULL.md` §12.6.
-/

namespace LanguageTheory

/-- Graph whose edges are labelled by regular expressions. -/
structure RegexGraph where
  labels : OrderedSet String := ∅
  /-- Source, expression and target of each edge. -/
  edges : List (Nat × Regex × Nat) := []
  initial : OrderedSet Nat := ∅
  accepting : OrderedSet Nat := ∅
  deriving DecidableEq

namespace RegexGraph

/-- Number of states. -/
def numStates (g : RegexGraph) : Nat := g.labels.size

/-- Label of state number `i`, empty if there is no such state. -/
def label (g : RegexGraph) (i : Nat) : String := (g.labels.get? i).getD ""

/-- Declares a state if need be and gives its number. -/
def intern (g : RegexGraph) (label : String) : Nat × RegexGraph :=
  let labels := g.labels.insert label
  ((labels.idxOf? label).getD 0, { g with labels := labels })

/-- Adds an edge. -/
def addEdge (g : RegexGraph) (source : String) (r : Regex) (target : String) : RegexGraph :=
  let (i, g) := g.intern source
  let (j, g) := g.intern target
  { g with edges := g.edges ++ [(i, r, j)] }

/-- Marks an initial state. -/
def markInitial (g : RegexGraph) (label : String) : RegexGraph :=
  let (i, g) := g.intern label
  { g with initial := g.initial.insert i }

/-- Marks a final state. -/
def markAccepting (g : RegexGraph) (label : String) : RegexGraph :=
  let (i, g) := g.intern label
  { g with accepting := g.accepting.insert i }

/-- Words that some path leads over from one state to another. -/
inductive Path (g : RegexGraph) : Nat → List Char → Nat → Prop where
  | refl (i : Nat) : Path g i [] i
  | step {i j k : Nat} {r : Regex} {u v : List Char} :
      (i, r, j) ∈ g.edges → r.Matches u → Path g j v k → Path g i (u ++ v) k

/-- Label of the state before the initial states, unless a state has it already. -/
def startLabel : String := "START"

/-- Label of the state after the final states, unless a state has it already. -/
def endLabel : String := "END"

/-- The automaton of a graph, with one initial and one accepting state of its own; there must be an
initial state in the graph (§12.6). -/
def toNfa (g : RegexGraph) : Except Error Nfa :=
  if g.initial.isEmpty then .error .missingInitialState
  else
    let used := g.labels.toList
    let start := g.labels.size
    let stop := start + 1
    let b : Weave :=
      ⟨(g.labels.insert (freshName startLabel used)).insert (freshName endLabel used), ∅⟩
    let b := g.initial.toList.foldl (fun b i ↦ b.connect start .epsilon i) b
    let b := g.accepting.toList.foldl (fun b i ↦ b.connect i .epsilon stop) b
    let b := g.edges.foldl (fun b (i, r, j) ↦ b.thread i j r) b
    .ok {
      alphabet := .ofSet (.ofList (g.edges.flatMap fun (_, r, _) ↦ r.literals))
      labels := b.labels
      delta := b.delta
      initial := OrderedSet.singleton start
      accepting := OrderedSet.singleton stop }

end RegexGraph

end LanguageTheory
