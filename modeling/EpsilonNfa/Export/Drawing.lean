import EpsilonNfa.Automaton.Basic
import EpsilonNfa.Export.Numbering
import EpsilonNfa.Graph.Edges

/-!
# Drawings

The graph of an automaton in the notation of DOT. States are numbered from zero as they are met and
show their ids; a state at the cursor is drawn as a box. Labels stand between double quotes as they
are.
-/

namespace EpsilonNfa.Automaton

def drawState (g : Graph) (current : List Int) (r : Ref) : StateM Numbering String := do
  let id := (g.state r).id
  let shape := if id ∈ current then "box" else "ellipse"
  let number ← Numbering.number id
  return s!"    {number} [ label = \"{id} {Symbol.boolText (g.state r).isFinal}\" "
    ++ s!"shape = {shape} ]\n"

def drawEdge (g : Graph) (e : Edge) : StateM Numbering String := do
  let source ← Numbering.number (g.state e.source).id
  let target ← Numbering.number (g.state e.target).id
  return s!"    {source} -> {target} [ label = \"{e.label.label}\" ]\n"

/-- The drawing of an automaton. -/
def drawing (g : Graph) (a : Automaton) : String :=
  let current := a.current.map fun r => (g.state r).id
  let lines : StateM Numbering (List String) := do
    let states ← (g.breadthFirst a.start).mapM (drawState g current)
    let edges ← (g.edges a.start).mapM (drawEdge g)
    return states ++ edges
  "digraph G\x7b\n" ++ String.join (lines.run { first := 0 }).1 ++ "\x7d"

end EpsilonNfa.Automaton
