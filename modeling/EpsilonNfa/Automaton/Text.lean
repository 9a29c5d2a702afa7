import EpsilonNfa.Automaton.Basic

/-!
# Short descriptions of states and automata
-/

namespace EpsilonNfa

/-- A state by its id and finality. -/
def State.describe (s : State) : String :=
  s!"State(id={s.id}, is_final={Symbol.boolText s.isFinal})"

/-- An automaton by its start, its stop and the ids at its cursor in increasing order. -/
def Automaton.describe (g : Graph) (a : Automaton) : String :=
  let ids := (a.current.map fun r => (g.state r).id).mergeSort
  s!"Automaton(start={(g.state a.start).describe}, stop={(g.state a.stop).describe}, "
    ++ "current=[" ++ ", ".intercalate (ids.map toString) ++ "])"

end EpsilonNfa
