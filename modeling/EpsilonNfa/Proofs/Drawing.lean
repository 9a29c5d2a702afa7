import EpsilonNfa.Export.Drawing
import EpsilonNfa.Proofs.WellFormedListing

/-!
# Drawings show listings

A drawing counts states from zero as it meets them, a listing from one with the start in advance.
Both number the ids of one traversal in its order, so a drawing is the listing with all numbers one
smaller, and with the ids, the finality and the cursor that a listing leaves out
(`Automaton.drawing_eq_listing`).
-/

namespace EpsilonNfa

variable {g : Graph} {s : Ref}

namespace Graph

/-- The numbers of a traversal, counted from zero. -/
theorem numberOf_idsBelow (g : Graph) (s r : Ref) :
    Numbering.numberOf ⟨0, g.idsBelow s⟩ (g.state r).id = g.placeBelow s r - 1 := by
  rw [Numbering.numberOf, placeBelow, Shape.numberIn, Nat.zero_add, Nat.add_sub_cancel_left]

theorem map_placeBelow (g : Graph) (s : Ref) :
    (g.breadthFirst s).map (g.placeBelow s) = (g.listing s).states := by
  rw [(g.wellFormed_listing s).states_eq, ← length_idsBelow,
    ← map_numberIn_self (g.nodup_idsBelow s)]
  conv_rhs => rw [idsBelow, List.map_map]
  rfl

/-- What is made of states and their numbers is made of the states of the listing. -/
theorem zipWith_states_listing {β : Type} (f : Nat → Ref → β) (s : Ref) :
    List.zipWith f (g.listing s).states (g.breadthFirst s) =
      (g.breadthFirst s).map fun r => f (g.placeBelow s r) r := by
  rw [← map_placeBelow, List.zipWith_map_left, List.zipWith_self]

theorem map_edges_eq_transitions (g : Graph) (s : Ref) :
    ((g.edges s).map fun e => ⟨g.placeBelow s e.source, e.label.label, g.placeBelow s e.target⟩) =
      (g.listing s).transitions := by
  rw [transitions_listing, edges, List.map_flatMap]
  refine List.flatMap_congr fun r _ => ?_
  rw [edgesFrom, State.edges, List.map_map, List.map_append, List.map_map]
  rfl

end Graph

namespace Automaton

variable {a : Automaton}

/-- A state as a line of a drawing: a box if its id is that of a state at the cursor. -/
def stateLine (g : Graph) (a : Automaton) (number : Nat) (r : Ref) : String :=
  let id := (g.state r).id
  let isFinal := Symbol.boolText (g.state r).isFinal
  let shape := if ∃ q ∈ a.current, (g.state q).id = id then "box" else "ellipse"
  s!"    {number} [ label = \"{id} {isFinal}\" " ++ s!"shape = {shape} ]\n"

/-- A transition as a line of a drawing, which counts from zero. -/
def edgeLine (t : Listing.Transition) : String :=
  s!"    {t.source - 1} -> {t.target - 1} [ label = \"{t.label}\" ]\n"

theorem drawState_eq (g : Graph) (a : Automaton) (r : Ref) :
    drawState g (a.current.map fun q => (g.state q).id) r =
      (fun number => a.stateLine g number r) <$> Numbering.number (g.state r).id := by
  unfold drawState stateLine
  simp only [List.mem_map]
  rfl

/-- The states are drawn with the numbers of the traversal. -/
theorem run_mapM_drawState (g : Graph) (a : Automaton) :
    ((g.breadthFirst a.start).mapM (drawState g (a.current.map fun q => (g.state q).id))).run
        { first := 0 } =
      (List.zipWith (fun k r => a.stateLine g (k - 1) r) (g.listing a.start).states
          (g.breadthFirst a.start),
        ⟨0, g.idsBelow a.start⟩) := by
  have hnodup : ([] ++ (g.breadthFirst a.start).map fun r => (g.state r).id).Nodup :=
    g.nodup_idsBelow a.start
  have hrun := Numbering.run_mapM_number (fun r => (g.state r).id)
    (fun r number => a.stateLine g number r) 0 (g.breadthFirst a.start) hnodup
  rw [funext (drawState_eq g a), Graph.zipWith_states_listing]
  refine hrun.trans (Prod.ext (List.map_congr_left fun r _ => ?_) rfl)
  exact congrArg (a.stateLine g · r) (g.numberOf_idsBelow a.start r)

/-- When the edges are drawn both their ends have numbers. -/
theorem run_mapM_drawEdge (g : Graph) (s : Ref) :
    ((g.edges s).mapM (drawEdge g)).run ⟨0, g.idsBelow s⟩ =
      ((g.listing s).transitions.map edgeLine, ⟨0, g.idsBelow s⟩) := by
  rw [← Graph.map_edges_eq_transitions, List.map_map]
  refine run_mapM_of_run_eq fun e he => ?_
  obtain ⟨hsource, hedge⟩ := Graph.mem_edges he
  have htarget : e.target ∈ (g.state e.source).targets :=
    State.map_snd_edges _ ▸ List.mem_map.2 ⟨_, hedge, rfl⟩
  unfold drawEdge
  rw [run_stateM_bind, Numbering.run_number_of_mem (Graph.mem_idsBelow.2 ⟨_, hsource, rfl⟩),
    run_stateM_bind, Numbering.run_number_of_mem (Graph.id_mem_idsBelow hsource htarget),
    Graph.numberOf_idsBelow, Graph.numberOf_idsBelow]
  rfl

/-- The lines of a drawing, with the states in the order of the traversal. -/
theorem drawing_eq (g : Graph) (a : Automaton) :
    a.drawing g = "digraph G\x7b\n"
      ++ String.join ((g.breadthFirst a.start).map fun r =>
        a.stateLine g (g.placeBelow a.start r - 1) r)
      ++ String.join ((g.listing a.start).transitions.map edgeLine) ++ "\x7d" := by
  unfold drawing
  simp only [run_stateM_bind, run_mapM_drawState, run_mapM_drawEdge,
    Graph.zipWith_states_listing fun k r => a.stateLine g (k - 1) r]
  show "digraph G\x7b\n" ++ String.join (_ ++ _) ++ "\x7d" = _
  rw [String.join_append, ← String.append_assoc]

/-- A drawing is the listing of the same graph with all numbers one smaller: between the braces
there is one line for each state of the listing, which shows the state that the traversal meets at
that place, and then one for each transition. No line of a transition has a number without a line
of its own. -/
theorem drawing_eq_listing (g : Graph) (a : Automaton) :
    a.drawing g = "digraph G\x7b\n"
        ++ String.join (List.zipWith (fun k r => a.stateLine g (k - 1) r)
          (g.listing a.start).states (g.breadthFirst a.start))
        ++ String.join ((g.listing a.start).transitions.map edgeLine) ++ "\x7d" ∧
      (g.listing a.start).states.length = (g.breadthFirst a.start).length ∧
      (g.listing a.start).states.map (· - 1) = List.range (g.breadthFirst a.start).length ∧
      ∀ t ∈ (g.listing a.start).transitions,
        t.source ∈ (g.listing a.start).states ∧ t.target ∈ (g.listing a.start).states := by
  have hwell := g.wellFormed_listing a.start
  refine ⟨?_, ?_, ?_, hwell.endpoints⟩
  · have hlines : a.drawing g = "digraph G\x7b\n"
        ++ String.join (List.zipWith (fun k r => a.stateLine g (k - 1) r)
          (g.listing a.start).states (g.breadthFirst a.start) ++
            (g.listing a.start).transitions.map edgeLine) ++ "\x7d" := by
      unfold drawing
      simp only [run_stateM_bind, run_mapM_drawState, run_mapM_drawEdge]
      rfl
    rw [hlines, String.join_append, ← String.append_assoc]
  · rw [hwell.states_eq, List.length_range']
  · rw [hwell.states_eq, List.range_eq_range', List.map_sub_range' (by decide)]

end Automaton

end EpsilonNfa
