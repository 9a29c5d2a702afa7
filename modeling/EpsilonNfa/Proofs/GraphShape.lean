import EpsilonNfa.Proofs.Renaming
import EpsilonNfa.Proofs.Shape
import Mathlib.Data.List.Find

/-!
# Shapes of graphs

Below a state of a graph there are two shapes. The nodes of `Graph.below` are the states themselves.
The nodes of `Graph.shape` are ids: it is what a traversal sees, which takes all states of one id
for the first one that it meets. Where ids tell the states apart the two are the same
(`Graph.isIso_shape`).
-/

namespace EpsilonNfa.Graph

variable {g g' : Graph} {s s' r t : Ref} {i : Int} {f : Ref → Ref}

/-! ## States as nodes -/

/-- The shape below a state, with states as nodes. -/
def below (g : Graph) (s : Ref) : Shape Ref where
  start := s
  isFinal r := (g.state r).isFinal
  edges r := (g.state r).edges

@[simp] theorem targets_below (g : Graph) (s r : Ref) :
    (g.below s).targets r = (g.state r).targets :=
  State.map_snd_edges _

@[simp] theorem reaches_below : (g.below s).Reaches r ↔ g.Reaches s r := by
  constructor
  · intro h
    induction h with
    | start => exact .refl
    | step _ edge ih => exact ih.step (by simpa using edge)
  · intro h
    induction h with
    | refl => exact .start
    | step _ edge ih => exact ih.step (by simpa using edge)

theorem isIso_below_iff : (g.below s).IsIso f (g'.below s') ↔ g.IsIso s f g' s' := by
  constructor
  · intro h
    refine ⟨⟨fun hr => h.isFinal_eq (reaches_below.2 hr),
      fun hr => h.edges_eq (reaches_below.2 hr)⟩, h.start_eq, fun r hr => ?_, fun r hr t ht heq => ?_, fun q hq => ?_⟩
    · exact reaches_below.1 (h.reaches_iff.2 ⟨r, reaches_below.2 hr, rfl⟩)
    · exact h.eq_of_apply_eq (reaches_below.2 hr) (reaches_below.2 ht) heq
    · obtain ⟨r, hr, heq⟩ := h.reaches_iff.1 (reaches_below.2 hq)
      exact ⟨r, reaches_below.1 hr, heq⟩
  · intro h
    exact
      { start_eq := h.root
        isFinal_eq := fun hr => h.renames.isFinal_eq (reaches_below.1 hr)
        edges_eq := fun hr => h.renames.edges_eq (reaches_below.1 hr)
        eq_of_apply_eq := fun hr ht heq =>
          h.bijOn.injOn (reaches_below.1 hr) (reaches_below.1 ht) heq }

/-! ## Ids as nodes -/

/-- The state that a traversal from `s` meets under an id, and `s` if it meets none. -/
def firstWithId (g : Graph) (s : Ref) (i : Int) : Ref :=
  ((g.breadthFirst s).find? fun r => (g.state r).id = i).getD s

/-- The shape that a traversal from `s` sees, with ids as nodes. -/
def shape (g : Graph) (s : Ref) : Shape Int where
  start := (g.state s).id
  isFinal i := (g.state (g.firstWithId s i)).isFinal
  edges i := (g.state (g.firstWithId s i)).edges.map fun e => (e.1, (g.state e.2).id)

theorem mem_idsBelow : i ∈ g.idsBelow s ↔ ∃ r ∈ g.breadthFirst s, (g.state r).id = i := by
  unfold idsBelow
  rw [List.mem_map]

theorem firstWithId_of_mem (hr : r ∈ g.breadthFirst s) : g.firstWithId s (g.state r).id = r := by
  unfold firstWithId
  cases hfind : (g.breadthFirst s).find? fun q => (g.state q).id = (g.state r).id with
  | none =>
    exact absurd (List.find?_eq_none.1 hfind r hr) (by simp)
  | some q =>
    have hid : (g.state q).id = (g.state r).id := by simpa using List.find?_some hfind
    exact List.inj_on_of_nodup_map (g.nodup_idsBelow s) (List.mem_of_find?_eq_some hfind) hr hid

theorem reaches_firstWithId (g : Graph) (s : Ref) (i : Int) : g.Reaches s (g.firstWithId s i) := by
  unfold firstWithId
  cases hfind : (g.breadthFirst s).find? fun q => (g.state q).id = i with
  | none => exact .refl
  | some q => exact reaches_of_mem_breadthFirst (List.mem_of_find?_eq_some hfind)

theorem isFinal_shape (hr : r ∈ g.breadthFirst s) :
    (g.shape s).isFinal (g.state r).id = (g.state r).isFinal := by
  simp only [shape, firstWithId_of_mem hr]

theorem edges_shape (hr : r ∈ g.breadthFirst s) :
    (g.shape s).edges (g.state r).id =
      (g.state r).edges.map fun e => (e.1, (g.state e.2).id) := by
  simp only [shape, firstWithId_of_mem hr]

theorem targets_shape (hr : r ∈ g.breadthFirst s) :
    (g.shape s).targets (g.state r).id = (g.state r).targets.map fun t => (g.state t).id := by
  rw [Shape.targets, edges_shape hr, ← State.map_snd_edges, List.map_map, List.map_map]
  rfl

/-- The order of the shape is that of the traversal. -/
theorem order_shape (g : Graph) (s : Ref) : (g.shape s).Order (g.idsBelow s) := by
  have hmap := (g.visits_breadthFirst s).map (P := fun _ => True) id (g.shape s).targets
    (fun r => (g.state r).id) id (by simp) (by simp) (fun _ _ => rfl)
    (fun r hr => targets_shape hr) (fun _ _ hmem => by simp at hmem) fun _ _ _ _ heq => heq
  exact hmap

theorem reaches_shape : (g.shape s).Reaches i ↔ i ∈ g.idsBelow s :=
  (g.order_shape s).mem_iff.symm

/-- The shape is read off the states below the start. -/
theorem shape_of_state_eq (h : ∀ r, g.Reaches s r → g'.state r = g.state r) :
    g'.shape s = g.shape s := by
  have hfirst : g'.firstWithId s = g.firstWithId s := by
    funext i
    unfold firstWithId
    rw [breadthFirst_of_state_eq h]
    congr 1
    refine List.find?_congr fun r hr => ?_
    rw [h r (reaches_of_mem_breadthFirst hr)]
  unfold shape
  congr 1
  · rw [h s .refl]
  · funext i
    rw [hfirst, h _ (g.reaches_firstWithId s i)]
  · funext i
    rw [hfirst, h _ (g.reaches_firstWithId s i)]
    refine List.map_congr_left fun e he => ?_
    have hedge : e.2 ∈ (g.state (g.firstWithId s i)).targets :=
      State.map_snd_edges _ ▸ List.mem_map.2 ⟨e, he, rfl⟩
    rw [h e.2 ((g.reaches_firstWithId s i).step hedge)]

/-! ## Ids that tell states apart -/

theorem mem_breadthFirst (hd : g.DistinctIds s) : r ∈ g.breadthFirst s ↔ g.Reaches s r := by
  constructor
  · exact reaches_of_mem_breadthFirst
  · intro hr
    induction hr with
    | refl =>
      obtain ⟨rest, hrest⟩ := g.breadthFirst_eq_cons s
      rw [hrest]
      exact List.mem_cons_self
    | @step r t hr edge ih =>
      obtain ⟨q, hq, hid⟩ := mem_idsBelow.1 (id_mem_idsBelow ih edge)
      rwa [← hd q t (reaches_of_mem_breadthFirst hq) (hr.step edge) hid]

/-- Ids are names of states where they tell them apart. -/
theorem isIso_shape (hd : g.DistinctIds s) :
    (g.below s).IsIso (fun r => (g.state r).id) (g.shape s) where
  start_eq := rfl
  isFinal_eq hr := isFinal_shape ((mem_breadthFirst hd).2 (reaches_below.1 hr))
  edges_eq hr := edges_shape ((mem_breadthFirst hd).2 (reaches_below.1 hr))
  eq_of_apply_eq hr ht heq := hd _ _ (reaches_below.1 hr) (reaches_below.1 ht) heq

theorem order_below (hd : g.DistinctIds s) : (g.below s).Order (g.breadthFirst s) := by
  have hmap := (g.visits_breadthFirst s).map (P := g.Reaches s) id (g.below s).targets
    id (fun i => g.firstWithId s i) (fun r hr => List.mem_singleton.1 hr ▸ .refl)
    (fun _ hr _ ht => hr.step ht)
    (fun r hr => (firstWithId_of_mem ((mem_breadthFirst hd).2 hr)).symm) (by simp)
    (fun _ _ hmem => by simp at hmem) fun r t hr ht heq => by
      rw [firstWithId_of_mem ((mem_breadthFirst hd).2 hr),
        firstWithId_of_mem ((mem_breadthFirst hd).2 ht)] at heq
      rw [heq]
  rwa [List.map_id, List.map_id] at hmap

end EpsilonNfa.Graph
