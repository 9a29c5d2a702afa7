import EpsilonNfa.Copy
import EpsilonNfa.Proofs.Traversal

/-!
# The queue of a copy in progress

A copy marks an id as soon as it puts a state into its queue: the id has an image from then on. What
it puts there while it follows edges are the targets with new ids, the first one for each id.
-/

namespace EpsilonNfa.Copying

variable {source : Graph} {ids : IdSource} {c c' c'' : Copying} {old new : Ref} {l l' : List Ref}
variable {e : Symbol × Ref}

/-- Of the states of the list those with new ids have got images and wait now. -/
structure Queued (source : Graph) (c c' : Copying) (l : List Ref) : Prop where
  pending_eq : c'.pending.map (·.1) = c.pending.map (·.1) ++ source.fresh c.images.keys l
  keys_eq : c'.images.keys =
    c.images.keys ++ (source.fresh c.images.keys l).map fun r => (source.state r).id

namespace Queued

theorem nil (source : Graph) (c : Copying) : Queued source c c [] :=
  ⟨by simp [fresh], by simp [fresh]⟩

theorem trans (h : Queued source c c' l) (h' : Queued source c' c'' l') :
    Queued source c c'' (l ++ l') where
  pending_eq := by
    rw [h'.pending_eq, h.pending_eq, h.keys_eq, Graph.fresh, fresh_append, List.append_assoc]
  keys_eq := by
    rw [h'.keys_eq, h.keys_eq, Graph.fresh, fresh_append, List.map_append, List.append_assoc]

end Queued

theorem queued_image (source : Graph) (ids : IdSource) (c : Copying) (old : Ref) :
    Queued source c (c.image source ids old).2 [old] := by
  unfold image
  cases hfind : c.images.find? (source.state old).id with
  | some new =>
    have hmem : (source.state old).id ∈ c.images.keys := by
      rw [IdMap.mem_keys, ← IdMap.find?_isSome_iff, hfind]
      rfl
    constructor <;> simp [Graph.fresh, fresh, hmem]
  | none =>
    have hnew : (source.state old).id ∉ c.images := IdMap.find?_eq_none_iff.1 hfind
    have hnew' : (source.state old).id ∉ c.images.keys := hnew
    constructor <;> simp [Graph.fresh, fresh, hnew', IdMap.keys_insert_of_not_mem hnew]

theorem queued_copyEdge (h : copyEdge source ids new c e = .ok c') :
    Queued source c c' [e.2] := by
  have himage := queued_image source ids c e.2
  unfold copyEdge at h
  split at h
  next target graph nextIds images pending heq =>
  rw [heq] at himage
  cases hconnect : graph.connect new e.1 target with
  | error err =>
    rw [hconnect] at h
    cases h
  | ok g =>
    rw [hconnect] at h
    cases h
    exact ⟨himage.pending_eq, himage.keys_eq⟩

theorem queued_copyEdges (h : copyEdges source ids c old new = .ok c') :
    Queued source c c' (source.state old).targets := by
  have hall : ∀ (edges : List (Symbol × Ref)) (c : Copying),
      edges.foldlM (copyEdge source ids new) c = .ok c' →
        Queued source c c' (edges.map (·.2)) := by
    intro edges
    induction edges with
    | nil =>
      intro c h
      cases h
      exact .nil source c'
    | cons e edges ih =>
      intro c h
      rw [List.foldlM_cons] at h
      cases hstep : copyEdge source ids new c e with
      | error err =>
        rw [hstep] at h
        cases h
      | ok middle =>
        rw [hstep] at h
        exact (queued_copyEdge hstep).trans (ih middle h)
  rw [← State.map_snd_edges]
  exact hall _ c h

end EpsilonNfa.Copying
