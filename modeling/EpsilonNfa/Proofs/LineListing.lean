import EpsilonNfa.Proofs.Line
import EpsilonNfa.Proofs.WellFormedListing

/-!
# The listing of a line

A breadth-first traversal of a line gives its states in their order (`Graph.Line.breadthFirst_eq`),
so in the listing of a line every number but the last leads to the next one, with the labels of the
line in their order, and only the last is final (`Graph.Line.document_listing`).
-/

namespace EpsilonNfa

namespace Graph

variable {g : Graph} {s stop : Ref} {labels : List Symbol} {states rest : List Ref}

namespace Line

/-- A line with ids that were not met before is visited from one end to the other. -/
theorem visits (hl : g.Line stop labels (s :: rest))
    (hids : ((s :: rest).map fun r => (g.state r).id).Nodup) {seen : List Int}
    (hnew : ∀ r ∈ s :: rest, (g.state r).id ∉ seen) : g.Visits seen [s] (s :: rest) := by
  refine .visit (hnew s List.mem_cons_self) ?_
  generalize hstates : s :: rest = states at hl
  induction hl generalizing s rest seen with
  | last edges =>
    cases hstates
    rw [List.nil_append, ← State.map_snd_edges, edges]
    exact .done _
  | @step s t x labels rest edges _ line ih =>
    cases hstates
    rw [List.map_cons, List.nodup_cons] at hids
    -- the edge of `s` is all that waits, and the id of `s` is not met again
    have hrest : ∀ r ∈ t :: rest, (g.state r).id ∉ (g.state s).id :: seen := by
      intro r hr hmem
      rcases List.mem_cons.1 hmem with heq | hmem
      · exact hids.1 (List.mem_map.2 ⟨r, hr, heq⟩)
      · exact hnew r (List.mem_cons_of_mem _ hr) hmem
    rw [List.nil_append, ← State.map_snd_edges, edges]
    exact .visit (hrest t List.mem_cons_self) (ih hids.2 hrest rfl)

theorem breadthFirst_eq (hl : g.Line stop labels (s :: rest)) (hd : g.DistinctIds s) :
    g.breadthFirst s = s :: rest := by
  refine (g.visits_breadthFirst s).unique (hl.visits ?_ fun _ _ => List.not_mem_nil)
  refine hl.nodup.map_on fun r hr t ht hid => ?_
  exact hd r t (hl.reaches_iff.2 hr) (hl.reaches_iff.2 ht) hid

/-- Of two lines that are joined, the first is visited before the second. -/
theorem breadthFirst_joined {g' : Graph} {p q : Ref} {labels' : List Symbol} {rest' : List Ref}
    (hl : g.Line p labels (s :: rest)) (hl' : g.Line stop labels' (q :: rest'))
    (hj : g.Joined p q g') (hd : g.DistinctIds s) (hd' : g.DistinctIds q)
    (hne : ∀ r t, g.Reaches s r → g.Reaches q t → (g.state r).id ≠ (g.state t).id) :
    g'.breadthFirst s = g.breadthFirst s ++ g.breadthFirst q := by
  have hp : p ∉ q :: rest' := fun hmem =>
    hne p p (hl.reaches_iff.2 hl.stop_mem) (hl'.reaches_iff.2 hmem) rfl
  have hjoined := hl.joined hl' hj hp
  rw [List.cons_append] at hjoined
  rw [hjoined.breadthFirst_eq (hj.distinctIds hd hd' hne), hl.breadthFirst_eq hd,
    hl'.breadthFirst_eq hd', List.cons_append]

/-! ## What is listed -/

/-- Along a line whose states have their places as numbers, every edge leads to the next number. -/
theorem flatMap_edges (hl : g.Line stop labels states) {place : Ref → Nat} {k : Nat}
    (hplace : ∀ i r, states[i]? = some r → place r = k + i) :
    (states.flatMap fun r => (g.state r).edges.map fun e =>
        (⟨place r, e.1.label, place e.2⟩ : Listing.Transition)) =
      (labels.zipIdx k).map fun x => ⟨x.2, x.1.label, x.2 + 1⟩ := by
  induction hl generalizing k with
  | last edges =>
    rw [List.flatMap_singleton, edges]
    rfl
  | @step s t x labels rest edges _ _ ih =>
    have hs : place s = k := hplace 0 s rfl
    have ht : place t = k + 1 := hplace 1 t rfl
    have hrest : ∀ i r, (t :: rest)[i]? = some r → place r = k + 1 + i := by
      intro i r hi
      rw [hplace (i + 1) r hi, Nat.add_assoc, Nat.add_comm 1]
    rw [List.flatMap_cons, ih hrest, edges, List.zipIdx_cons]
    show (⟨place s, x.label, place t⟩ : Listing.Transition) :: _ = _
    rw [hs, ht]
    rfl

theorem transitions_listing (hl : g.Line stop labels (s :: rest)) (hd : g.DistinctIds s) :
    (g.listing s).transitions = (labels.zipIdx 1).map fun x => ⟨x.2, x.1.label, x.2 + 1⟩ := by
  have horder := hl.breadthFirst_eq hd
  have hplace : ∀ i r, (s :: rest)[i]? = some r → g.placeBelow s r = 1 + i := by
    intro i r hi
    rw [placeBelow_of_getElem? (horder ▸ hi), Nat.add_comm]
  rw [Graph.transitions_listing, horder, ← hl.flatMap_edges hplace]
  refine List.flatMap_congr fun r _ => ?_
  rw [State.edges, List.map_append, List.map_map]
  rfl

theorem labels_listing (hl : g.Line stop labels (s :: rest)) (hd : g.DistinctIds s) :
    (g.listing s).transitions.map (·.label) = labels.map (·.label) := by
  rw [hl.transitions_listing hd, ← List.zipIdx_map_fst 1 labels, List.map_map, List.map_map,
    List.zipIdx_map_fst]
  rfl

theorem mem_finals_listing {k : Nat} (hl : g.Line stop labels (s :: rest)) (hd : g.DistinctIds s) :
    k ∈ (g.listing s).finals ↔ k = labels.length + 1 := by
  rw [Graph.mem_finals_listing, hl.breadthFirst_eq hd]
  constructor
  · rintro ⟨i, r, hi, hfinal, rfl⟩
    obtain rfl := (hl.isFinal_iff (List.mem_of_getElem? hi)).1 hfinal
    have hlt := (List.getElem?_eq_some_iff.1 hi).1
    rw [(List.getElem?_inj hlt hl.nodup).1 (hi.trans hl.getElem?_stop.symm)]
  · rintro rfl
    exact ⟨labels.length, stop, hl.getElem?_stop, hl.isFinal_stop, rfl⟩

theorem finals_listing (hl : g.Line stop labels (s :: rest)) (hd : g.DistinctIds s) :
    (g.listing s).finals = [labels.length + 1] := by
  have hnodup : (g.listing s).finals.Nodup :=
    (g.wellFormed_listing s).finals.imp fun hlt => Nat.ne_of_lt hlt
  rw [← List.perm_singleton, List.perm_ext_iff_of_nodup hnodup (List.nodup_singleton _)]
  intro k
  rw [hl.mem_finals_listing hd, List.mem_singleton]

/-- The document of a line. -/
theorem document_listing (hl : g.Line stop labels (s :: rest)) (hd : g.DistinctIds s) :
    (g.listing s).document = .record [
      ("states", .list ((List.range' 1 (labels.length + 1)).map fun k => .text (toString k))),
      ("letters", .list ((g.listing s).letters.map .text)),
      ("transition_function", .list (((labels.map (·.label)).zipIdx 1).map fun x =>
        .list [.text (toString x.2), .text x.1, .text (toString (x.2 + 1))])),
      ("start_states", .list [.text "1"]),
      ("final_states", .list [.text (toString (labels.length + 1))])] := by
  rw [Graph.document_listing, hl.breadthFirst_eq hd, hl.length_eq, hl.transitions_listing hd,
    hl.finals_listing hd, List.zipIdx_map, List.map_map, List.map_map]
  rfl

end Line

end Graph

end EpsilonNfa
