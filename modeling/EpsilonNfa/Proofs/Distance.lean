import EpsilonNfa.Proofs.ShapeListing
import EpsilonNfa.Proofs.WholeWalk
import Mathlib.Order.Lattice.Nat

/-!
# Traversals and distances

A traversal goes in rounds (`Visits.round`): it visits the new states of its queue, and puts behind
them what lies one edge further. In the round of number `n` the queue holds all states at distance
`n` from the start, some of them several times, and others that have been seen
(`Graph.AtRound`). Where ids tell states apart, the new ones among them are those at distance `n`,
so states are visited in the order of their distances (`Graph.AtRound.pairwise`).
-/

namespace EpsilonNfa.Graph

variable {g : Graph} {s r t : Ref} {m n : Nat} {seen : List Int} {queue order : List Ref}

/-- A path of `n` edges of any kind from `s` to the given state. -/
inductive ReachesIn (g : Graph) (s : Ref) : Nat → Ref → Prop
  | refl : ReachesIn g s 0 s
  | step {n : Nat} {r t : Ref} (h : ReachesIn g s n r) (edge : t ∈ (g.state r).targets) :
      ReachesIn g s (n + 1) t

/-- The number of edges of a shortest path from `s` to `t`, and zero if there is no path. -/
noncomputable def distance (g : Graph) (s t : Ref) : Nat :=
  sInf {n | g.ReachesIn s n t}

theorem ReachesIn.reaches (h : g.ReachesIn s n t) : g.Reaches s t := by
  induction h with
  | refl => exact .refl
  | step _ edge ih => exact ih.step edge

theorem Reaches.exists_reachesIn (h : g.Reaches s t) : ∃ n, g.ReachesIn s n t := by
  induction h with
  | refl => exact ⟨0, .refl⟩
  | step _ edge ih =>
    obtain ⟨n, hn⟩ := ih
    exact ⟨n + 1, hn.step edge⟩

theorem Reaches.reachesIn_distance (h : g.Reaches s t) : g.ReachesIn s (g.distance s t) t :=
  Nat.sInf_mem h.exists_reachesIn

theorem ReachesIn.distance_le (h : g.ReachesIn s n t) : g.distance s t ≤ n :=
  Nat.sInf_le h

/-! ## Rounds -/

/-- A traversal from `s` has seen the states at distances less than `n`, and has those at distance
`n` in its queue. -/
structure AtRound (g : Graph) (s : Ref) (n : Nat) (seen : List Int) (queue : List Ref) : Prop where
  seen_iff : ∀ {t}, g.Reaches s t → ((g.state t).id ∈ seen ↔ g.distance s t < n)
  reachesIn : ∀ q ∈ queue, g.ReachesIn s n q
  queued : ∀ {t}, g.Reaches s t → g.distance s t = n → t ∈ queue

namespace AtRound

theorem start (g : Graph) (s : Ref) : g.AtRound s 0 [] [s] where
  seen_iff _ := by simp
  reachesIn q hq := List.mem_singleton.1 hq ▸ .refl
  queued {t} ht hzero := by
    have hpath := ht.reachesIn_distance
    rw [hzero] at hpath
    cases hpath
    exact List.mem_singleton.2 rfl

/-- What is seen later is no nearer than the round. -/
theorem le_distance (h : g.AtRound s n seen queue) (ht : g.Reaches s t)
    (hnew : (g.state t).id ∉ seen) : n ≤ g.distance s t :=
  Nat.not_lt.1 fun hlt => hnew ((h.seen_iff ht).2 hlt)

variable (hd : g.DistinctIds s) (h : g.AtRound s n seen queue)
include hd h

/-- The new states of a round are those at its distance. -/
theorem mem_fresh_iff : t ∈ g.fresh seen queue ↔ g.Reaches s t ∧ g.distance s t = n := by
  constructor
  · intro ht
    obtain ⟨hqueue, hnew⟩ := mem_of_mem_fresh ht
    have hpath := h.reachesIn t hqueue
    exact ⟨hpath.reaches,
      Nat.le_antisymm hpath.distance_le (h.le_distance hpath.reaches hnew)⟩
  · rintro ⟨ht, rfl⟩
    have hnew : (g.state t).id ∉ seen := fun hseen => Nat.lt_irrefl _ ((h.seen_iff ht).1 hseen)
    have hfirst : ∃ q ∈ g.fresh seen queue, (g.state q).id = (g.state t).id :=
      exists_mem_fresh (h.queued ht rfl) hnew
    obtain ⟨q, hq, hid⟩ := hfirst
    have hpath := h.reachesIn q (mem_of_mem_fresh hq).1
    rwa [← hd q t hpath.reaches ht hid]

theorem next : g.AtRound s (n + 1) (seen ++ (g.fresh seen queue).map fun r => (g.state r).id)
    ((g.fresh seen queue).flatMap fun r => (g.state r).targets) where
  seen_iff {t} ht := by
    have hfresh : (g.state t).id ∈ (g.fresh seen queue).map (fun r => (g.state r).id) ↔
        g.distance s t = n := by
      constructor
      · intro hmem
        obtain ⟨q, hq, hid⟩ := List.mem_map.1 hmem
        obtain ⟨hreach, hdist⟩ := (h.mem_fresh_iff hd).1 hq
        rwa [← hd q t hreach ht hid]
      · exact fun hdist => List.mem_map.2 ⟨t, (h.mem_fresh_iff hd).2 ⟨ht, hdist⟩, rfl⟩
    rw [List.mem_append, h.seen_iff ht, hfresh]
    omega
  reachesIn q hq := by
    obtain ⟨r, hr, edge⟩ := List.mem_flatMap.1 hq
    obtain ⟨hreach, rfl⟩ := (h.mem_fresh_iff hd).1 hr
    exact hreach.reachesIn_distance.step edge
  queued {t} ht hdist := by
    have hpath := ht.reachesIn_distance
    rw [hdist] at hpath
    cases hpath with
    | @step _ r _ hr edge =>
      -- a shorter path to the state before the last edge would make one to the last state
      have hshort := (hr.reaches.reachesIn_distance.step edge).distance_le
      have hle := hr.distance_le
      refine List.mem_flatMap.2 ⟨r, (h.mem_fresh_iff hd).2 ⟨hr.reaches, ?_⟩, edge⟩
      omega

/-- From a round on, states are visited in the order of their distances. -/
theorem pairwise (hv : g.Visits seen queue order) :
    order.Pairwise fun r t => g.distance s r ≤ g.distance s t := by
  induction hlength : order.length using Nat.strongRecOn generalizing n seen queue order with
  | ind length ih =>
    have hvisits : ∃ later, order = g.fresh seen queue ++ later ∧
        g.Visits (seen ++ (g.fresh seen queue).map fun r => (g.state r).id)
          ((g.fresh seen queue).flatMap fun r => (g.state r).targets) later := by
      rw [← List.append_nil queue] at hv
      exact hv.round
    obtain ⟨later, rfl, hlater⟩ := hvisits
    have hnext := h.next hd
    have hround : ∀ r ∈ g.fresh seen queue, g.distance s r = n := fun r hr =>
      ((h.mem_fresh_iff hd).1 hr).2
    refine List.pairwise_append.2 ⟨?_, ?_, ?_⟩
    · exact List.pairwise_of_forall_mem_list fun r hr t ht => by
        rw [hround r hr, hround t ht]
    -- a round that visits nothing puts nothing into the queue, and is the last one
    · by_cases hfresh : g.fresh seen queue = []
      · rw [hfresh] at hlater
        cases hlater
        exact .nil
      · have hpos := List.length_pos_of_ne_nil hfresh
        rw [List.length_append] at hlength
        exact ih later.length (by omega) hnext hlater rfl
    · intro r hr t ht
      have hreach : g.Reaches s t := hlater.forall_mem (P := g.Reaches s)
        (fun q hq => (hnext.reachesIn q hq).reaches) (fun _ hq _ edge => hq.step edge) t ht
      have hdist := hnext.le_distance hreach (hlater.key_not_mem t ht)
      rw [hround r hr]
      omega

end AtRound

/-! ## Whole traversals -/

theorem pairwise_breadthFirst (hd : g.DistinctIds s) :
    (g.breadthFirst s).Pairwise fun r t => g.distance s r ≤ g.distance s t :=
  (AtRound.start g s).pairwise hd (g.visits_breadthFirst s)

theorem nodup_breadthFirst (g : Graph) (s : Ref) : (g.breadthFirst s).Nodup :=
  (g.nodup_idsBelow s).of_map _

theorem edgesFrom_eq (g : Graph) (r : Ref) : g.edgesFrom r =
    (g.state r).onSymbol.entries.map (fun e => ⟨r, e.1, e.2⟩) ++
      (g.state r).onEpsilon.map (⟨r, .epsilon, ·⟩) := by
  simp [edgesFrom, State.edges]

/-- What comes from one of the sources of a list of edges is what that source has, once. -/
theorem edgesOf_flatMap_edgesFrom (g : Graph) {l : List Ref} (hl : l.Nodup) (hr : r ∈ l) :
    EdgeWalk.edgesOf r (l.flatMap g.edgesFrom) = (g.state r).edges := by
  have hself : (g.edgesFrom r).filter (·.source = r) = g.edgesFrom r :=
    List.filter_eq_self.2 fun e he => by
      obtain ⟨d, -, rfl⟩ := List.mem_map.1 he
      simp
  have hother : ∀ q ∈ l, q ≠ r → (g.edgesFrom q).filter (·.source = r) = [] := fun q _ hne =>
    List.filter_eq_nil_iff.2 fun e he => by
      obtain ⟨d, -, rfl⟩ := List.mem_map.1 he
      simpa using hne
  rw [EdgeWalk.edgesOf, List.filter_flatMap, Shape.flatMap_eq_of_forall_ne hl hr _ hother, hself,
    edgesFrom, List.map_map]
  exact List.map_id _

end EpsilonNfa.Graph

namespace EpsilonNfa

/-- Pulled to its end with nothing done in between, a traversal gives every state below its start
once and no other, in the order of their distances from the start. A walk over edges gives of each
of these states, in the same order, the symbol edges and then the epsilon edges in their order, and
so each edge of each state once. -/
theorem Walk.yields_byDistance (s : Session) {start : Ref} (hd : s.graph.DistinctIds start) :
    (statesFrom start).Yields s ((s.graph.breadthFirst start).map .state) s ∧
      (s.graph.breadthFirst start).Nodup ∧
      (∀ r, r ∈ s.graph.breadthFirst start ↔ s.graph.Reaches start r) ∧
      ((s.graph.breadthFirst start).Pairwise fun r t =>
        s.graph.distance start r ≤ s.graph.distance start t) ∧
      (edgesFrom start).Yields s ((s.graph.edges start).map .edge) s ∧
      s.graph.edges start = (s.graph.breadthFirst start).flatMap (fun r =>
        (s.graph.state r).onSymbol.entries.map (fun e => ⟨r, e.1, e.2⟩) ++
          (s.graph.state r).onEpsilon.map (⟨r, .epsilon, ·⟩)) ∧
      (∀ e ∈ s.graph.edges start, s.graph.Reaches start e.source) ∧
      ∀ r, s.graph.Reaches start r →
        EdgeWalk.edgesOf r (s.graph.edges start) = (s.graph.state r).edges := by
  have hmem : ∀ r, r ∈ s.graph.breadthFirst start ↔ s.graph.Reaches start r :=
    fun r => Graph.mem_breadthFirst hd
  have hnodup := s.graph.nodup_breadthFirst start
  refine ⟨yields_statesFrom s start, hnodup, hmem, Graph.pairwise_breadthFirst hd,
    yields_edgesFrom s start, ?_, fun e he => ?_, fun r hr => ?_⟩
  · exact List.flatMap_congr fun r _ => s.graph.edgesFrom_eq r
  · obtain ⟨r, hr, hedge⟩ := List.mem_flatMap.1 he
    obtain ⟨d, -, rfl⟩ := List.mem_map.1 hedge
    exact (hmem r).1 hr
  · exact s.graph.edgesOf_flatMap_edgesFrom hnodup ((hmem r).2 hr)

/-- The edge of the fork that leads back leads to a state that is not given again, and its double
edge is given twice. -/
theorem Walk.yields_byDistance_fork :
    let s : Session := { heap := .fork }
    s.graph.DistinctIds ⟨0⟩ ∧
      (statesFrom ⟨0⟩).Yields s [.state ⟨0⟩, .state ⟨1⟩, .state ⟨2⟩, .state ⟨3⟩] s ∧
      (edgesFrom ⟨0⟩).Yields s [.edge ⟨⟨0⟩, .text "x", ⟨1⟩⟩, .edge ⟨⟨1⟩, .epsilon, ⟨0⟩⟩,
        .edge ⟨⟨1⟩, .epsilon, ⟨2⟩⟩, .edge ⟨⟨1⟩, .epsilon, ⟨2⟩⟩, .edge ⟨⟨2⟩, .int 7, ⟨3⟩⟩] s := by
  intro s
  have hd : s.graph.DistinctIds ⟨0⟩ := .of_nodup (by decide) (by decide)
  have hvisits : s.graph.Visits [] [⟨0⟩] [⟨0⟩, ⟨1⟩, ⟨2⟩, ⟨3⟩] :=
    .visit (by decide) <| .visit (by decide) <| .skip (by decide) <| .visit (by decide) <|
      .skip (by decide) <| .visit (by decide) <| .done _
  have horder := (s.graph.visits_breadthFirst ⟨0⟩).unique hvisits
  obtain ⟨hstates, -, -, -, hedges, hlist, -, -⟩ := yields_byDistance s hd
  rw [hlist, horder] at hedges
  rw [horder] at hstates
  exact ⟨hd, hstates, hedges⟩

end EpsilonNfa
