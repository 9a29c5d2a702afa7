import EpsilonNfa.Proofs.Pulls
import EpsilonNfa.Proofs.Traversal

/-!
# Traversals of a graph that grows

While a traversal is suspended its graph may grow. Its queue holds states that were found in earlier
graphs, some of them more than once, and the targets of each state are read only at the pull after
the one that gave it. `BreadthFirst.Explored` keeps, for each state that was given, the graph of
that moment: ids are given once, and what was read has been given or still waits. At the end nothing
waits, so the ids of all that was read have been given (`Workspace.pulls_states`).
-/

namespace EpsilonNfa

variable {g g' : Graph} {s r t : Ref} {i : Nat}

/-! ## What a traversal knows -/

namespace BreadthFirst

variable {b b' : BreadthFirst} {log : List (Graph × Ref)} {p : Graph × Ref}

/-- The id of the state has been given, or the state waits. -/
def Covers (b : BreadthFirst) (g : Graph) (t : Ref) : Prop :=
  (g.state t).id ∈ b.visited ∨ t ∈ b.queue

theorem mem_pending_of_last (hlast : b.last = some r) (ht : t ∈ (g.state r).targets) :
    t ∈ b.pending g := by
  unfold pending
  rw [hlast]
  exact List.mem_append_right _ ht

theorem covers_of_mem_pending (hnext : b.next? g = some (r, b')) (ht : t ∈ b.pending g) :
    b'.Covers g t := by
  obtain ⟨skipped, rest, hpending, hskipped, -, rfl⟩ := next?_eq_some_iff.1 hnext
  rw [hpending, List.mem_append, List.mem_cons] at ht
  rcases ht with ht | rfl | ht
  · exact Or.inl (List.mem_cons_of_mem _ (hskipped t ht))
  · exact Or.inl List.mem_cons_self
  · exact Or.inr ht

theorem Covers.next (ht : b.Covers g t) (hnext : b.next? g = some (r, b')) : b'.Covers g t := by
  rcases ht with ht | ht
  · obtain ⟨_, _, -, -, -, rfl⟩ := next?_eq_some_iff.1 hnext
    exact Or.inl (List.mem_cons_of_mem _ ht)
  · exact covers_of_mem_pending hnext (List.mem_append_left _ ht)

theorem Covers.grow (ht : b.Covers g t) (hmem : t ∈ g) (hg : g.Grows g') : b.Covers g' t := by
  unfold Covers
  rwa [hg.id_eq hmem]

/-- At the end nothing waits whose id has not been given. -/
theorem Covers.mem_visited (ht : b.Covers g t) (hnone : b.next? g = none) :
    (g.state t).id ∈ b.visited :=
  ht.elim id fun ht => next?_eq_none_iff.1 hnone t (List.mem_append_left _ ht)

/-- The states given so far, each with the graph at the moment at which it was given, and what the
traversal knows now that the graph is `g`. -/
structure Explored (s : Ref) (log : List (Graph × Ref)) (b : BreadthFirst) (g : Graph) : Prop where
  start_mem : s ∈ g
  grows : ∀ p ∈ log, p.1.Grows g
  reaches : ∀ p ∈ log, s ∈ p.1 ∧ p.1.Reaches s p.2
  visited_eq : b.visited = (log.map fun p => (g.state p.2).id).reverse
  nodup : b.visited.Nodup
  queue : ∀ t ∈ b.queue, g.Reaches s t
  last_eq : b.last = log.getLast?.map (·.2)
  first : ∀ p, log.head? = some p → p.2 = s
  queue_eq : log = [] → b.queue = [s]
  /-- The targets of a state were read in the graph of the moment after its own. -/
  read : ∀ p q, [p, q] <:+: log → ∀ t ∈ (q.1.state p.2).targets, b.Covers g t

namespace Explored

theorem start (hs : s ∈ g) : (startAt s).Explored s [] g where
  start_mem := hs
  grows := by simp
  reaches := by simp
  visited_eq := rfl
  nodup := List.nodup_nil
  queue t ht := by
    rw [List.mem_singleton.1 ht]
    exact .refl
  last_eq := rfl
  first := by simp
  queue_eq _ := rfl
  read := by simp

theorem mem_log (h : b.Explored s log g) (hp : p ∈ log) : p.2 ∈ p.1 :=
  (h.reaches p hp).2.mem (h.reaches p hp).1

theorem mem (h : b.Explored s log g) (hp : p ∈ log) : p.2 ∈ g :=
  (h.grows p hp).mem (h.mem_log hp)

/-- What a state was at its moment it still is. -/
theorem state_grows (h : b.Explored s log g) (hp : p ∈ log) :
    (p.1.state p.2).Grows (g.state p.2) :=
  (h.grows p hp).state (h.mem_log hp)

theorem mem_visited_iff (h : b.Explored s log g) {id : Int} :
    id ∈ b.visited ↔ ∃ p ∈ log, (g.state p.2).id = id := by
  rw [h.visited_eq, List.mem_reverse, List.mem_map]

theorem eq_of_id_eq {q : Graph × Ref} (h : b.Explored s log g) (hp : p ∈ log) (hq : q ∈ log)
    (hid : (g.state p.2).id = (g.state q.2).id) : p = q := by
  have hnodup := h.nodup
  rw [h.visited_eq, List.nodup_reverse] at hnodup
  exact List.inj_on_of_nodup_map hnodup hp hq hid

/-- While the graph grows the traversal stays as it is. -/
theorem grow (h : b.Explored s log g) (hg : g.Grows g') : b.Explored s log g' where
  start_mem := hg.mem h.start_mem
  grows p hp := (h.grows p hp).trans hg
  reaches := h.reaches
  visited_eq := by
    rw [h.visited_eq]
    exact congrArg List.reverse (List.map_congr_left fun p hp => (hg.id_eq (h.mem hp)).symm)
  nodup := h.nodup
  queue t ht := hg.reaches (h.queue t ht)
  last_eq := h.last_eq
  first := h.first
  queue_eq := h.queue_eq
  read p q hpq t ht := by
    have hq : q ∈ log := hpq.subset (by simp)
    exact (h.read p q hpq t ht).grow ((h.grows q hq).mem (Graph.mem_of_mem_targets ht)) hg

/-- What a pull looks at lies below the start: what waits, and the targets of the last state. -/
theorem reaches_of_mem_pending (h : b.Explored s log g) (ht : t ∈ b.pending g) :
    g.Reaches s t := by
  rcases List.mem_append.1 ht with ht | ht
  · exact h.queue t ht
  · rw [h.last_eq] at ht
    cases hlast : log.getLast? with
    | none =>
      rw [hlast] at ht
      cases ht
    | some p =>
      rw [hlast] at ht
      have hp := List.mem_of_getLast? hlast
      exact ((h.grows p hp).reaches (h.reaches p hp).2).step ht

theorem mem_pending_of_getLast? (h : b.Explored s log g) (hp : log.getLast? = some p)
    (ht : t ∈ (g.state p.2).targets) : t ∈ b.pending g :=
  mem_pending_of_last (by rw [h.last_eq, hp]; rfl) ht

/-- The first state is the start. -/
theorem pending_eq (h : b.Explored s log g) (hlog : log = []) : b.pending g = [s] := by
  unfold pending
  rw [h.queue_eq hlog, h.last_eq, hlog]
  rfl

/-- One state more. -/
theorem next (h : b.Explored s log g) (hnext : b.next? g = some (r, b')) :
    b'.Explored s (log ++ [(g, r)]) g := by
  obtain ⟨skipped, rest, hpending, -, hnew, rfl⟩ := next?_eq_some_iff.1 hnext
  have hreach : ∀ t ∈ r :: rest, g.Reaches s t := fun t ht =>
    h.reaches_of_mem_pending (by rw [hpending]; exact List.mem_append_right _ ht)
  refine ⟨h.start_mem, ?_, ?_, ?_, List.nodup_cons.2 ⟨hnew, h.nodup⟩,
    fun t ht => hreach t (List.mem_cons_of_mem _ ht), ?_, ?_, ?_, ?_⟩
  · intro p hp
    rcases List.mem_append.1 hp with hp | hp
    · exact h.grows p hp
    · rw [List.mem_singleton.1 hp]
      exact .refl g
  · intro p hp
    rcases List.mem_append.1 hp with hp | hp
    · exact h.reaches p hp
    · rw [List.mem_singleton.1 hp]
      exact ⟨h.start_mem, hreach r List.mem_cons_self⟩
  · simp [h.visited_eq]
  · simp
  · intro p hp
    cases hlog : log with
    | nil =>
      rw [h.pending_eq hlog] at hpending
      rw [hlog] at hp
      cases hp
      have hr : r ∈ [s] := by
        rw [hpending]
        exact List.mem_append_right _ List.mem_cons_self
      exact List.mem_singleton.1 hr
    | cons q log =>
      rw [hlog] at hp
      exact h.first p (by rw [hlog]; exact hp)
  · exact fun hlog => absurd hlog (by simp)
  · intro p q hpq t ht
    rcases infix_pair_concat.1 hpq with hpq | ⟨hlast, rfl⟩
    · exact (h.read p q hpq t ht).next hnext
    · exact covers_of_mem_pending hnext (h.mem_pending_of_getLast? hlast ht)

end Explored

end BreadthFirst

/-! ## The moments of a traversal -/

namespace Workspace

variable {w w' w₀ m m' : Workspace} {b : BreadthFirst} {ms front rest : List Workspace}

/-- The pull gives an item. -/
def Gives (m : Workspace) (i : Nat) (item : Walk.Item) : Prop :=
  (m.pull i).1 = .ok (.item (some item))

/-- The pull finds the walk at its end. -/
def Ends (m : Workspace) (i : Nat) : Prop :=
  (m.pull i).1 = .ok (.item none)

theorem Gives.unique {item item' : Walk.Item} (h : m.Gives i item) (h' : m.Gives i item') :
    item = item' := by
  unfold Gives at h h'
  rw [h] at h'
  cases h'
  rfl

theorem Gives.not_ends {item : Walk.Item} (h : m.Gives i item) : ¬ m.Ends i := by
  intro h'
  unfold Gives at h
  unfold Ends at h'
  rw [h] at h'
  cases h'

theorem ends_of_finished (hi : m.walks[i]? = some .finished) : m.Ends i :=
  pull_fst hi

/-- The state that a pull gives, if it gives one. -/
def stateGiven (i : Nat) (m : Workspace) : Ref :=
  match (m.pull i).1 with
  | .ok (.item (some (.state r))) => r
  | _ => default

theorem Gives.stateGiven_eq (h : m.Gives i (.state r)) : m.stateGiven i = r := by
  unfold stateGiven
  rw [show (m.pull i).1 = _ from h]

/-- A traversal that was pulled at the moments of `front` and gave states there, and at those of
`rest` was at its end. It has not moved since the graph was `g`. -/
structure Traversed (i : Nat) (s : Ref) (front rest : List Workspace) (b : BreadthFirst)
    (g : Graph) : Prop where
  gives : ∀ m ∈ front, m.Gives i (.state (m.stateGiven i))
  ends : ∀ m ∈ rest, m.Ends i
  explored : b.Explored s (front.map fun m => (m.session.graph, m.stateGiven i)) g
  ended : ∀ m, rest.head? = some m → m.session.graph = g ∧ b.next? g = none

/-- The moments of a traversal are those of states and those at its end. -/
theorem Pulls.exists_traversed (h : Pulls i w₀ ms w)
    (hi : w₀.walks[i]? = some (.statesFrom s)) (hs : s ∈ w₀.session.graph) :
    ∃ front rest b g, ms = front ++ rest ∧ Traversed i s front rest b g ∧
      g.Grows w.session.graph ∧
      (rest = [] ∧ g = w.session.graph ∧ w.walks[i]? = some (.states b) ∨
        rest ≠ [] ∧ w.walks[i]? = some .finished) := by
  induction h with
  | init =>
    exact ⟨[], [], .startAt s, w₀.session.graph, rfl, ⟨by simp, by simp, .start hs, by simp⟩,
      .refl _, Or.inl ⟨rfl, rfl, hi⟩⟩
  | other _ hwalk hgrows ih =>
    obtain ⟨front, rest, b, g, hms, ht, hg, ⟨rfl, rfl, hstates⟩ | ⟨hrest, hfinished⟩⟩ := ih
    · exact ⟨front, [], b, _, hms, ⟨ht.gives, by simp, ht.explored.grow hgrows, by simp⟩, .refl _,
        Or.inl ⟨rfl, rfl, hwalk.trans hstates⟩⟩
    · exact ⟨front, rest, b, g, hms, ht, hg.trans hgrows,
        Or.inr ⟨hrest, hwalk.trans hfinished⟩⟩
  | @pull _ w _ ih =>
    rw [graph_pull]
    obtain ⟨front, rest, b, g, rfl, ht, hg, ⟨rfl, rfl, hstates⟩ | ⟨hrest, hfinished⟩⟩ := ih
    · have hleft := walks_pull hstates
      have hanswer := pull_fst hstates
      simp only [Walk.next?] at hleft hanswer
      cases hnext : b.next? w.session.graph with
      | none =>
        rw [hnext] at hleft hanswer
        exact ⟨front, [w], b, _, by simp,
          ⟨ht.gives, fun m hm => List.mem_singleton.1 hm ▸ hanswer, ht.explored,
            fun m hm => Option.some.inj hm ▸ ⟨rfl, hnext⟩⟩,
          .refl _, Or.inr ⟨by simp, hleft⟩⟩
      | some p =>
        obtain ⟨r, b'⟩ := p
        rw [hnext] at hleft hanswer
        have hgives : w.Gives i (.state r) := hanswer
        refine ⟨front ++ [w], [], b', w.session.graph, by simp,
          ⟨fun m hm => ?_, by simp, ?_, by simp⟩, .refl _, Or.inl ⟨rfl, rfl, hleft⟩⟩
        · rcases List.mem_append.1 hm with hm | hm
          · exact ht.gives m hm
          · rwa [List.mem_singleton.1 hm, hgives.stateGiven_eq]
        · rw [List.map_append, List.map_singleton, hgives.stateGiven_eq]
          exact ht.explored.next hnext
    · refine ⟨front, rest ++ [w], b, g, by simp, ⟨ht.gives, fun m hm => ?_, ht.explored,
        fun m hm => ht.ended m ?_⟩, hg, Or.inr ⟨by simp, walks_pull hfinished⟩⟩
      · rcases List.mem_append.1 hm with hm | hm
        · exact ht.ends m hm
        · rw [List.mem_singleton.1 hm]
          exact ends_of_finished hfinished
      · rwa [List.head?_append_of_ne_nil _ hrest] at hm

namespace Traversed

variable (ht : Traversed i s front rest b g)
include ht

theorem mem_front (hm : m ∈ front ++ rest) (hr : m.Gives i (.state r)) : m ∈ front :=
  (List.mem_append.1 hm).resolve_right fun hm => hr.not_ends (ht.ends m hm)

theorem mem_graph (hm : m ∈ front) : m.stateGiven i ∈ g :=
  ht.explored.mem (p := (m.session.graph, m.stateGiven i)) (List.mem_map.2 ⟨m, hm, rfl⟩)

theorem mem_visited_iff {id : Int} :
    id ∈ b.visited ↔ ∃ m ∈ front, (g.state (m.stateGiven i)).id = id := by
  rw [ht.explored.mem_visited_iff]
  simp

theorem reaches (hm : m ∈ front) : m.session.graph.Reaches s (m.stateGiven i) :=
  (ht.explored.reaches (m.session.graph, m.stateGiven i) (List.mem_map.2 ⟨m, hm, rfl⟩)).2

theorem pairwise : front.Pairwise fun m m' =>
    (g.state (m.stateGiven i)).id ≠ (g.state (m'.stateGiven i)).id := by
  have hnodup := ht.explored.nodup
  rw [ht.explored.visited_eq, List.nodup_reverse, List.map_map] at hnodup
  exact List.pairwise_map.1 hnodup

/-- A traversal is not at its end before it has given its start. -/
theorem gives_start (hm : (front ++ rest).head? = some m) : m.Gives i (.state s) := by
  cases front with
  | nil =>
    have hnone := BreadthFirst.next?_eq_none_iff.1 (ht.ended m hm).2
    rw [ht.explored.pending_eq rfl, ht.explored.visited_eq] at hnone
    exact absurd (hnone s (List.mem_singleton.2 rfl)) List.not_mem_nil
  | cons first front =>
    cases hm
    have hfirst := ht.explored.first _ rfl
    rw [← hfirst]
    exact ht.gives m List.mem_cons_self

/-- Once the traversal is at its end, the ids of all targets that it has read have been given. -/
theorem exists_next (hrest : rest ≠ []) (hm : m ∈ front) :
    ∃ m', [m, m'] <:+: front ++ rest ∧
      ∀ t ∈ (m'.session.graph.state (m.stateGiven i)).targets,
        t ∈ g ∧ (g.state t).id ∈ b.visited := by
  obtain ⟨last, rest, rfl⟩ := List.exists_cons_of_ne_nil hrest
  obtain ⟨hgraph, hnone⟩ := ht.ended last rfl
  obtain ⟨before, after, rfl⟩ := List.append_of_mem hm
  cases after with
  | nil =>
    refine ⟨last, ⟨before, rest, by simp⟩, fun t hmem => ?_⟩
    rw [hgraph] at hmem
    exact ⟨Graph.mem_of_mem_targets hmem, BreadthFirst.next?_eq_none_iff.1 hnone t
      (ht.explored.mem_pending_of_getLast? (p := (m.session.graph, m.stateGiven i)) (by simp) hmem)⟩
  | cons m' after =>
    refine ⟨m', ⟨before, after ++ last :: rest, by simp⟩, fun t hmem => ?_⟩
    have hadjacent : [m, m'] <:+: before ++ m :: m' :: after := ⟨before, after, by simp⟩
    have hlog := hadjacent.map fun m => (m.session.graph, m.stateGiven i)
    have hgrows := ht.explored.grows _ (hlog.subset (List.mem_cons_of_mem _ List.mem_cons_self))
    exact ⟨hgrows.mem (Graph.mem_of_mem_targets hmem),
      (ht.explored.read _ _ hlog t hmem).mem_visited hnone⟩

end Traversed

/-- A traversal of the states below `s` that is pulled among any operations of its session, whatever
ids its states have. A pull gives a state or finds the end. No two of the states have one id, each
of them lay below `s` at its moment, and the first is `s`. If the end is found, every state has a
moment after its own, and all its targets of that moment have ids that were given. So if ids tell
apart what lies below `s` at last, and no state was given targets after that moment, the states
given are those below `s` in the last graph. -/
theorem pulls_states {ms : List Workspace} {g : Graph} (ops : List Operation)
    (hi : w.walks[i]? = some (.statesFrom s)) (hs : s ∈ w.session.graph)
    (hms : w.moments i ops = ms) (hg : (w.afterAll ops).session.graph = g) :
    (∀ m ∈ ms, (∃ r, m.Gives i (.state r)) ∨ m.Ends i) ∧
    (ms.Pairwise fun m m' => ∀ r r', m.Gives i (.state r) → m'.Gives i (.state r') →
      (g.state r).id ≠ (g.state r').id) ∧
    (∀ m ∈ ms, ∀ r, m.Gives i (.state r) → m.session.graph.Reaches s r) ∧
    (∀ m, ms.head? = some m → m.Gives i (.state s)) ∧
    ((∃ m ∈ ms, m.Ends i) →
      (∀ m ∈ ms, ∀ u, m.Gives i (.state u) → ∃ m', [m, m'] <:+: ms ∧
        ∀ t ∈ (m'.session.graph.state u).targets,
          ∃ n ∈ ms, ∃ v, n.Gives i (.state v) ∧ (g.state v).id = (g.state t).id) ∧
      (g.DistinctIds s →
        (∀ m m' u, [m, m'] <:+: ms → m.Gives i (.state u) →
          (g.state u).targets = (m'.session.graph.state u).targets) →
        ∀ t, (∃ m ∈ ms, m.Gives i (.state t)) ↔ g.Reaches s t)) := by
  have hpulls := (pulls_moments hi ops).1
  rw [hms] at hpulls
  obtain ⟨front, rest, b, g₀, rfl, ht, hgrows, -⟩ := hpulls.exists_traversed hi hs
  rw [hg] at hgrows
  have hid : ∀ {m}, m ∈ front →
      (g.state (m.stateGiven i)).id = (g₀.state (m.stateGiven i)).id :=
    fun hm => hgrows.id_eq (ht.mem_graph hm)
  have hreaches : ∀ m ∈ front ++ rest, ∀ r, m.Gives i (.state r) →
      m.session.graph.Reaches s r := by
    intro m hm r hr
    rw [← hr.stateGiven_eq]
    exact ht.reaches (ht.mem_front hm hr)
  refine ⟨fun m hm => ?_, ?_, hreaches, fun m hm => ht.gives_start hm, ?_⟩
  · rcases List.mem_append.1 hm with hm | hm
    · exact Or.inl ⟨_, ht.gives m hm⟩
    · exact Or.inr (ht.ends m hm)
  · refine List.pairwise_append.2 ⟨?_, ?_, ?_⟩
    · refine ht.pairwise.imp_of_mem fun hm hm' hne r r' hr hr' => ?_
      rwa [← hr.stateGiven_eq, ← hr'.stateGiven_eq, hid hm, hid hm']
    · exact List.pairwise_of_forall_mem_list fun m hm _ _ r _ hr =>
        absurd (ht.ends m hm) hr.not_ends
    · exact fun _ _ m hm _ r' _ hr' => absurd (ht.ends m hm) hr'.not_ends
  · rintro ⟨last, hlast, hends⟩
    have hrest : rest ≠ [] := by
      rintro rfl
      rw [List.append_nil] at hlast
      exact (ht.gives last hlast).not_ends hends
    have hnext : ∀ m ∈ front ++ rest, ∀ u, m.Gives i (.state u) → ∃ m', [m, m'] <:+: front ++ rest ∧
        ∀ t ∈ (m'.session.graph.state u).targets,
          ∃ n ∈ front ++ rest, ∃ v, n.Gives i (.state v) ∧ (g.state v).id = (g.state t).id := by
      intro m hm u hu
      obtain ⟨m', hadjacent, hread⟩ := ht.exists_next hrest (ht.mem_front hm hu)
      rw [hu.stateGiven_eq] at hread
      refine ⟨m', hadjacent, fun t hmem => ?_⟩
      obtain ⟨htg, hvisited⟩ := hread t hmem
      obtain ⟨n, hn, hnid⟩ := ht.mem_visited_iff.1 hvisited
      refine ⟨n, List.mem_append_left _ hn, _, ht.gives n hn, ?_⟩
      rw [hid hn, hnid, hgrows.id_eq htg]
    have hgiven : ∀ {t}, (∃ m ∈ front ++ rest, m.Gives i (.state t)) → g.Reaches s t := by
      rintro t ⟨m, hm, hgives⟩
      have hgrows := hpulls.grows_of_mem hm
      rw [hg] at hgrows
      exact hgrows.reaches (hreaches m hm t hgives)
    refine ⟨hnext, fun hd hkept t => ⟨hgiven, fun hr => ?_⟩⟩
    induction hr with
    | refl =>
      have hfirst := List.head?_eq_some_head (List.ne_nil_of_mem hlast)
      exact ⟨_, List.mem_of_head? hfirst, ht.gives_start hfirst⟩
    | @step r t hr edge ih =>
      obtain ⟨m, hm, hgives⟩ := ih
      obtain ⟨m', hadjacent, hread⟩ := hnext m hm r hgives
      rw [hkept m m' r hadjacent hgives] at edge
      obtain ⟨n, hn, v, hv, hvid⟩ := hread t edge
      rw [← hkept m m' r hadjacent hgives] at edge
      rw [← hd v t (hgiven ⟨n, hn, hv⟩) (hr.step edge) hvid]
      exact ⟨n, hn, hv⟩

/-- The first state of the fork gets an edge to the last one after it has been given, and before its
targets are read. -/
theorem pulls_states_fork :
    let w : Workspace := { session := { heap := .fork }, walks := [.statesFrom ⟨0⟩] }
    let ops : List Operation := [.pull 0, .connect ⟨0⟩ (.text "y") ⟨4⟩, .pull 0, .pull 0, .pull 0,
      .pull 0]
    w.walks[0]? = some (.statesFrom ⟨0⟩) ∧ ⟨0⟩ ∈ w.session.graph ∧
      ∃ ms g, w.moments 0 (ops ++ [.pull 0]) = ms ∧
        (w.afterAll (ops ++ [.pull 0])).session.graph = g ∧ (∃ m ∈ ms, m.Ends 0) ∧
        w.Gives 0 (.state ⟨0⟩) ∧ ∃ m', [w, m'] <:+: ms ∧
          ∀ t ∈ (m'.session.graph.state ⟨0⟩).targets,
            ∃ n ∈ ms, ∃ v, n.Gives 0 (.state v) ∧ (g.state v).id = (g.state t).id := by
  have hlast : (afterAll { session := { heap := .fork }, walks := [.statesFrom ⟨0⟩] }
      [.pull 0, .connect ⟨0⟩ (.text "y") ⟨4⟩, .pull 0, .pull 0, .pull 0, .pull 0]).Ends 0 := rfl
  intro w ops
  have hi : w.walks[0]? = some (.statesFrom ⟨0⟩) := rfl
  have hs : ⟨0⟩ ∈ w.session.graph := by decide
  have hfirst : (w.moments 0 (ops ++ [.pull 0])).head? = some w := by
    rw [List.cons_append, moments_pull_cons, List.head?_cons]
  obtain ⟨-, -, -, hstart, hend⟩ := pulls_states (ops ++ [.pull 0]) hi hs rfl rfl
  have hends : ∃ m ∈ w.moments 0 (ops ++ [.pull 0]), m.Ends 0 :=
    ⟨_, afterAll_mem_moments w ops, hlast⟩
  have hgives := hstart w hfirst
  exact ⟨hi, hs, _, _, rfl, rfl, hends, hgives,
    (hend hends).1 w (List.mem_of_head? hfirst) ⟨0⟩ hgives⟩

end Workspace

end EpsilonNfa
