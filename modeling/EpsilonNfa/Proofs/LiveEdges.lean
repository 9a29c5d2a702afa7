import EpsilonNfa.Proofs.EdgeTrace

/-!
# Walks over the edges of a graph that grows

A walk over edges that is pulled among other operations of its session does at each pull a part of
its history (`Workspace.edgeLog`), so what `EdgeWalk.Walked` says of the history holds of the edges
that the pulls give. Failures need no history: a pull fails exactly if the one before it has given a
symbol edge and the table of its source has grown since (`Workspace.Pulls.breaks_iff`).
-/

namespace EpsilonNfa

variable {g g' : Graph} {s r u : Ref} {i : Nat} {e : Edge}

theorem Graph.Grows.size_le (h : g.Grows g') (r : Ref) :
    (g.state r).onSymbol.size ≤ (g'.state r).onSymbol.size := by
  by_cases hr : r ∈ g
  · exact (h.state hr).onSymbol.length_le
  · rw [state_eq_default hr]
    exact Nat.zero_le _

namespace Workspace

open EdgeWalk (Event Walked entered given edgesOf)

variable {w w₀ m m' : Workspace} {b b' : EdgeWalk} {ms : List Workspace}

/-! ## One pull -/

/-- The pull finds that the table which the walk reads has grown. -/
def Breaks (m : Workspace) (i : Nat) : Prop :=
  (m.pull i).1 = .error .changedDuringWalk

/-- The edge that a pull gives, if it gives one. -/
def edgeGiven? (i : Nat) (m : Workspace) : Option Edge :=
  match (m.pull i).1 with
  | .ok (.item (some (.edge e))) => some e
  | _ => none

/-- What a walk over edges does during a pull. -/
def edgeEvents (i : Nat) (m : Workspace) : List Event :=
  match m.walks[i]? with
  | some (.edges b) => b.events m.session.graph
  | _ => []

/-- What a walk over edges does during pulls, each time in the graph that it finds. -/
def edgeLog (i : Nat) (ms : List Workspace) : List (Graph × Event) :=
  ms.flatMap fun m => (m.edgeEvents i).map (m.session.graph, ·)

/-- The walk is one over edges, or is over. -/
def OverEdges (i : Nat) (m : Workspace) : Prop :=
  (∃ b, m.walks[i]? = some (.edges b)) ∨ m.walks[i]? = some .finished

theorem edgeGiven?_eq_some_iff : m.edgeGiven? i = some e ↔ m.Gives i (.edge e) := by
  unfold edgeGiven? Gives
  split
  · next heq => simp [heq]
  · next hne => exact ⟨by simp, fun h => absurd h (hne e)⟩

section Edges

variable (hi : m.walks[i]? = some (.edges b))
include hi

theorem gives_edge_iff :
    m.Gives i (.edge e) ↔ ∃ b', b.next? m.session.graph = .ok (some (e, b')) := by
  unfold Gives
  rw [pull_fst hi, Walk.next?]
  rcases b.next? m.session.graph with _ | _ | ⟨e', b'⟩ <;> simp [Except.map]

theorem ends_iff : m.Ends i ↔ b.next? m.session.graph = .ok none := by
  unfold Ends
  rw [pull_fst hi, Walk.next?]
  rcases b.next? m.session.graph with _ | _ | ⟨e', b'⟩ <;> simp [Except.map]

theorem breaks_iff : m.Breaks i ↔ b.next? m.session.graph = .error .changedDuringWalk := by
  unfold Breaks
  rw [pull_fst hi, Walk.next?]
  rcases b.next? m.session.graph with _ | _ | ⟨e', b'⟩ <;> simp [Except.map]

/-- A walk goes on from the edge that it has given. -/
theorem walks_pull_of_given (hnext : b.next? m.session.graph = .ok (some (e, b'))) :
    (m.pull i).2.walks[i]? = some (.edges b') := by
  rw [walks_pull hi, Walk.next?, hnext]

/-- A walk that gives no edge is over. -/
theorem walks_pull_of_not_given (hnot : ∀ e, ¬ m.Gives i (.edge e)) :
    (m.pull i).2.walks[i]? = some .finished := by
  rw [walks_pull hi, Walk.next?]
  cases hnext : b.next? m.session.graph with
  | error err => rfl
  | ok next =>
    rcases next with _ | ⟨e, b'⟩
    · rfl
    · exact absurd ((gives_edge_iff hi).2 ⟨b', hnext⟩) (hnot e)

end Edges

theorem Gives.not_breaks {item : Walk.Item} (h : m.Gives i item) : ¬ m.Breaks i := by
  intro h'
  unfold Gives at h
  unfold Breaks at h'
  rw [h] at h'
  cases h'

theorem not_gives_of_finished (hi : m.walks[i]? = some .finished) (item : Walk.Item) :
    ¬ m.Gives i item :=
  fun h => h.not_ends (ends_of_finished hi)

theorem not_breaks_of_finished (hi : m.walks[i]? = some .finished) : ¬ m.Breaks i := by
  intro h
  have hends := ends_of_finished hi
  unfold Breaks at h
  unfold Ends at hends
  rw [h] at hends
  cases hends

namespace OverEdges

variable (h : OverEdges i m)
include h

theorem gives_or_ends_or_breaks :
    (∃ e, m.Gives i (.edge e)) ∨ m.Ends i ∨ m.Breaks i := by
  rcases h with ⟨b, hi⟩ | hi
  · cases hnext : b.next? m.session.graph with
    | error err =>
      obtain ⟨rfl, -⟩ := EdgeWalk.next?_eq_error_iff.1 hnext
      exact Or.inr (Or.inr ((breaks_iff hi).2 hnext))
    | ok next =>
      rcases next with _ | ⟨e, b'⟩
      · exact Or.inr (Or.inl ((ends_iff hi).2 hnext))
      · exact Or.inl ⟨e, (gives_edge_iff hi).2 ⟨b', hnext⟩⟩
  · exact Or.inr (Or.inl (ends_of_finished hi))

/-- The one edge among the events is the edge that the pull gives. -/
theorem filterMap_edgeEvents :
    (m.edgeEvents i).filterMap Event.given? = (m.edgeGiven? i).toList := by
  rcases h with ⟨b, hi⟩ | hi
  · unfold edgeEvents edgeGiven?
    rw [hi, pull_fst hi, Walk.next?]
    simp only [(EdgeWalk.pull m.session.graph b).filterMap_given?]
    rcases b.next? m.session.graph with _ | _ | ⟨e', b'⟩ <;> rfl
  · unfold edgeEvents edgeGiven?
    rw [hi, pull_fst hi]
    rfl

end OverEdges

theorem OverEdges.give_mem (h : OverEdges i m) (he : m.Gives i (.edge e)) :
    .give e ∈ m.edgeEvents i := by
  have hmem : e ∈ (m.edgeEvents i).filterMap Event.given? := by
    rw [h.filterMap_edgeEvents, edgeGiven?_eq_some_iff.2 he]
    exact List.mem_singleton.2 rfl
  obtain ⟨event, hevent, hgiven⟩ := List.mem_filterMap.1 hmem
  cases event with
  | give e' =>
    cases hgiven
    exact hevent
  | _ => cases hgiven

theorem mem_edgeLog {event : Event} :
    (g, event) ∈ edgeLog i ms ↔ ∃ m ∈ ms, g = m.session.graph ∧ event ∈ m.edgeEvents i := by
  simp only [edgeLog, List.mem_flatMap, List.mem_map, Prod.mk.injEq]
  constructor
  · rintro ⟨m, hm, _, hevent, rfl, rfl⟩
    exact ⟨m, hm, rfl, hevent⟩
  · rintro ⟨m, hm, rfl, hevent⟩
    exact ⟨m, hm, event, hevent, rfl, rfl⟩

theorem edgeLog_concat (ms : List Workspace) (m : Workspace) :
    edgeLog i (ms ++ [m]) = edgeLog i ms ++ (m.edgeEvents i).map (m.session.graph, ·) := by
  simp [edgeLog]

/-- The history gives the edges that the pulls give. -/
theorem given_edgeLog (h : ∀ m ∈ ms, OverEdges i m) :
    given (edgeLog i ms) = ms.filterMap (edgeGiven? i) := by
  unfold given edgeLog
  rw [List.filterMap_flatMap, List.filterMap_eq_flatMap_toList]
  refine List.flatMap_congr fun m hm => ?_
  rw [List.filterMap_map, ← (h m hm).filterMap_edgeEvents]
  rfl

theorem mem_given_edgeLog (h : ∀ m ∈ ms, OverEdges i m) :
    e ∈ given (edgeLog i ms) ↔ ∃ m ∈ ms, m.Gives i (.edge e) := by
  simp only [given_edgeLog h, List.mem_filterMap, edgeGiven?_eq_some_iff]

/-! ## All pulls -/

namespace Pulls

/-- After any pulls the walk has done what happened during them. It goes on from where it is, or it
has broken off or come to its end. -/
theorem exists_walked (h : Pulls i w₀ ms w) (hi : w₀.walks[i]? = some (.edgesFrom s))
    (hs : s ∈ w₀.session.graph) :
    (∀ m ∈ ms, OverEdges i m) ∧ ∃ b g, Walked s (edgeLog i ms) b g ∧
      g.Grows w.session.graph ∧
      (g = w.session.graph ∧ w.walks[i]? = some (.edges b) ∧ (∀ m ∈ ms, ∃ e, m.Gives i (.edge e)) ∨
        w.walks[i]? = some .finished ∧
          ((∃ m ∈ ms, m.Breaks i) ∨ b.StandsAfter g (.ok none))) := by
  induction h with
  | init =>
    exact ⟨by simp, .startAt s, _, .start hs, .refl _, Or.inl ⟨rfl, hi, by simp⟩⟩
  | other _ hwalk hgrows ih =>
    obtain ⟨hover, b, g, hwalked, hg, ⟨rfl, hedges, hgives⟩ | ⟨hfinished, hafter⟩⟩ := ih
    · exact ⟨hover, b, _, hwalked.grow hgrows, .refl _,
        Or.inl ⟨rfl, hwalk.trans hedges, hgives⟩⟩
    · exact ⟨hover, b, g, hwalked, hg.trans hgrows, Or.inr ⟨hwalk.trans hfinished, hafter⟩⟩
  | @pull ms w _ ih =>
    rw [graph_pull, edgeLog_concat]
    obtain ⟨hover, b, g, hwalked, hg, ⟨rfl, hedges, hgives⟩ | ⟨hfinished, hafter⟩⟩ := ih
    · obtain ⟨b', hwalked', hafter⟩ := hwalked.pull (EdgeWalk.pull w.session.graph b)
      have hover' : OverEdges i w := Or.inl ⟨b, hedges⟩
      refine ⟨List.forall_mem_append.2 ⟨hover, List.forall_mem_singleton.2 hover'⟩, b', _, ?_,
        .refl _, ?_⟩
      · unfold edgeEvents
        rwa [hedges]
      · cases hnext : b.next? w.session.graph with
        | error err =>
          obtain ⟨rfl, -⟩ := EdgeWalk.next?_eq_error_iff.1 hnext
          have hbreaks := (breaks_iff hedges).2 hnext
          exact Or.inr ⟨walks_pull_of_not_given hedges fun e he => he.not_breaks hbreaks,
            Or.inl ⟨w, by simp, hbreaks⟩⟩
        | ok next =>
          rw [hnext] at hafter
          rcases next with _ | ⟨e, b''⟩
          · have hends := (ends_iff hedges).2 hnext
            exact Or.inr ⟨walks_pull_of_not_given hedges fun e he => he.not_ends hends,
              Or.inr hafter⟩
          · obtain rfl : b' = b'' := hafter
            have hgive := (gives_edge_iff hedges).2 ⟨b', hnext⟩
            exact Or.inl ⟨rfl, walks_pull_of_given hedges hnext,
              List.forall_mem_append.2 ⟨hgives, List.forall_mem_singleton.2 ⟨e, hgive⟩⟩⟩
    · have hover' : OverEdges i w := Or.inr hfinished
      refine ⟨List.forall_mem_append.2 ⟨hover, List.forall_mem_singleton.2 hover'⟩, b, g, ?_, hg,
        Or.inr ⟨walks_pull hfinished, hafter.imp ?_ id⟩⟩
      · unfold edgeEvents
        rwa [hfinished, List.map_nil, List.append_nil]
      · rintro ⟨m, hm, hbreaks⟩
        exact ⟨m, List.mem_append_left _ hm, hbreaks⟩

/-- A pull fails exactly if the one before it has given a symbol edge and its source has got another
one since. -/
theorem breaks_iff (h : Pulls i w₀ ms w) (hover : ∀ m ∈ ms, OverEdges i m)
    (hm : [m, m'] <:+: ms) : m'.Breaks i ↔ ∃ e, m.Gives i (.edge e) ∧ e.label ≠ .epsilon ∧
      (m.session.graph.state e.source).onSymbol.size <
        (m'.session.graph.state e.source).onSymbol.size := by
  obtain ⟨hwalk, hgrows⟩ := h.walks_eq_of_infix hm
  by_cases hgives : ∃ e, m.Gives i (.edge e)
  · obtain ⟨e, he⟩ := hgives
    rcases hover m (hm.subset (by simp)) with ⟨b, hi⟩ | hi
    · obtain ⟨b', hnext⟩ := (gives_edge_iff hi).1 he
      have hpull := EdgeWalk.pull m.session.graph b
      rw [hnext] at hpull
      rw [walks_pull_of_given hi hnext] at hwalk
      rw [Workspace.breaks_iff hwalk, EdgeWalk.next?_eq_error_iff]
      rcases hpull.phase_of_given with ⟨hlabel, k, hphase⟩ | ⟨hlabel, k, hphase⟩
      · constructor
        · rintro ⟨-, u, k', n, heq, hsize⟩
          cases hphase.symm.trans heq
          exact ⟨e, he, hlabel, Nat.lt_of_le_of_ne (hgrows.size_le _) (Ne.symm hsize)⟩
        · rintro ⟨e', he', -, hlt⟩
          cases he.unique he'
          exact ⟨rfl, _, _, _, hphase, Nat.ne_of_gt hlt⟩
      · refine iff_of_false ?_ ?_
        · rintro ⟨-, u, k', n, heq, -⟩
          cases hphase.symm.trans heq
        · rintro ⟨e', he', hne, -⟩
          cases he.unique he'
          exact hne hlabel
    · exact absurd he (not_gives_of_finished hi _)
  · have hfinished : (m.pull i).2.walks[i]? = some .finished := by
      rcases hover m (hm.subset (by simp)) with ⟨b, hi⟩ | hi
      · exact walks_pull_of_not_given hi fun e he => hgives ⟨e, he⟩
      · exact walks_pull hi
    rw [hfinished] at hwalk
    exact iff_of_false (not_breaks_of_finished hwalk) fun ⟨e, he, _⟩ => hgives ⟨e, he⟩

end Pulls

/-- A walk over the edges of the states below `s` that is pulled among any operations of its
session, whatever ids its states have. A pull gives an edge, finds the end, or fails because the
table that it reads has grown. The edges are edges of their sources at the moments at which they are
given, no occurrence of an edge is given twice, and no two sources have one id. A pull fails exactly
if the one before it has given a symbol edge and another was added to the source since. If the end
is found and no pull has failed, each state that was entered was left, and given were its symbol
edges as they were when it was entered and its epsilon edges as they were when it was left; and each
target has the id of a state that was entered, and was the source of an edge or had no edges
then. -/
theorem pulls_edges {ms : List Workspace} {g : Graph} (ops : List Operation)
    (hi : w.walks[i]? = some (.edgesFrom s)) (hs : s ∈ w.session.graph)
    (hms : w.moments i ops = ms) (hg : (w.afterAll ops).session.graph = g) :
    (∀ m ∈ ms, (∃ e, m.Gives i (.edge e)) ∨ m.Ends i ∨ m.Breaks i) ∧
    (∀ m ∈ ms, ∀ e, m.Gives i (.edge e) →
      (e.label, e.target) ∈ (m.session.graph.state e.source).edges ∧
        ∃ n ∈ ms, .enter e.source ∈ n.edgeEvents i) ∧
    (∀ u, ∃ l l', l <+: (g.state u).onSymbol.entries ∧ l' <+: (g.state u).onEpsilon ∧
      edgesOf u (ms.filterMap (edgeGiven? i)) = l ++ l'.map (.epsilon, ·)) ∧
    (∀ m ∈ ms, ∀ m' ∈ ms, ∀ e e', m.Gives i (.edge e) → m'.Gives i (.edge e') →
      (g.state e.source).id = (g.state e'.source).id → e.source = e'.source) ∧
    (∀ m, ms.head? = some m → ¬ m.Breaks i) ∧
    (∀ m m', [m, m'] <:+: ms → (m'.Breaks i ↔ ∃ e, m.Gives i (.edge e) ∧ e.label ≠ .epsilon ∧
      (m.session.graph.state e.source).onSymbol.size <
        (m'.session.graph.state e.source).onSymbol.size)) ∧
    ((∃ m ∈ ms, m.Ends i) → (∀ m ∈ ms, ¬ m.Breaks i) →
      (∀ m ∈ ms, ∀ u, .enter u ∈ m.edgeEvents i → ∃ m' ∈ ms, .leave u ∈ m'.edgeEvents i ∧
        edgesOf u (ms.filterMap (edgeGiven? i)) = (m.session.graph.state u).onSymbol.entries ++
          (m'.session.graph.state u).onEpsilon.map (.epsilon, ·)) ∧
      ∀ m ∈ ms, ∀ e, m.Gives i (.edge e) → ∃ n ∈ ms, ∃ v, .enter v ∈ n.edgeEvents i ∧
        (g.state v).id = (g.state e.target).id ∧
          ((∃ n' ∈ ms, ∃ e', n'.Gives i (.edge e') ∧ e'.source = v) ∨
            (n.session.graph.state v).edges = [])) := by
  have hpulls := (pulls_moments hi ops).1
  rw [hms] at hpulls
  obtain ⟨hover, b, g₀, hwalked, hgrows, hstands⟩ := hpulls.exists_walked hi hs
  rw [hg] at hgrows
  have hlast := hwalked.grow hgrows
  have hgiven : ∀ {e}, e ∈ given (edgeLog i ms) ↔ ∃ m ∈ ms, m.Gives i (.edge e) :=
    mem_given_edgeLog hover
  have hend : (∃ m ∈ ms, m.Ends i) → (∀ m ∈ ms, ¬ m.Breaks i) → b.StandsAfter g₀ (.ok none) := by
    rintro ⟨m, hm, hends⟩ hunbroken
    rcases hstands with ⟨-, -, hgives⟩ | ⟨-, ⟨n, hn, hbreaks⟩ | hend⟩
    · obtain ⟨e, he⟩ := hgives m hm
      exact absurd hends he.not_ends
    · exact absurd hbreaks (hunbroken n hn)
    · exact hend
  rw [← given_edgeLog hover]
  refine ⟨fun m hm => (hover m hm).gives_or_ends_or_breaks, fun m hm e he => ?_,
    hlast.edgesOf_given, fun m hm m' hm' e e' he he' hid =>
      hlast.source_eq (hgiven.2 ⟨m, hm, he⟩) (hgiven.2 ⟨m', hm', he'⟩) hid,
    fun m hm => ?_, fun m m' hm => hpulls.breaks_iff hover hm,
    fun hends hunbroken => ⟨fun m hm u hu => ?_, fun m hm e he => ?_⟩⟩
  · obtain ⟨-, hedge, p, hp, hsource⟩ := hwalked.edge m.session.graph e
      (mem_edgeLog.2 ⟨m, hm, rfl, (hover m hm).give_mem he⟩)
    obtain ⟨n, hn, -, hentered⟩ := mem_edgeLog.1 (EdgeWalk.mem_entered.1 hp)
    exact ⟨hedge, n, hn, hsource ▸ hentered⟩
  · intro hbreaks
    have hfirst : m.walks[i]? = some (.edgesFrom s) := by
      rw [← hi]
      refine hpulls.walks_eq_of_head? ?_
      rw [List.head?_append, hm]
      rfl
    rw [breaks_iff hfirst, EdgeWalk.next?_eq_error_iff] at hbreaks
    obtain ⟨-, u, k, n, hphase, -⟩ := hbreaks
    cases hphase
  · have hentered : (m.session.graph, u) ∈ entered (edgeLog i ms) :=
      EdgeWalk.mem_entered.2 (mem_edgeLog.2 ⟨m, hm, rfl, hu⟩)
    obtain ⟨q, hq, -, -, hedges⟩ := hwalked.left_of_mem (hend hends hunbroken) hentered
    obtain ⟨m', hm', rfl, hleave⟩ := mem_edgeLog.1 hq
    exact ⟨m', hm', hleave, hedges⟩
  · have hmem := hgiven.2 ⟨m, hm, he⟩
    obtain ⟨p, hp, hid, hwalk⟩ := hwalked.exists_entered_target (hend hends hunbroken) hmem
    obtain ⟨n, hn, hgraph, hentered⟩ := mem_edgeLog.1 (EdgeWalk.mem_entered.1 hp)
    rw [hgraph] at hwalk
    refine ⟨n, hn, p.2, hentered, ?_, hwalk.imp (fun ⟨e', he', hsource⟩ => ?_) id⟩
    · rw [hgrows.id_eq (hwalked.explored.mem hp), hid,
        hgrows.id_eq (Graph.mem_of_mem_targets (hwalked.target_mem hmem))]
    · obtain ⟨n', hn', hgives⟩ := hgiven.1 he'
      exact ⟨n', hn', e', hgives, hsource⟩

/-- The walk has just given the symbol edge of the first state of the fork when that state gets
another. -/
theorem pulls_edges_fork :
    let w : Workspace := { session := { heap := .fork }, walks := [.edgesFrom ⟨0⟩] }
    let ops : List Operation := [.pull 0, .connect ⟨0⟩ (.text "y") ⟨4⟩]
    w.walks[0]? = some (.edgesFrom ⟨0⟩) ∧ ⟨0⟩ ∈ w.session.graph ∧
      w.moments 0 (ops ++ [.pull 0]) = [w, w.afterAll ops] ∧
      w.Gives 0 (.edge ⟨⟨0⟩, .text "x", ⟨1⟩⟩) ∧ (w.afterAll ops).Breaks 0 := by
  intro w ops
  have hi : w.walks[0]? = some (.edgesFrom ⟨0⟩) := rfl
  have hs : ⟨0⟩ ∈ w.session.graph := by decide
  have hms : w.moments 0 (ops ++ [.pull 0]) = [w, w.afterAll ops] := by
    rw [moments_concat, if_pos (show (Operation.pull 0).pulled? = some 0 from rfl),
      moments_pull_cons]
    rfl
  have hgives : w.Gives 0 (.edge ⟨⟨0⟩, .text "x", ⟨1⟩⟩) :=
    (gives_edge_iff hi).2 ⟨_, (EdgeWalk.Pull.enter rfl (.symbol rfl rfl)).next?_eq⟩
  have hgraph : (w.afterAll ops).session.graph =
      (Heap.fork.graph.connect ⟨0⟩ (.text "y") ⟨4⟩).toOption.getD Heap.fork.graph := by
    have hpull : (w.after (.pull 0)).session.graph = Heap.fork.graph := graph_pull w 0
    rw [← hpull]
    exact graph_after_connect (w.after (.pull 0)) ⟨0⟩ (.text "y") ⟨4⟩
  obtain ⟨-, -, -, -, -, hbreaks, -⟩ := pulls_edges (ops ++ [.pull 0]) hi hs hms rfl
  refine ⟨hi, hs, hms, hgives, (hbreaks w _ List.infix_rfl).2 ⟨_, hgives, by decide, ?_⟩⟩
  rw [hgraph]
  decide

end Workspace

end EpsilonNfa
