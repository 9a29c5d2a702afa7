import EpsilonNfa.Proofs.Edits
import Mathlib.Data.List.Induction

/-!
# Pulls of one walk

A walk is suspended while the session goes on, so it sees the session only at the moments at which
it is pulled (`Workspace.moments`). From one moment to the next the walk is left as its pull has
left it, and the graph grows: no state goes, ids stay, and edges come at the ends of their lists
(`Graph.Grows`). What is proved along `Workspace.Pulls` holds for all interleavings of the pulls
with other operations, connections of any states among them.
-/

namespace EpsilonNfa

variable {g g' g'' : Graph} {r s t q : Ref} {x : Symbol} {i : Nat}

/-! ## Growing -/

/-- The state is the same up to finality and to edges that came later. -/
structure State.Grows (s s' : State) : Prop where
  id_eq : s'.id = s.id
  onSymbol : s.onSymbol.entries <+: s'.onSymbol.entries
  onEpsilon : s.onEpsilon <+: s'.onEpsilon

/-- The states of the first graph are in the second and have grown there. -/
structure Graph.Grows (g g' : Graph) : Prop where
  mem : ∀ {r}, r ∈ g → r ∈ g'
  state : ∀ {r}, r ∈ g → (g.state r).Grows (g'.state r)

namespace State.Grows

variable {s s' s'' : State} {e : Symbol × Ref}

theorem refl (s : State) : s.Grows s :=
  ⟨rfl, List.prefix_rfl, List.prefix_rfl⟩

theorem trans (h : s.Grows s') (h' : s'.Grows s'') : s.Grows s'' :=
  ⟨h'.id_eq.trans h.id_eq, h.onSymbol.trans h'.onSymbol, h.onEpsilon.trans h'.onEpsilon⟩

theorem of_connect (hconnect : s.connect x t = .ok s') : s.Grows s' := by
  have hid := State.id_of_connect hconnect
  unfold State.connect at hconnect
  split at hconnect
  · cases hconnect
    exact ⟨hid, List.prefix_rfl, List.prefix_append _ _⟩
  · split at hconnect
    · split at hconnect
      · cases hconnect
      · cases hconnect
        exact ⟨hid, List.prefix_append _ _, List.prefix_rfl⟩
    · cases hconnect

theorem mem_edges (h : s.Grows s') (he : e ∈ s.edges) : e ∈ s'.edges := by
  unfold State.edges at *
  rcases List.mem_append.1 he with he | he
  · exact List.mem_append_left _ (h.onSymbol.subset he)
  · exact List.mem_append_right _ ((h.onEpsilon.map _).subset he)

theorem mem_targets (h : s.Grows s') (ht : t ∈ s.targets) : t ∈ s'.targets := by
  rw [← State.map_snd_edges, List.mem_map] at ht ⊢
  obtain ⟨e, he, rfl⟩ := ht
  exact ⟨e, h.mem_edges he, rfl⟩

end State.Grows

namespace Graph.Grows

theorem refl (g : Graph) : g.Grows g :=
  ⟨id, fun _ => .refl _⟩

theorem trans (h : g.Grows g') (h' : g'.Grows g'') : g.Grows g'' :=
  ⟨fun hr => h'.mem (h.mem hr), fun hr => (h.state hr).trans (h'.state (h.mem hr))⟩

theorem of_state_eq (hmem : ∀ {r}, r ∈ g → r ∈ g')
    (hstate : ∀ {r}, r ∈ g → g'.state r = g.state r) : g.Grows g' :=
  ⟨hmem, fun hr => hstate hr ▸ .refl _⟩

theorem of_connect (hconnect : g.connect s x t = .ok g') : g.Grows g' := by
  refine ⟨fun hr => ?_, fun {r} hr => ?_⟩
  · rwa [mem_iff, size_of_connect hconnect]
  · obtain ⟨new, inside, -, hnew, rfl⟩ := connect_eq_ok_iff.1 hconnect
    rw [state_replace]
    split
    · next heq =>
      rw [heq.1]
      exact .of_connect hnew
    · exact .refl _

theorem setFinal (g : Graph) (q : Ref) (isFinal : Bool) : g.Grows (g.setFinal q isFinal) := by
  refine ⟨fun hr => ?_, fun {r} hr => ?_⟩
  · rwa [mem_iff, size_setFinal]
  · by_cases heq : r = q
    · subst heq
      rw [state_setFinal_self hr]
      exact ⟨rfl, List.prefix_rfl, List.prefix_rfl⟩
    · rw [state_setFinal_of_ne heq]
      exact .refl _

theorem id_eq (h : g.Grows g') (hr : r ∈ g) : (g'.state r).id = (g.state r).id :=
  (h.state hr).id_eq

/-- A target stays one. What names no state has none. -/
theorem mem_targets (h : g.Grows g') (ht : t ∈ (g.state r).targets) : t ∈ (g'.state r).targets := by
  by_cases hr : r ∈ g
  · exact (h.state hr).mem_targets ht
  · rw [state_eq_default hr] at ht
    exact absurd ht (by simp [default])

theorem reaches (h : g.Grows g') (hr : g.Reaches s r) : g'.Reaches s r := by
  induction hr with
  | refl => exact .refl
  | step _ edge ih => exact ih.step (h.mem_targets edge)

end Graph.Grows

/-- Two members that follow each other in a longer list do so before its end, or are the last
two. -/
theorem infix_pair_concat {α : Type} {l : List α} {a b c : α} :
    [a, b] <:+: l ++ [c] ↔ [a, b] <:+: l ∨ l.getLast? = some a ∧ b = c := by
  rw [List.infix_concat_iff, or_comm, List.getLast?_eq_some_iff]
  refine or_congr_right ⟨?_, ?_⟩
  · rintro ⟨front, hfront⟩
    have hsplit : front ++ [a] ++ [b] = l ++ [c] := by rw [← hfront, List.append_assoc]; rfl
    obtain ⟨hl, hc⟩ := List.append_inj' hsplit rfl
    exact ⟨⟨front, hl.symm⟩, List.singleton_inj.1 hc⟩
  · rintro ⟨⟨front, rfl⟩, rfl⟩
    exact ⟨front, by simp⟩

/-! ## Operations on the walks -/

/-- A walk reads the graph and leaves it alone. -/
theorem Walk.graph_next? (walk : Walk) (s : Session) : (walk.next? s).2.2.graph = s.graph := by
  cases walk with
  | states w =>
    rw [next?]
    split <;> rfl
  | edges w =>
    rw [next?]
    split <;> rfl
  | finished => rfl
  | verdicts q w =>
    rw [next?]
    split <;> rfl

/-- The walk that an operation pulls. -/
def Operation.pulled? : Operation → Option Nat
  | .pull i => some i
  | _ => none

theorem Operation.eq_pull {op : Operation} (hop : op.pulled? = some i) : op = .pull i := by
  cases op with
  | pull j => exact congrArg Operation.pull (Option.some.inj hop)
  | _ => cases hop

namespace Workspace

variable {w w' w₀ : Workspace} {walk : Walk} {op : Operation} {ms : List Workspace}

/-- A connection that fails changes nothing. -/
theorem graph_after_connect (w : Workspace) (s : Ref) (x : Symbol) (t : Ref) :
    (w.after (.connect s x t)).session.graph =
      (w.session.graph.connect s x t).toOption.getD w.session.graph := by
  show ((SessionM.onHeap (HeapM.connect s x t)).run.run w.session).2.graph =
    (w.session.heap.graph.connect s x t).toOption.getD w.session.heap.graph
  rw [SessionM.run_onHeap, HeapM.run_connect]
  cases w.session.heap.graph.connect s x t <;> rfl

/-- Whatever is done in a session, its graph only grows. -/
theorem grows_after (w : Workspace) (op : Operation) :
    w.session.graph.Grows (w.after op).session.graph := by
  have hspared : op.touched? = none → w.session.graph.Grows (w.after op).session.graph := by
    intro hop
    have hs : w.session.Spares (fun _ => True) (w.after op).session :=
      spares_after fun r hr => by simp [hop] at hr
    exact .of_state_eq hs.mem fun hr => hs.state_eq hr trivial
  cases op with
  | connect s x t =>
    rw [graph_after_connect]
    cases hconnect : w.session.graph.connect s x t with
    | error e => exact .refl _
    | ok g => exact .of_connect hconnect
  | setFinal r isFinal => exact .setFinal w.session.graph r isFinal
  | _ => exact hspared rfl

theorem grows_afterAll (w : Workspace) (ops : List Operation) :
    w.session.graph.Grows (w.afterAll ops).session.graph := by
  induction ops generalizing w with
  | nil => exact .refl _
  | cons op ops ih => exact (w.grows_after op).trans (ih (w.after op))

/-- Only its own pull moves a walk. -/
theorem walks_after (hi : w.walks[i]? = some walk) (hop : op.pulled? ≠ some i) :
    (w.after op).walks[i]? = some walk := by
  cases op with
  | verdicts r word =>
    obtain ⟨hlt, -⟩ := List.getElem?_eq_some_iff.1 hi
    show (w.walks ++ [_])[i]? = some walk
    rw [List.getElem?_append_left hlt, hi]
  | pull j =>
    have hne : j ≠ i := fun heq => hop (congrArg some heq)
    show (w.pull j).2.walks[i]? = some walk
    unfold pull
    split
    · exact hi
    · show (w.walks.set j _)[i]? = some walk
      rw [List.getElem?_set_ne hne, hi]
  | _ => exact hi

/-- A pull puts the walk that is left in the place of the one that was there. -/
theorem walks_pull (hi : w.walks[i]? = some walk) :
    (w.pull i).2.walks[i]? = some (walk.next? w.session).2.1 := by
  obtain ⟨hlt, -⟩ := List.getElem?_eq_some_iff.1 hi
  simp only [pull, hi, List.getElem?_set_self hlt]

theorem graph_pull (w : Workspace) (i : Nat) : (w.pull i).2.session.graph = w.session.graph := by
  unfold pull
  split
  · rfl
  · exact Walk.graph_next? _ _

theorem pull_fst (hi : w.walks[i]? = some walk) :
    (w.pull i).1 = (walk.next? w.session).1.map .item := by
  simp only [pull, hi]

/-! ## Moments -/

/-- What operations leave behind, each time before one that pulls the walk. -/
def moments (i : Nat) (w : Workspace) : List Operation → List Workspace
  | [] => []
  | op :: ops => (if op.pulled? = some i then [w] else []) ++ (w.after op).moments i ops

theorem moments_concat (w : Workspace) (ops : List Operation) (op : Operation) :
    w.moments i (ops ++ [op]) =
      w.moments i ops ++ if op.pulled? = some i then [w.afterAll ops] else [] := by
  induction ops generalizing w with
  | nil => simp [moments]
  | cons first ops ih =>
    rw [List.cons_append, moments, ih, moments, List.append_assoc]
    rfl

/-- A first pull is at the first moment. -/
theorem moments_pull_cons (w : Workspace) (ops : List Operation) :
    w.moments i (.pull i :: ops) = w :: (w.after (.pull i)).moments i ops := by
  rw [moments, if_pos (show (Operation.pull i).pulled? = some i from rfl)]
  rfl

theorem afterAll_mem_moments (w : Workspace) (ops : List Operation) :
    w.afterAll ops ∈ w.moments i (ops ++ [.pull i]) := by
  rw [moments_concat, if_pos (show (Operation.pull i).pulled? = some i from rfl)]
  exact List.mem_append_right _ (List.mem_singleton.2 rfl)

/-- From `w₀` to the last workspace the walk is pulled at the moments of the list, and in between
nothing but growth can happen to what it sees. -/
inductive Pulls (i : Nat) (w₀ : Workspace) : List Workspace → Workspace → Prop
  | init : Pulls i w₀ [] w₀
  | other {ms : List Workspace} {w w' : Workspace} (h : Pulls i w₀ ms w)
      (hwalk : w'.walks[i]? = w.walks[i]?) (hgrows : w.session.graph.Grows w'.session.graph) :
      Pulls i w₀ ms w'
  | pull {ms : List Workspace} {w : Workspace} (h : Pulls i w₀ ms w) :
      Pulls i w₀ (ms ++ [w]) (w.pull i).2

/-- Any operations, in any order, pull a walk that is there at its moments. -/
theorem pulls_moments (hi : w.walks[i]? = some walk) (ops : List Operation) :
    Pulls i w (w.moments i ops) (w.afterAll ops) ∧
      ∃ walk', (w.afterAll ops).walks[i]? = some walk' := by
  induction ops using List.reverseRecOn with
  | nil => exact ⟨.init, walk, hi⟩
  | append_singleton ops op ih =>
    obtain ⟨hpulls, walk', hi'⟩ := ih
    rw [moments_concat, afterAll_concat]
    by_cases hop : op.pulled? = some i
    · rw [if_pos hop, Operation.eq_pull hop]
      exact ⟨.pull hpulls, _, walks_pull hi'⟩
    · have hwalk := walks_after hi' hop
      rw [if_neg hop, List.append_nil]
      exact ⟨.other hpulls (hwalk.trans hi'.symm) (grows_after _ op), walk', hwalk⟩

namespace Pulls

theorem grows_of_mem (h : Pulls i w₀ ms w) {m : Workspace} (hm : m ∈ ms) :
    m.session.graph.Grows w.session.graph := by
  induction h with
  | init => cases hm
  | other _ _ hgrows ih => exact (ih hm).trans hgrows
  | @pull _ w _ ih =>
    rw [graph_pull]
    rcases List.mem_append.1 hm with hm | hm
    · exact ih hm
    · rw [List.mem_singleton.1 hm]
      exact .refl _

/-- Before the first moment the walk is as it was. -/
theorem walks_eq_of_head? (h : Pulls i w₀ ms w) {m : Workspace}
    (hm : (ms ++ [w]).head? = some m) : m.walks[i]? = w₀.walks[i]? := by
  induction h generalizing m with
  | init =>
    cases hm
    rfl
  | @other ms _ _ _ hwalk _ ih =>
    cases ms with
    | nil =>
      cases hm
      exact hwalk.trans (ih rfl)
    | cons first ms => exact ih hm
  | @pull ms w _ ih =>
    rw [List.head?_append_of_ne_nil _ (by simp)] at hm
    exact ih hm

/-- After the last moment the walk is as its pull has left it. -/
theorem walks_eq_of_getLast? (h : Pulls i w₀ ms w) {m : Workspace} (hm : ms.getLast? = some m) :
    w.walks[i]? = (m.pull i).2.walks[i]? := by
  induction h with
  | init => cases hm
  | other _ hwalk _ ih => exact hwalk.trans (ih hm)
  | pull _ _ =>
    rw [List.getLast?_concat] at hm
    cases hm
    rfl

/-- Of two moments that follow each other the second finds what the first has left. -/
theorem walks_eq_of_infix (h : Pulls i w₀ ms w) {m m' : Workspace} (hm : [m, m'] <:+: ms) :
    m'.walks[i]? = (m.pull i).2.walks[i]? ∧ m.session.graph.Grows m'.session.graph := by
  induction h with
  | init => simp at hm
  | other _ _ _ ih => exact ih hm
  | @pull ms w h ih =>
    rcases infix_pair_concat.1 hm with hm | ⟨hlast, rfl⟩
    · exact ih hm
    · exact ⟨h.walks_eq_of_getLast? hlast, h.grows_of_mem (List.mem_of_getLast? hlast)⟩

end Pulls

end Workspace

end EpsilonNfa
