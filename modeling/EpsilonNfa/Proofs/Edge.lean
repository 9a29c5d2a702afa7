import EpsilonNfa.Graph.Basic
import Mathlib.Data.List.Forall2

/-!
# States with one edge more

The symbol edges and the epsilon edges of a state stand in one list, `State.edges`, and each kind
can be read back from it. Connecting a state appends to that list as long as letters come before
epsilon, which is the order in which a copy makes them.
-/

namespace EpsilonNfa

namespace State

variable {s s' : State} {x : Symbol} {t : Ref} {e : Symbol × Ref}

theorem mem_entries : e ∈ s.onSymbol.entries ↔ e ∈ s.edges ∧ e.1 ≠ .epsilon := by
  unfold edges
  rw [List.mem_append]
  constructor
  · exact fun he => ⟨Or.inl he, (s.onSymbol.letters e he).2⟩
  · rintro ⟨he | he, hne⟩
    · exact he
    · obtain ⟨t, -, rfl⟩ := List.mem_map.1 he
      exact absurd rfl hne

theorem mem_onEpsilon : t ∈ s.onEpsilon ↔ (.epsilon, t) ∈ s.edges := by
  unfold edges
  rw [List.mem_append]
  constructor
  · exact fun ht => Or.inr (List.mem_map.2 ⟨t, ht, rfl⟩)
  · rintro (he | he)
    · exact absurd rfl (s.onSymbol.letters _ he).2
    · obtain ⟨t', ht', heq⟩ := List.mem_map.1 he
      cases heq
      exact ht'

theorem entries_eq_filter (s : State) :
    s.onSymbol.entries = s.edges.filter fun e => e.1 ≠ .epsilon := by
  have hsymbol : s.onSymbol.entries.filter (fun e => decide (e.1 ≠ .epsilon)) =
      s.onSymbol.entries :=
    List.filter_eq_self.2 fun e he => by simpa using (s.onSymbol.letters e he).2
  unfold edges
  rw [List.filter_append, hsymbol, List.filter_map]
  simp [Function.comp_def]

theorem map_epsilon_onEpsilon (s : State) :
    s.onEpsilon.map (Symbol.epsilon, ·) = s.edges.filter fun e => e.1 = .epsilon := by
  have hsymbol : s.onSymbol.entries.filter (fun e => decide (e.1 = .epsilon)) = [] :=
    List.filter_eq_nil_iff.2 fun e he => by simpa using (s.onSymbol.letters e he).2
  unfold edges
  rw [List.filter_append, hsymbol, List.filter_map]
  simp [Function.comp_def]

theorem isHashable_of_mem_edges (he : e ∈ s.edges) : e.1.isHashable = true := by
  by_cases hx : e.1 = .epsilon
  · rw [hx]
    rfl
  · exact (s.onSymbol.letters e (mem_entries.2 ⟨he, hx⟩)).1

/-- A letter comes after no epsilon edge and after no edge on the same letter. -/
theorem pairwise_edges (s : State) :
    s.edges.Pairwise fun d e => e.1 ≠ .epsilon → d.1 ≠ .epsilon ∧ ¬ d.1.Same e.1 := by
  unfold edges
  refine List.pairwise_append.2 ⟨?_, ?_, ?_⟩
  · exact s.onSymbol.distinct.imp_of_mem fun hd _ hsame _ => ⟨(s.onSymbol.letters _ hd).2, hsame⟩
  · refine List.pairwise_map.2 (List.pairwise_of_forall fun _ _ hne => absurd rfl hne)
  · intro d _ e he hne
    obtain ⟨t, -, rfl⟩ := List.mem_map.1 he
    exact absurd rfl hne

/-- An edge on a new letter, or on epsilon, joins the others at their end. -/
theorem exists_connect (hx : x.isHashable = true)
    (hnew : x ≠ .epsilon → ∀ e ∈ s.edges, e.1 ≠ .epsilon ∧ ¬ e.1.Same x) (t : Ref) :
    ∃ s', s.connect x t = .ok s' ∧ s'.id = s.id ∧ s'.isFinal = s.isFinal ∧
      s'.edges = s.edges ++ [(x, t)] := by
  unfold connect
  by_cases hletter : x = .epsilon
  · rw [dif_pos hletter]
    refine ⟨_, rfl, rfl, rfl, ?_⟩
    simp [edges, hletter]
  · have hnone : s.onEpsilon = [] := by
      apply List.eq_nil_iff_forall_not_mem.2
      intro q hq
      exact (hnew hletter _ (mem_onEpsilon.1 hq)).1 rfl
    have hfresh : x ∉ s.onSymbol := by
      rintro ⟨e, he, hsame⟩
      exact (hnew hletter e (mem_entries.1 he).1).2 hsame
    rw [dif_neg hletter, dif_pos hx, dif_neg hfresh]
    refine ⟨_, rfl, rfl, rfl, ?_⟩
    simp [edges, TransitionTable.push, hnone]

theorem id_of_connect (hconnect : s.connect x t = .ok s') : s'.id = s.id := by
  unfold connect at hconnect
  split at hconnect
  · cases hconnect
    rfl
  · split at hconnect
    · split at hconnect
      · cases hconnect
      · cases hconnect
        rfl
    · cases hconnect

end State

namespace Graph

variable {g g' : Graph} {s t : Ref} {x : Symbol}

/-- The graph is one with the state `new` at its end. -/
structure AddsState (g : Graph) (new : State) (g' : Graph) : Prop where
  size_eq : g'.size = g.size + 1
  state_eq : ∀ {q}, q ∈ g → g'.state q = g.state q
  state_new : g'.state ⟨g.size⟩ = new

theorem AddsState.mem {new : State} (h : g.AddsState new g') {q : Ref} (hq : q ∈ g) : q ∈ g' := by
  rw [mem_iff] at hq ⊢
  rw [h.size_eq]
  omega

theorem AddsState.mem_new {new : State} (h : g.AddsState new g') : (⟨g.size⟩ : Ref) ∈ g' := by
  rw [mem_iff, h.size_eq]
  exact Nat.lt_succ_self _

theorem addsState (g : Graph) (id : Int) (isFinal : Bool) :
    g.AddsState (.isolated id isFinal) (g.addState id isFinal).2 where
  size_eq := g.size_addState id isFinal
  state_eq hq := by rw [state_addState, if_neg (Nat.ne_of_lt hq)]
  state_new := by rw [state_addState, if_pos rfl]

/-- The graph is one with an edge more at the end of those of `s`. -/
structure AddsEdge (g : Graph) (s : Ref) (x : Symbol) (t : Ref) (g' : Graph) : Prop where
  size_eq : g'.size = g.size
  state_eq : ∀ {q}, q ≠ s → g'.state q = g.state q
  id_eq : (g'.state s).id = (g.state s).id
  isFinal_eq : (g'.state s).isFinal = (g.state s).isFinal
  edges_eq : (g'.state s).edges = (g.state s).edges ++ [(x, t)]

theorem AddsEdge.id_eq' (h : g.AddsEdge s x t g') (q : Ref) : (g'.state q).id = (g.state q).id := by
  by_cases hq : q = s
  · rw [hq, h.id_eq]
  · rw [h.state_eq hq]

theorem AddsEdge.isFinal_eq' (h : g.AddsEdge s x t g') (q : Ref) :
    (g'.state q).isFinal = (g.state q).isFinal := by
  by_cases hq : q = s
  · rw [hq, h.isFinal_eq]
  · rw [h.state_eq hq]

theorem AddsEdge.mem_iff (h : g.AddsEdge s x t g') {q : Ref} : q ∈ g' ↔ q ∈ g := by
  rw [Graph.mem_iff, Graph.mem_iff, h.size_eq]

theorem exists_connect (hs : s ∈ g) (ht : t ∈ g) (hx : x.isHashable = true)
    (hnew : x ≠ .epsilon → ∀ e ∈ (g.state s).edges, e.1 ≠ .epsilon ∧ ¬ e.1.Same x) :
    ∃ g', g.connect s x t = .ok g' ∧ g.AddsEdge s x t g' := by
  obtain ⟨new, hconnect, hid, hfinal, hedges⟩ := State.exists_connect hx hnew t
  have hinside : ∀ r ∈ new.targets, r ∈ g := by
    intro r hr
    rcases (State.mem_targets_of_connect hconnect).1 hr with hr | rfl
    · exact mem_of_mem_targets hr
    · exact ht
  have hself : (g.replace s new hinside).state s = new := by
    rw [state_replace, if_pos ⟨rfl, hs⟩]
  refine ⟨g.replace s new hinside, connect_eq_ok_iff.2 ⟨new, hinside, ht, hconnect, rfl⟩, ?_⟩
  refine ⟨size_replace .., fun hq => ?_, ?_, ?_, ?_⟩
  · rw [state_replace, if_neg fun h => hq h.1]
  · rw [hself, hid]
  · rw [hself, hfinal]
  · rw [hself, hedges]

theorem size_of_connect (hconnect : g.connect s x t = .ok g') : g'.size = g.size := by
  obtain ⟨new, inside, -, -, rfl⟩ := connect_eq_ok_iff.1 hconnect
  exact size_replace ..

theorem id_of_connect (hconnect : g.connect s x t = .ok g') (q : Ref) :
    (g'.state q).id = (g.state q).id := by
  obtain ⟨new, inside, -, hnew, rfl⟩ := connect_eq_ok_iff.1 hconnect
  rw [state_replace]
  split
  · next heq =>
    rw [heq.1]
    exact State.id_of_connect hnew
  · rfl

theorem mem_targets_of_connect (hs : s ∈ g) (hconnect : g.connect s x t = .ok g') :
    t ∈ (g'.state s).targets := by
  obtain ⟨new, inside, -, hnew, rfl⟩ := connect_eq_ok_iff.1 hconnect
  rw [state_replace, if_pos ⟨rfl, hs⟩]
  exact (State.mem_targets_of_connect hnew).2 (Or.inr rfl)

theorem state_of_connect_of_ne (hconnect : g.connect s x t = .ok g') {q : Ref} (hq : q ≠ s) :
    g'.state q = g.state q := by
  obtain ⟨new, inside, -, -, rfl⟩ := connect_eq_ok_iff.1 hconnect
  rw [state_replace, if_neg fun h => hq h.1]

/-- An edge more is the one target more that there may be. -/
theorem mem_or_eq_of_mem_targets_connect (hconnect : g.connect s x t = .ok g') {q r : Ref}
    (hr : r ∈ (g'.state q).targets) : r ∈ (g.state q).targets ∨ r = t := by
  obtain ⟨new, inside, -, hnew, rfl⟩ := connect_eq_ok_iff.1 hconnect
  rw [state_replace] at hr
  split at hr
  · next heq =>
    rw [heq.1]
    exact (State.mem_targets_of_connect hnew).1 hr
  · exact Or.inl hr

end Graph

end EpsilonNfa
