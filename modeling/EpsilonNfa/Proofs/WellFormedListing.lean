import EpsilonNfa.Proofs.Listing

/-!
# Listings are well formed

The listing of a graph fits together whatever the ids are, also where states share them
(`Graph.listing_wellFormed`): the states are numbered from one without gaps, every transition leads
from one of these numbers to another, and all numbers but the first are led to from smaller ones.
The reason is that numbers are places in a traversal. A traversal has met the ids of all targets
when it ends, so the edges mention no id that has no number (`Graph.id_mem_idsBelow`), and a node
gets into its queue only behind a node that was visited (`Visits.mem_queue_or_exists_next`).
-/

namespace EpsilonNfa

/-! ## Labels that read something -/

namespace Symbol

theorem literal_ne_empty (x : Symbol) : x.literal ≠ "" := by
  intro h
  -- a literal of any kind has a first character
  have htoList : x.literal.toList = [] := by rw [h]; rfl
  cases x with
  | text s => simp [literal, Text.quote] at htoList
  | int n =>
    cases n with
    | ofNat n => exact Nat.repr_ne_empty h
    | negSucc n => simp [literal, Int.toString_eq_repr, Int.repr] at htoList
  | bool b => cases b <;> simp [literal, boolText] at h
  | null => simp [literal] at h
  | tuple xs =>
    rcases xs with _ | ⟨x, _ | ⟨y, xs⟩⟩ <;> simp [literal] at htoList
  | bytes s => simp [literal, Text.quoteBytes] at htoList
  | list xs => simp [literal] at htoList

/-- Only epsilon is written as nothing. -/
theorem label_eq_empty_iff {x : Symbol} : x.label = "" ↔ x = .epsilon := by
  cases x with
  | text s => simp [label, epsilon]
  | _ => exact iff_of_false (literal_ne_empty _) (by simp [epsilon])

end Symbol

/-! ## Lists without repetitions -/

theorem nodup_eraseDups {α : Type} [BEq α] [LawfulBEq α] : ∀ l : List α, l.eraseDups.Nodup
  | [] => by simp
  | x :: l => by
    rw [List.eraseDups_cons, List.nodup_cons]
    exact ⟨by simp [List.mem_eraseDups], nodup_eraseDups _⟩
termination_by l => l.length
decreasing_by exact Nat.lt_succ_of_le (List.length_filter_le _ _)

/-- Sorting a list and leaving repetitions out gives a list that increases at every step. -/
theorem pairwise_lt_mergeSort_eraseDups (l : List String) :
    l.eraseDups.mergeSort.Pairwise (· < ·) := by
  have hle : l.eraseDups.mergeSort.Pairwise fun s t => decide (s ≤ t) = true :=
    List.pairwise_mergeSort
      (fun s t u hst htu => by
        simpa using String.le_trans (of_decide_eq_true hst) (of_decide_eq_true htu))
      (fun s t => by simpa using String.le_total s t) l.eraseDups
  have hne : l.eraseDups.mergeSort.Pairwise (· ≠ ·) :=
    (l.eraseDups.mergeSort_perm _).nodup_iff.2 (nodup_eraseDups l)
  refine (hle.and hne).imp fun {s t} h => String.not_le.1 fun hts => h.2 ?_
  exact String.le_antisymm (of_decide_eq_true h.1) hts

/-! ## Whatever is visited was led to -/

/-- What is visited was in the queue, or comes next after a node that was visited before. -/
theorem Visits.mem_queue_or_exists_next {ν κ : Type} {key : ν → κ} {next : ν → List ν}
    {seen : List κ} {queue before after : List ν} {x : ν}
    (h : Visits key next seen queue (before ++ x :: after)) :
    x ∈ queue ∨ ∃ y ∈ before, x ∈ next y := by
  generalize horder : before ++ x :: after = order at h
  induction h generalizing before with
  | done => simp at horder
  | skip _ _ ih => exact (ih horder).imp_left (List.mem_cons_of_mem _)
  | @visit seen z queue order _ _ ih =>
    cases before with
    | nil =>
      cases horder
      exact Or.inl List.mem_cons_self
    | cons y before =>
      cases horder
      rcases ih rfl with hx | ⟨u, hu, hx⟩
      · rcases List.mem_append.1 hx with hx | hx
        · exact Or.inl (List.mem_cons_of_mem _ hx)
        · exact Or.inr ⟨z, List.mem_cons_self, hx⟩
      · exact Or.inr ⟨u, List.mem_cons_of_mem _ hu, hx⟩

/-! ## Well-formed listings -/

namespace Listing

/-- The parts of a listing of `n` states fit together. Labels are compared by their code points. -/
structure WellFormed (l : Listing) (n : Nat) : Prop where
  states_eq : l.states = List.range' 1 n
  start_eq : l.start = 1
  endpoints : ∀ t ∈ l.transitions, t.source ∈ l.states ∧ t.target ∈ l.states
  sources : l.transitions.Pairwise fun t u => t.source ≤ u.source
  ledTo : ∀ k ∈ l.states, 1 < k → ∃ t ∈ l.transitions, t.source < k ∧ t.target = k
  letters : l.letters.Pairwise fun x y =>
    List.Lex (fun c d => c.toNat < d.toNat) x.toList y.toList
  mem_letters : ∀ x, x ∈ l.letters ↔ x ≠ "" ∧ ∃ t ∈ l.transitions, t.label = x
  finals : l.finals.Pairwise (· < ·)

end Listing

namespace Shape

variable {ν : Type} [DecidableEq ν] {S : Shape ν} {order : List ν} {x y : ν}
variable {t : Listing.Transition}

/-- Numbers are places in the order. -/
theorem numberIn_of_getElem? (hnodup : order.Nodup) {i : Nat} (hi : order[i]? = some x) :
    numberIn order x = i + 1 := by
  obtain ⟨hlt, rfl⟩ := List.getElem?_eq_some_iff.1 hi
  rw [numberIn, hnodup.idxOf_getElem, Nat.add_comm]

theorem mem_map_numberIn (hnodup : order.Nodup) (hx : x ∈ order) :
    numberIn order x ∈ List.range' 1 order.length :=
  Graph.map_numberIn_self hnodup ▸ List.mem_map_of_mem hx

theorem pairwise_numberIn (hnodup : order.Nodup) :
    order.Pairwise fun x y => numberIn order x < numberIn order y := by
  have hlt := List.pairwise_lt_range' (s := 1) (n := order.length)
  rw [← Graph.map_numberIn_self hnodup, List.pairwise_map] at hlt
  exact hlt

theorem mem_transitions : t ∈ (S.listing order).transitions ↔
    ∃ x ∈ order, ∃ e ∈ S.edges x, t = ⟨numberIn order x, e.1.label, numberIn order e.2⟩ := by
  show t ∈ order.flatMap (S.transitionsFrom order) ↔ _
  simp only [List.mem_flatMap, transitionsFrom, List.mem_map, eq_comm]

namespace Order

variable (h : S.Order order)
include h

omit [DecidableEq ν] in
theorem mem_of_mem_edges (hx : x ∈ order) {e : Symbol × ν} (he : e ∈ S.edges x) : e.2 ∈ order :=
  h.mem_iff.2 ((h.mem_iff.1 hx).step (mem_targets_of_mem_edges he))

/-- Transitions come in the order of the states that they leave. -/
theorem pairwise_source :
    (S.listing order).transitions.Pairwise fun t u => t.source ≤ u.source := by
  show (order.flatMap (S.transitionsFrom order)).Pairwise _
  have hsource : ∀ {x t}, t ∈ S.transitionsFrom order x → t.source = numberIn order x := by
    intro x t ht
    obtain ⟨e, -, rfl⟩ := List.mem_map.1 ht
    rfl
  rw [List.pairwise_flatMap]
  refine ⟨fun x _ => List.pairwise_iff_forall_sublist.2 fun hsub => ?_,
    (pairwise_numberIn h.nodup).imp fun hlt t ht u hu => ?_⟩
  · rw [hsource (hsub.subset List.mem_cons_self),
      hsource (hsub.subset (List.mem_cons_of_mem _ List.mem_cons_self))]
  · rw [hsource ht, hsource hu]
    exact Nat.le_of_lt hlt

/-- A node that is not the start has an edge to it from one before it. -/
theorem exists_transition (hx : x ∈ order) (hne : x ≠ S.start) :
    ∃ t ∈ (S.listing order).transitions,
      t.source < numberIn order x ∧ t.target = numberIn order x := by
  obtain ⟨before, after, hsplit⟩ := List.append_of_mem hx
  have hvisits : Visits id S.targets [] [S.start] (before ++ x :: after) := hsplit ▸ h
  obtain ⟨y, hy, hedge⟩ := hvisits.mem_queue_or_exists_next.resolve_left fun hmem =>
    hne (List.mem_singleton.1 hmem)
  obtain ⟨e, he, rfl⟩ := List.mem_map.1 hedge
  have hlt := pairwise_numberIn h.nodup
  rw [hsplit, List.pairwise_append, ← hsplit] at hlt
  exact ⟨_, mem_transitions.2 ⟨y, hsplit ▸ List.mem_append_left _ hy, e, he, rfl⟩,
    hlt.2.2 y hy e.2 List.mem_cons_self, rfl⟩

/-- A listing in breadth-first order is well formed. -/
theorem wellFormed_listing : (S.listing order).WellFormed order.length where
  states_eq := rfl
  start_eq := by
    show numberIn order S.start = 1
    rw [numberIn, h.idxOf_start]
  endpoints t ht := by
    obtain ⟨x, hx, e, he, rfl⟩ := mem_transitions.1 ht
    exact ⟨mem_map_numberIn h.nodup hx, mem_map_numberIn h.nodup (h.mem_of_mem_edges hx he)⟩
  sources := h.pairwise_source
  ledTo k hk hlt := by
    have hk' : k ∈ order.map (numberIn order) := Graph.map_numberIn_self h.nodup ▸ hk
    obtain ⟨x, hx, rfl⟩ := List.mem_map.1 hk'
    refine h.exists_transition hx fun heq => ?_
    rw [heq, numberIn, h.idxOf_start] at hlt
    exact absurd hlt (by decide)
  letters := pairwise_lt_mergeSort_eraseDups _
  mem_letters x := by
    show x ∈ List.mergeSort _ ↔ _
    simp only [List.mem_mergeSort, List.mem_eraseDups, List.mem_filter, List.mem_map,
      decide_eq_true_eq, and_comm]
    rfl
  finals := by
    show ((order.filter S.isFinal).map (numberIn order)).Pairwise _
    rw [List.pairwise_map]
    exact (pairwise_numberIn h.nodup).sublist List.filter_sublist

end Order

end Shape

namespace Graph

variable {g : Graph} {s r : Ref} {k : Nat}

/-- The place at which a traversal from `s` meets the id of a state, counted from one. -/
def placeBelow (g : Graph) (s r : Ref) : Nat :=
  Shape.numberIn (g.idsBelow s) (g.state r).id

theorem length_idsBelow (g : Graph) (s : Ref) :
    (g.idsBelow s).length = (g.breadthFirst s).length :=
  List.length_map _

theorem placeBelow_of_getElem? {i : Nat} (hi : (g.breadthFirst s)[i]? = some r) :
    g.placeBelow s r = i + 1 := by
  refine Shape.numberIn_of_getElem? (g.nodup_idsBelow s) ?_
  rw [idsBelow, List.getElem?_map, hi]
  rfl

/-- The transitions of a listing are the edges, those that read first state by state. -/
theorem transitions_listing (g : Graph) (s : Ref) :
    (g.listing s).transitions = (g.breadthFirst s).flatMap fun r =>
      ((g.state r).onSymbol.entries.map fun e =>
          ⟨g.placeBelow s r, e.1.label, g.placeBelow s e.2⟩) ++
        (g.state r).onEpsilon.map fun t => ⟨g.placeBelow s r, "", g.placeBelow s t⟩ := by
  have hlisting : (g.listing s).transitions =
      (g.idsBelow s).flatMap ((g.shape s).transitionsFrom (g.idsBelow s)) := by
    rw [listing_eq]
    rfl
  rw [hlisting]
  conv_lhs => rw [idsBelow, List.flatMap_map]
  refine List.flatMap_congr fun r hr => ?_
  rw [Shape.transitionsFrom, edges_shape hr, State.edges, List.map_map, List.map_append,
    List.map_map]
  rfl

theorem mem_finals_listing : k ∈ (g.listing s).finals ↔
    ∃ i r, (g.breadthFirst s)[i]? = some r ∧ (g.state r).isFinal = true ∧ i + 1 = k := by
  have hfinals : (g.listing s).finals =
      ((g.idsBelow s).filter (g.shape s).isFinal).map (Shape.numberIn (g.idsBelow s)) := by
    rw [listing_eq]
    rfl
  rw [hfinals, List.mem_map]
  constructor
  · rintro ⟨id, hid, rfl⟩
    rw [List.mem_filter] at hid
    obtain ⟨r, hr, rfl⟩ := mem_idsBelow.1 hid.1
    obtain ⟨i, hi⟩ := List.mem_iff_getElem?.1 hr
    exact ⟨i, r, hi, isFinal_shape hr ▸ hid.2, (placeBelow_of_getElem? hi).symm⟩
  · rintro ⟨i, r, hi, hfinal, rfl⟩
    have hr : r ∈ g.breadthFirst s := List.mem_of_getElem? hi
    exact ⟨(g.state r).id,
      List.mem_filter.2 ⟨mem_idsBelow.2 ⟨r, hr, rfl⟩, by rwa [isFinal_shape hr]⟩,
      placeBelow_of_getElem? hi⟩

theorem wellFormed_listing (g : Graph) (s : Ref) :
    (g.listing s).WellFormed (g.breadthFirst s).length := by
  rw [listing_eq, ← length_idsBelow]
  exact (g.order_shape s).wellFormed_listing

/-- The document of a listing, field by field. -/
theorem document_listing (g : Graph) (s : Ref) :
    (g.listing s).document = .record [
      ("states", .list ((List.range' 1 (g.breadthFirst s).length).map fun k =>
        .text (toString k))),
      ("letters", .list ((g.listing s).letters.map .text)),
      ("transition_function", .list ((g.listing s).transitions.map fun t =>
        .list [.text (toString t.source), .text t.label, .text (toString t.target)])),
      ("start_states", .list [.text "1"]),
      ("final_states", .list ((g.listing s).finals.map fun k => .text (toString k)))] := by
  have hwell := g.wellFormed_listing s
  rw [Listing.document, hwell.states_eq, hwell.start_eq]
  rfl

/-- The listing below any state of any graph is well formed. Its transitions are the edges in their
order, by the places of the ids of their ends in the traversal; the label is empty on those that
read nothing and on no others. Its final states are the places of the final states of the
traversal. -/
theorem listing_wellFormed (g : Graph) (s : Ref) :
    (g.listing s).WellFormed (g.breadthFirst s).length ∧
      (∀ i r, (g.breadthFirst s)[i]? = some r → g.placeBelow s r = i + 1) ∧
      (g.listing s).transitions = ((g.breadthFirst s).flatMap fun r =>
        ((g.state r).onSymbol.entries.map fun e =>
            ⟨g.placeBelow s r, e.1.label, g.placeBelow s e.2⟩) ++
          (g.state r).onEpsilon.map fun t => ⟨g.placeBelow s r, "", g.placeBelow s t⟩) ∧
      (∀ r, ∀ e ∈ (g.state r).onSymbol.entries, e.1.label ≠ "") ∧
      (∀ k, k ∈ (g.listing s).finals ↔
        ∃ i r, (g.breadthFirst s)[i]? = some r ∧ (g.state r).isFinal = true ∧ i + 1 = k) ∧
      (g.listing s).document = .record [
        ("states", .list ((List.range' 1 (g.breadthFirst s).length).map fun k =>
          .text (toString k))),
        ("letters", .list ((g.listing s).letters.map .text)),
        ("transition_function", .list ((g.listing s).transitions.map fun t =>
          .list [.text (toString t.source), .text t.label, .text (toString t.target)])),
        ("start_states", .list [.text "1"]),
        ("final_states", .list ((g.listing s).finals.map fun k => .text (toString k)))] := by
  have hletter : ∀ r, ∀ e ∈ (g.state r).onSymbol.entries, e.1.label ≠ "" := fun r e he hempty =>
    ((g.state r).onSymbol.letters e he).2 (Symbol.label_eq_empty_iff.1 hempty)
  exact ⟨g.wellFormed_listing s, fun i r => placeBelow_of_getElem?, g.transitions_listing s,
    hletter, fun k => mem_finals_listing, g.document_listing s⟩

end Graph

end EpsilonNfa
