import EpsilonNfa.Graph.Search
import EpsilonNfa.Proofs.CopyQueue
import EpsilonNfa.Proofs.SharedImages
import EpsilonNfa.Proofs.Worklist
import Mathlib.Data.Finset.Card

/-!
# Turns of the worklist loops

Traversal, search, copy and closure work off a list of states. Here each of them is a worklist loop
that takes one state off its list in each turn, and the number of turns is bounded. For loops that
mark a state when they take it off their list the bound counts edges of unmarked states, and for
loops that mark it when they put it there it counts unmarked ids. Neither depends on what cycles
there are, or on which states share an id (`worklists_end`).
-/

namespace EpsilonNfa

/-! ## What is left to do -/

namespace Graph

variable {g : Graph} {l U : List Ref} {s r t : Ref} {marked new : List Int}

open Classical in
/-- The states below those of a list, each of them once. -/
noncomputable def region (g : Graph) (l : List Ref) : List Ref :=
  (g.refs ++ l).dedup.filter (g.BelowAny l ·)

theorem mem_region : t ∈ g.region l ↔ g.BelowAny l t := by
  have hmem : g.BelowAny l t → t ∈ g.refs ++ l := by
    intro h
    obtain ⟨s, hs, hst⟩ := h
    cases hst with
    | refl => exact List.mem_append_right _ hs
    | step _ edge => exact List.mem_append_left _ (mem_refs.2 (mem_of_mem_targets edge))
  simpa [region] using hmem

theorem nodup_region (g : Graph) (l : List Ref) : (g.region l).Nodup :=
  (List.nodup_dedup _).filter _

/-- Edges do not lead out of the list. -/
def ClosedUnderEdges (g : Graph) (U : List Ref) : Prop :=
  ∀ r ∈ U, ∀ t ∈ (g.state r).targets, t ∈ U

theorem closedUnderEdges_region (g : Graph) (l : List Ref) : g.ClosedUnderEdges (g.region l) :=
  fun _ hr _ edge => mem_region.2 ((mem_region.1 hr).step edge)

/-- The number of edges that leave states of the list with unmarked ids. -/
def edgesLeft (g : Graph) (U : List Ref) (marked : List Int) : Nat :=
  g.outDegree (U.filter fun r => (g.state r).id ∉ marked)

theorem edgesLeft_nil (g : Graph) (U : List Ref) : g.edgesLeft U [] = g.outDegree U := by
  simp [edgesLeft]

/-- Marking the id of a state pays for following its edges. -/
theorem edgesLeft_cons_add_le (hr : r ∈ U) (hnew : (g.state r).id ∉ marked) :
    g.edgesLeft U ((g.state r).id :: marked) + (g.state r).targets.length ≤
      g.edgesLeft U marked := by
  have hfilter : U.filter (fun q => (g.state q).id ∉ (g.state r).id :: marked) =
      (U.filter fun q => (g.state q).id ∉ marked).filter
        fun q => (g.state q).id ≠ (g.state r).id := by
    rw [List.filter_filter]
    refine List.filter_congr fun q _ => ?_
    simp
  unfold edgesLeft
  rw [hfilter]
  exact length_flatMap_filter_add_le _ _ (List.mem_filter.2 ⟨hr, by simpa using hnew⟩) (by simp)

/-- The ids of the states of the list. -/
def idsOf (g : Graph) (U : List Ref) : Finset Int :=
  (U.map fun r => (g.state r).id).toFinset

theorem id_mem_idsOf (hr : r ∈ U) : (g.state r).id ∈ g.idsOf U :=
  List.mem_toFinset.2 (List.mem_map.2 ⟨r, hr, rfl⟩)

/-- The number of unmarked ids of states of the list. -/
def idsLeft (g : Graph) (U : List Ref) (marked : List Int) : Nat :=
  (g.idsOf U \ marked.toFinset).card

theorem idsLeft_le (g : Graph) (U : List Ref) (marked : List Int) :
    g.idsLeft U marked ≤ (g.idsOf U).card :=
  Finset.card_le_card Finset.sdiff_subset

/-- Each id that gets marked is one less. -/
theorem idsLeft_append_add (hnodup : (marked ++ new).Nodup) (hnew : ∀ i ∈ new, i ∈ g.idsOf U) :
    g.idsLeft U (marked ++ new) + new.length = g.idsLeft U marked := by
  obtain ⟨-, hnew', hdisjoint⟩ := List.nodup_append.1 hnodup
  have hsub : new.toFinset ⊆ g.idsOf U \ marked.toFinset := by
    intro i hi
    rw [List.mem_toFinset] at hi
    rw [Finset.mem_sdiff, List.mem_toFinset]
    exact ⟨hnew i hi, fun hmarked => hdisjoint i hmarked i hi rfl⟩
  have hsdiff : g.idsOf U \ (marked ++ new).toFinset =
      (g.idsOf U \ marked.toFinset) \ new.toFinset := by
    rw [List.toFinset_append]
    exact sdiff_sdiff_left.symm
  unfold idsLeft
  rw [hsdiff, ← List.toFinset_card_of_nodup hnew']
  exact Finset.card_sdiff_add_card_eq_card hsub

end Graph

/-! ## Traversal -/

namespace BreadthFirst

variable {g : Graph} {w : BreadthFirst} {U rest given : List Ref} {r : Ref}

/-- The traversal without its first state, which was given before. -/
def skip (w : BreadthFirst) (rest : List Ref) : BreadthFirst :=
  { queue := rest, visited := w.visited }

/-- The traversal without its first state, which it gives. -/
def give (w : BreadthFirst) (g : Graph) (r : Ref) (rest : List Ref) : BreadthFirst :=
  { queue := rest, visited := (g.state r).id :: w.visited, last := some r }

@[simp] theorem pending_skip (w : BreadthFirst) (g : Graph) (rest : List Ref) :
    (w.skip rest).pending g = rest :=
  List.append_nil rest

@[simp] theorem pending_give (w : BreadthFirst) (g : Graph) (r : Ref) (rest : List Ref) :
    (w.give g r rest).pending g = rest ++ (g.state r).targets := rfl

@[simp] theorem visited_skip (w : BreadthFirst) (rest : List Ref) :
    (w.skip rest).visited = w.visited := rfl

@[simp] theorem visited_give (w : BreadthFirst) (g : Graph) (r : Ref) (rest : List Ref) :
    (w.give g r rest).visited = (g.state r).id :: w.visited := rfl

/-- The loop of one pull takes states off the queue until one has a new id. -/
def pullLoop (g : Graph) : Worklist Id BreadthFirst Ref (Option (Ref × BreadthFirst)) where
  waiting w := w.pending g
  result _ := none
  turn w r rest :=
    if (g.state r).id ∈ w.visited then pure (.inr (w.skip rest))
    else pure (.inl (some (r, w.give g r rest)))

theorem next?_of_nil (h : w.pending g = []) : w.next? g = none := by
  rw [next?_eq_none_iff, h]
  simp

theorem next?_of_mem (h : w.pending g = r :: rest) (hold : (g.state r).id ∈ w.visited) :
    w.next? g = (w.skip rest).next? g := by
  unfold next?
  rw [h, pending_skip, List.dropWhile_cons_of_pos (by simpa using hold)]
  rfl

theorem next?_of_not_mem (h : w.pending g = r :: rest) (hnew : (g.state r).id ∉ w.visited) :
    w.next? g = some (r, w.give g r rest) :=
  next?_eq_some_iff.2 ⟨[], rest, h, by simp, hnew, rfl⟩

/-- Each turn of a pull leaves fewer states in the queue, whatever edges there are now. -/
theorem bounded_pullLoop (g : Graph) :
    (pullLoop g).Bounded (fun _ => True) (fun w => (w.pending g).length)
      fun w => pure (w.next? g) where
  nil _ hwaiting := by
    rw [next?_of_nil hwaiting]
    rfl
  cons {w r rest} _ hwaiting := by
    have hpending : w.pending g = r :: rest := hwaiting
    by_cases hold : (g.state r).id ∈ w.visited
    · simp only [pullLoop, if_pos hold, hpending, List.length_cons]
      refine ⟨?_, Nat.succ_pos _, .inr ⟨trivial, ?_⟩⟩
      · rw [next?_of_mem hpending hold]
        rfl
      · rw [pending_skip]
        omega
    · simp only [pullLoop, if_neg hold, hpending, List.length_cons]
      refine ⟨?_, Nat.succ_pos _, .inl _⟩
      rw [next?_of_not_mem hpending hold]
      rfl

/-- The loop of a traversal, with the states given so far. -/
def runLoop (g : Graph) : Worklist Id (BreadthFirst × List Ref) Ref (List Ref) where
  waiting x := x.1.pending g
  result x := x.2
  turn x r rest :=
    if (g.state r).id ∈ x.1.visited then pure (.inr (x.1.skip rest, x.2))
    else pure (.inr (x.1.give g r rest, x.2 ++ [r]))

theorem toList_of_nil (h : w.pending g = []) : w.toList g = [] := by
  have hvisits := visits_toList g w
  rw [h] at hvisits
  exact hvisits.unique (.done _)

theorem toList_of_mem (h : w.pending g = r :: rest) (hold : (g.state r).id ∈ w.visited) :
    w.toList g = (w.skip rest).toList g := by
  have hvisits := visits_toList g w
  have hskip := visits_toList g (w.skip rest)
  rw [h] at hvisits
  rw [pending_skip] at hskip
  exact hvisits.unique (.skip hold hskip)

theorem toList_of_not_mem (h : w.pending g = r :: rest) (hnew : (g.state r).id ∉ w.visited) :
    w.toList g = r :: (w.give g r rest).toList g := by
  have hvisits := visits_toList g w
  rw [h] at hvisits
  exact hvisits.unique (.visit hnew (visits_toList g (w.give g r rest)))

/-- Each turn takes a state off the queue, and puts states there only for edges of one whose id gets
marked. -/
theorem bounded_runLoop (hU : g.ClosedUnderEdges U) :
    (runLoop g).Bounded (fun x => ∀ r ∈ x.1.pending g, r ∈ U)
      (fun x => (x.1.pending g).length + g.edgesLeft U x.1.visited)
      fun x => pure (x.2 ++ x.1.toList g) where
  nil _ hwaiting := by
    rw [toList_of_nil hwaiting, List.append_nil]
    rfl
  cons {x r rest} hx hwaiting := by
    obtain ⟨w, given⟩ := x
    have hpending : w.pending g = r :: rest := hwaiting
    simp only [hpending, List.forall_mem_cons] at hx
    by_cases hold : (g.state r).id ∈ w.visited
    · simp only [runLoop, if_pos hold, hpending, List.length_cons]
      refine ⟨?_, by omega, .inr ⟨?_, ?_⟩⟩
      · rw [toList_of_mem hpending hold]
        rfl
      · rw [pending_skip]
        exact hx.2
      · rw [pending_skip, visited_skip]
        omega
    · have hpay := Graph.edgesLeft_cons_add_le hx.1 hold
      simp only [runLoop, if_neg hold, hpending, List.length_cons]
      refine ⟨?_, by omega, .inr ⟨?_, ?_⟩⟩
      · rw [toList_of_not_mem hpending hold, List.append_cons]
        rfl
      · rw [pending_give]
        exact List.forall_mem_append.2 ⟨hx.2, hU r hx.1⟩
      · rw [pending_give, visited_give, List.length_append]
        omega

end BreadthFirst

/-! ## Search -/

namespace Graph

variable {m : Type → Type} [Monad m] {g : Graph} {U : List Ref}

/-- The loop of a search, with its stack and the marked ids. -/
def searchLoop (g : Graph) (test : Ref → m Bool) :
    Worklist m (List Ref × List Int) Ref (Option Ref) where
  waiting x := x.1
  result _ := none
  turn x r rest :=
    if (g.state r).id ∈ x.2 then pure (.inr (rest, x.2))
    else do
      if ← test r then pure (.inl (some r))
      else pure (.inr ((g.state r).targets ++ rest, (g.state r).id :: x.2))

/-- Each turn takes a state off the stack, and puts states there only for edges of one whose id gets
marked. -/
theorem bounded_searchLoop [LawfulMonad m] (hU : g.ClosedUnderEdges U) (test : Ref → m Bool) :
    (g.searchLoop test).Bounded (fun x => ∀ r ∈ x.1, r ∈ U)
      (fun x => x.1.length + g.edgesLeft U x.2) fun x => g.searchFrom test x.1 x.2 where
  nil {x} _ hwaiting := by
    obtain ⟨stack, marked⟩ := x
    have hstack : stack = [] := hwaiting
    subst hstack
    rw [searchFrom]
    rfl
  cons {x r rest} hx hwaiting := by
    obtain ⟨stack, marked⟩ := x
    have hstack : stack = r :: rest := hwaiting
    subst hstack
    simp only [List.forall_mem_cons] at hx
    by_cases hold : (g.state r).id ∈ marked
    · simp only [searchLoop, if_pos hold, List.length_cons]
      refine ⟨?_, by omega, .inr ⟨hx.2, by simp only; omega⟩⟩
      rw [searchFrom, dif_pos hold, pure_bind]
      rfl
    · have hpay := edgesLeft_cons_add_le hx.1 hold
      simp only [searchLoop, if_neg hold, List.length_cons]
      refine ⟨?_, by omega, .bind _ fun passed => ?_⟩
      · rw [searchFrom, dif_neg hold, bind_assoc]
        refine bind_congr fun passed => ?_
        cases passed <;> simp
      · cases passed with
        | true => exact .inl _
        | false =>
          refine .inr ⟨List.forall_mem_append.2 ⟨hU r hx.1, hx.2⟩, ?_⟩
          simp only [List.length_append]
          omega

end Graph

/-! ## Copy -/

namespace Copying

variable {source : Graph} {ids : IdSource} {c c' : Copying} {U l : List Ref}

/-- The loop of a copy. -/
def copyLoop (source : Graph) (ids : IdSource) :
    Worklist (Except Error) Copying (Ref × Ref) Copying where
  waiting c := c.pending
  result c := c
  turn c copy rest := .inr <$> copyEdges source ids { c with pending := rest } copy.1 copy.2

theorem run_of_nil (h : c.pending = []) : c.run source ids = .ok c := by
  rw [run]
  split
  · rfl
  · next hcons =>
    rw [h] at hcons
    cases hcons

theorem run_of_cons {old new : Ref} {rest : List (Ref × Ref)} (h : c.pending = (old, new) :: rest) :
    c.run source ids =
      copyEdges source ids { c with pending := rest } old new >>= run source ids := by
  rw [run]
  split
  · next hnil =>
    rw [h] at hnil
    cases hnil
  · next hcons =>
    rw [h] at hcons
    cases hcons
    split
    · next herror =>
      rw [herror]
      rfl
    · next hok =>
      rw [hok]
      rfl

/-- The number of copies that lack their edges or are not made yet. -/
def copiesLeft (source : Graph) (U : List Ref) (c : Copying) : Nat :=
  source.idsLeft U c.images.keys + c.pending.length

/-- A copy that is made was counted before. -/
theorem Queued.copiesLeft_eq (h : Queued source c c' l) (hl : ∀ r ∈ l, r ∈ U) :
    c'.copiesLeft source U = c.copiesLeft source U := by
  have hnodup : c'.images.keys.Nodup := c'.images.nodup_keys
  rw [h.keys_eq] at hnodup
  have hids := Graph.idsLeft_append_add (g := source) (U := U) hnodup fun i hi => by
    obtain ⟨r, hr, rfl⟩ := List.mem_map.1 hi
    exact Graph.id_mem_idsOf (hl r (mem_of_mem_fresh hr).1)
  have hpending := congrArg List.length h.pending_eq
  rw [List.length_map, List.length_append, List.length_map] at hpending
  rw [List.length_map] at hids
  unfold copiesLeft
  rw [h.keys_eq]
  omega

theorem Queued.forall_pending (h : Queued source c c' l) (hl : ∀ r ∈ l, r ∈ U)
    (hc : ∀ r ∈ c.pending.map (·.1), r ∈ U) : ∀ r ∈ c'.pending.map (·.1), r ∈ U := by
  rw [h.pending_eq]
  intro r hr
  exact (List.mem_append.1 hr).elim (hc r) fun hr => hl r (mem_of_mem_fresh hr).1

/-- Each turn finishes a copy. -/
theorem bounded_copyLoop (hU : source.ClosedUnderEdges U) (ids : IdSource) :
    (copyLoop source ids).Bounded (fun c => ∀ r ∈ c.pending.map (·.1), r ∈ U)
      (copiesLeft source U) (run source ids) where
  nil _ hwaiting := run_of_nil hwaiting
  cons {c copy rest} hc hwaiting := by
    obtain ⟨old, new⟩ := copy
    have hpending : c.pending = (old, new) :: rest := hwaiting
    rw [hpending, List.map_cons, List.forall_mem_cons] at hc
    have hleft : c.copiesLeft source U = copiesLeft source U { c with pending := rest } + 1 := by
      simp only [copiesLeft, hpending, List.length_cons]
      omega
    refine ⟨?_, by omega, .of_ok fun y hy c' hc' => ?_⟩
    · rw [run_of_cons hpending, copyLoop, bind_map_left]
      rfl
    · subst hc'
      have hcopy : copyEdges source ids { c with pending := rest } old new = .ok c' := by
        cases hresult : copyEdges source ids { c with pending := rest } old new with
        | error e =>
          simp only [copyLoop, hresult] at hy
          cases hy
        | ok c'' =>
          simp only [copyLoop, hresult] at hy
          cases hy
          rfl
      have hqueued := queued_copyEdges hcopy
      have hsize := hqueued.copiesLeft_eq (U := U) (hU old hc.1)
      exact ⟨hqueued.forall_pending (hU old hc.1) hc.2, by omega⟩

/-- All copies that are made are made for different ids. -/
theorem copiesLeft_begun_le (source : Graph) (ids : IdSource) (h : Heap) (images : IdMap)
    {start : Ref} (hstart : start ∈ U) :
    copiesLeft source U (image source ids ⟨h, images, []⟩ start).2 ≤ (source.idsOf U).card := by
  have hqueued := queued_image source ids ⟨h, images, []⟩ start
  rw [hqueued.copiesLeft_eq (by simpa using hstart)]
  exact source.idsLeft_le U images.keys

end Copying

/-! ## Closure -/

namespace ClosureSearch

variable {g : Graph} {w : ClosureSearch} {U l : List Ref} {t : Ref}

/-- The loop of a closure. -/
def closureLoop (g : Graph) : Worklist Id ClosureSearch Ref IdMap where
  waiting w := w.stack
  result w := w.found
  turn w r rest := pure (.inr (expand g { w with stack := rest } r))

/-- The number of states that wait on the stack or are not found yet. -/
def statesLeft (g : Graph) (U : List Ref) (w : ClosureSearch) : Nat :=
  g.idsLeft U w.found.keys + w.stack.length

/-- A state that is found was counted before. -/
theorem statesLeft_visit (ht : t ∈ U) (w : ClosureSearch) :
    (w.visit g t).statesLeft g U = w.statesLeft g U := by
  unfold visit
  split
  · rfl
  · next hnew =>
    have hkeys := IdMap.keys_insert_of_not_mem (r := t) hnew
    have hnodup : (w.found.insert (g.state t).id t).keys.Nodup := IdMap.nodup_keys _
    rw [hkeys] at hnodup
    have hids := Graph.idsLeft_append_add (g := g) (U := U) hnodup fun i hi =>
      List.mem_singleton.1 hi ▸ Graph.id_mem_idsOf ht
    simp only [statesLeft, hkeys, List.length_cons, List.length_nil] at hids ⊢
    omega

theorem forall_stack_visit (ht : t ∈ U) (hw : ∀ r ∈ w.stack, r ∈ U) :
    ∀ r ∈ (w.visit g t).stack, r ∈ U := by
  unfold visit
  split
  · exact hw
  · exact List.forall_mem_cons.2 ⟨ht, hw⟩

theorem foldl_visit (hl : ∀ t ∈ l, t ∈ U) (hw : ∀ r ∈ w.stack, r ∈ U) :
    (∀ r ∈ (l.foldl (visit g) w).stack, r ∈ U) ∧
      (l.foldl (visit g) w).statesLeft g U = w.statesLeft g U := by
  induction l generalizing w with
  | nil => exact ⟨hw, rfl⟩
  | cons t l ih =>
    rw [List.forall_mem_cons] at hl
    obtain ⟨hstack, hleft⟩ := ih hl.2 (forall_stack_visit (g := g) hl.1 hw)
    exact ⟨hstack, hleft.trans (statesLeft_visit hl.1 w)⟩

theorem run_of_nil (h : w.stack = []) : w.run g = w.found := by
  rw [run]
  split
  · rfl
  · next hcons =>
    rw [h] at hcons
    cases hcons

theorem run_of_cons {r : Ref} {rest : List Ref} (h : w.stack = r :: rest) :
    w.run g = (expand g { w with stack := rest } r).run g := by
  rw [run]
  split
  · next hnil =>
    rw [h] at hnil
    cases hnil
  · next hcons =>
    rw [h] at hcons
    cases hcons
    rfl

/-- Each turn settles a state. -/
theorem bounded_closureLoop (hU : g.ClosedUnderEdges U) :
    (closureLoop g).Bounded (fun w => ∀ r ∈ w.stack, r ∈ U) (statesLeft g U)
      fun w => pure (w.run g) where
  nil _ hwaiting := by
    rw [run_of_nil hwaiting]
    rfl
  cons {w r rest} hw hwaiting := by
    have hstack : w.stack = r :: rest := hwaiting
    rw [hstack, List.forall_mem_cons] at hw
    have hleft : w.statesLeft g U = statesLeft g U { w with stack := rest } + 1 := by
      simp only [statesLeft, hstack, List.length_cons]
      omega
    obtain ⟨hall, hsize⟩ := foldl_visit (g := g) (w := { w with stack := rest })
      (fun t ht => hU r hw.1 t (List.mem_append_right _ ht)) hw.2
    refine ⟨?_, by omega, .inr ⟨hall, ?_⟩⟩
    · rw [run_of_cons hstack]
      rfl
    · show statesLeft g U (List.foldl (visit g) _ _) < _
      omega

/-- The given states stand under different ids. -/
theorem statesLeft_byId_le (hl : ∀ s ∈ l, s ∈ U) :
    statesLeft g U { found := g.byId l, stack := (g.byId l).values.reverse } ≤
      (g.idsOf U).card := by
  obtain ⟨hkeyed, hvalues, -⟩ := g.byId_spec l
  have hnodup : ([] ++ (g.byId l).keys).Nodup := (g.byId l).nodup_keys
  have hids := Graph.idsLeft_append_add (g := g) (U := U) hnodup fun i hi => by
    obtain ⟨r, hr⟩ := IdMap.mem_iff_exists_find?.1 (IdMap.mem_keys.1 hi)
    rw [← hkeyed hr]
    exact Graph.id_mem_idsOf (hl r (hvalues r (IdMap.mem_values.2 ⟨i, hr⟩)))
  have hlength : (g.byId l).values.length = (g.byId l).keys.length := by
    rw [IdMap.values, IdMap.keys, List.length_map, List.length_map]
  have hle := g.idsLeft_le U []
  rw [List.nil_append] at hids
  simp only [statesLeft, List.length_reverse, hlength]
  omega

end ClosureSearch

/-! ## All worklists -/

/-- All worklist loops end, with the results of the functions that they are the loops of. A
traversal that nothing interrupts and a search make at most one turn more than there are edges that
leave states below the start. A copy, with any table of images, and a closure make at most as many
turns as the states below the given ones have ids. A pull of a traversal that is suspended anywhere
ends too, whatever edges the graph has by then. -/
theorem worklists_end {m : Type → Type} [Monad m] [LawfulMonad m] (g : Graph) :
    (∀ s, (BreadthFirst.runLoop g).EndsWithin (g.outDegree (g.region [s]) + 1) (.startAt s, [])
      (pure (g.breadthFirst s))) ∧
    (∀ s (test : Ref → m Bool), (g.searchLoop test).EndsWithin (g.outDegree (g.region [s]) + 1)
      ([s], []) (g.findFirst? s test)) ∧
    (∀ h ids images start, (Copying.copyLoop g ids).EndsWithin (g.idsOf (g.region [start])).card
      (Copying.image g ids ⟨h, images, []⟩ start).2
      ((Copying.image g ids ⟨h, images, []⟩ start).2.run g ids)) ∧
    (∀ l, ∃ found : IdMap, g.epsilonClosure l = found.values ∧
      (ClosureSearch.closureLoop g).EndsWithin (g.idsOf (g.region l)).card
        ⟨g.byId l, (g.byId l).values.reverse⟩ (pure found)) ∧
    ∀ w, (BreadthFirst.pullLoop g).EndsWithin (w.pending g).length w (pure (w.next? g)) := by
  have hroot : ∀ {l s}, s ∈ l → s ∈ g.region l := fun hs => Graph.mem_region.2 ⟨_, hs, .refl⟩
  have hclosed := g.closedUnderEdges_region
  refine ⟨fun s => ?_, fun s test => ?_, fun h ids images start => ?_, fun l => ?_, fun w => ?_⟩
  · refine (BreadthFirst.bounded_runLoop (hclosed [s])).endsWithin ?_ ?_
    · exact fun r hr => hroot hr
    · rw [← g.edgesLeft_nil, Nat.add_comm]
      exact Nat.le_refl _
  · refine (Graph.bounded_searchLoop (hclosed [s]) test).endsWithin (fun r hr => hroot hr) ?_
    rw [g.edgesLeft_nil, Nat.add_comm]
    exact Nat.le_refl _
  · have hstart := hroot (List.mem_singleton_self start)
    refine (Copying.bounded_copyLoop (hclosed [start]) ids).endsWithin ?_
      (Copying.copiesLeft_begun_le g ids h images hstart)
    exact (Copying.queued_image g ids _ start).forall_pending (by simpa using hstart) (by simp)
  · obtain ⟨-, hvalues, -⟩ := g.byId_spec l
    refine ⟨_, rfl, (ClosureSearch.bounded_closureLoop (hclosed l)).endsWithin ?_
      (ClosureSearch.statesLeft_byId_le fun s hs => hroot hs)⟩
    exact fun r hr => hroot (hvalues r (List.mem_reverse.1 hr))
  · exact (BreadthFirst.bounded_pullLoop g).endsWithin trivial (Nat.le_refl _)

/-- A graph with a cycle, a state that leads to itself, an edge made twice and an id that two states
have. -/
def Graph.knot : Graph where
  states := #[{ id := 5, onEpsilon := [⟨1⟩, ⟨1⟩], onSymbol :=
      { entries := [(.text "a", ⟨1⟩), (.text "b", ⟨0⟩)], letters := by decide,
        distinct := by decide } },
    { id := 5, onEpsilon := [⟨2⟩, ⟨0⟩] },
    { id := 7, isFinal := true, onEpsilon := [⟨0⟩] }]
  closed := by decide

/-- All states of the graph are below its first one. -/
theorem Graph.region_knot : (knot.region [⟨0⟩]).Perm knot.refs := by
  have hone : knot.Reaches ⟨0⟩ ⟨1⟩ := Reaches.refl.step (by decide)
  have htwo : knot.Reaches ⟨0⟩ ⟨2⟩ := hone.step (by decide)
  refine (List.perm_ext_iff_of_nodup (knot.nodup_region _) (by decide)).2 fun t => ?_
  rw [mem_region]
  constructor
  · intro h
    exact mem_refs.2 (h.mem (by decide))
  · intro h
    have hcases : ∀ r ∈ knot.refs, r = ⟨0⟩ ∨ r = ⟨1⟩ ∨ r = ⟨2⟩ := by decide
    refine ⟨⟨0⟩, List.mem_singleton_self _, ?_⟩
    obtain rfl | rfl | rfl := hcases t h
    · exact .refl
    · exact hone
    · exact htwo

/-- Seven edges and two ids: a search that counts its tests takes eight turns at most, as a traversal
does, and a copy or a closure takes two. -/
theorem worklists_end_knot :
    let count : Ref → StateM Nat Bool := fun r => do
      modify (· + 1)
      pure (Graph.knot.state r).onEpsilon.isEmpty
    let begun := (Copying.image Graph.knot ⟨0⟩ ⟨⟨Graph.knot, #[9]⟩, ∅, []⟩ ⟨0⟩).2
    (BreadthFirst.runLoop Graph.knot).EndsWithin 8 (.startAt ⟨0⟩, [])
        (pure (Graph.knot.breadthFirst ⟨0⟩)) ∧
      (Graph.knot.searchLoop count).EndsWithin 8 ([⟨0⟩], []) (Graph.knot.findFirst? ⟨0⟩ count) ∧
      (Copying.copyLoop Graph.knot ⟨0⟩).EndsWithin 2 begun (begun.run Graph.knot ⟨0⟩) ∧
      ∃ found : IdMap, Graph.knot.epsilonClosure [⟨0⟩] = found.values ∧
        (ClosureSearch.closureLoop Graph.knot).EndsWithin 2
          ⟨Graph.knot.byId [⟨0⟩], (Graph.knot.byId [⟨0⟩]).values.reverse⟩ (pure found) := by
  intro count begun
  have hedges : Graph.knot.outDegree (Graph.knot.region [⟨0⟩]) = 7 :=
    (Graph.region_knot.flatMap_right _).length_eq.trans (by decide)
  have hids : (Graph.knot.idsOf (Graph.knot.region [⟨0⟩])).card = 2 := by
    rw [Graph.idsOf, List.toFinset_eq_of_perm _ _ (Graph.region_knot.map _)]
    decide
  obtain ⟨hrun, hsearch, hcopy, hclosure, -⟩ := worklists_end (m := StateM Nat) Graph.knot
  have hrun₀ := hrun ⟨0⟩
  have hsearch₀ := hsearch ⟨0⟩ count
  have hcopy₀ := hcopy ⟨Graph.knot, #[9]⟩ ⟨0⟩ ∅ ⟨0⟩
  have hclosure₀ := hclosure [⟨0⟩]
  rw [hedges] at hrun₀ hsearch₀
  rw [hids] at hcopy₀ hclosure₀
  exact ⟨hrun₀, hsearch₀, hcopy₀, hclosure₀⟩

end EpsilonNfa
