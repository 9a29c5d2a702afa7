import EpsilonNfa.Proofs.Expression
import EpsilonNfa.Proofs.OneSource

/-!
# Sessions with one source

A session in which all states come from one source keeps two promises through every operation:
no two of its states have the same id, and the stop and the cursor of each of its automata lie below
its start (`Session.OneSource`). Edges may join what was copied apart, and cursors may stand in the
middle of a word; a copy finds what it looks for all the same.
-/

namespace EpsilonNfa

variable {h h' : Heap} {ids : IdSource} {a a' b : Automaton} {g : Graph} {x : Symbol} {α : Type}

namespace Automaton

/-- The automaton draws from the source, and its stop and its cursor lie below its start. -/
structure Rooted (ids : IdSource) (g : Graph) (a : Automaton) : Prop where
  ids_eq : a.ids = ids
  start_mem : a.start ∈ g
  stop : g.Reaches a.start a.stop
  current : ∀ r ∈ a.current, g.Reaches a.start r

theorem rooted_ofStates {start stop : Ref} (hstart : start ∈ g) (hstop : g.Reaches start stop)
    (ids : IdSource) : (ofStates start stop ids).Rooted ids g where
  ids_eq := rfl
  start_mem := hstart
  stop := hstop
  current r hr := by
    rw [List.mem_singleton.1 hr]
    exact .refl

namespace Rooted

theorem evolve (ha : a.Rooted ids h.graph) (hh : h.Evolves ids h') : a.Rooted ids h'.graph where
  ids_eq := ha.ids_eq
  start_mem := hh.mem ha.start_mem
  stop := hh.reaches ha.start_mem ha.stop
  current r hr := hh.reaches ha.start_mem (ha.current r hr)

theorem movesTo (ha : a.Rooted ids g) (hmove : a.MovesTo g a') : a'.Rooted ids g := by
  obtain ⟨l, rfl, hl⟩ := hmove
  exact ⟨ha.ids_eq, ha.start_mem, ha.stop, hl⟩

theorem within (ha : a.Rooted ids h.graph) (hd : h.DrawnFrom ids) : a.Within h where
  start := ha.start_mem
  stop := ha.stop.mem ha.start_mem
  ids := by
    rw [ha.ids_eq]
    exact hd.source
  current r hr := (ha.current r hr).mem ha.start_mem

theorem exists_copy (ha : a.Rooted ids h.graph) (hd : h.DrawnFrom ids) :
    ∃ c h', Returns a.copy h c h' ∧ c.Rooted ids h'.graph := by
  have hdistinct := hd.distinctIds ha.start_mem
  obtain ⟨start, images, h', copies, -, hc, hreturns⟩ :=
    Automaton.exists_copy (ha.within hd) hdistinct ha.stop ha.current
  have himage : ∀ {r}, h.graph.Reaches a.start r →
      h'.graph.Reaches start (images.imageOf h.graph r) :=
    fun hr => (hc.isIso hdistinct).reaches_iff.2 ⟨_, hr, rfl⟩
  refine ⟨_, h', hreturns, ha.ids_eq, hc.root_mem, himage ha.stop, fun q hq => ?_⟩
  obtain ⟨r, hr, rfl⟩ := List.mem_map.1 (List.mem_eraseDups.1 hq)
  exact himage (ha.current r hr)

theorem exists_concat (ha : a.Rooted ids h.graph) (hb : b.Rooted ids h.graph)
    (hd : h.DrawnFrom ids) : ∃ c h', Returns (a.concat b) h c h' ∧ c.Rooted ids h'.graph := by
  obtain ⟨c, h', copies, f, f', bStart, hreturns, hc⟩ :=
    exists_concatenated (ha.within hd) (hb.within hd) (hd.distinctIds ha.start_mem)
      (hd.distinctIds hb.start_mem) ha.stop hb.stop
  -- down the first copy, across the join and down the second
  have hjoin : h'.graph.Reaches c.start bStart :=
    (hc.joined.reaches_of_reaches (hc.apart.first.reaches_iff.2 ⟨_, ha.stop, rfl⟩)).step
      (hc.joined.mem_targets.2 (Or.inr ⟨rfl, rfl⟩))
  have hstop : h'.graph.Reaches c.start (f' b.stop) :=
    hjoin.trans (hc.joined.reaches_of_reaches (hc.apart.second.reaches_iff.2 ⟨_, hb.stop, rfl⟩))
  refine ⟨c, h', hreturns, ?_⟩
  rw [hc.eq_ofStates, ha.ids_eq]
  exact rooted_ofStates hc.start_mem hstop ids

end Rooted

/-- What is made of a letter is rooted: whatever the letter is, the edge is there if it returns. -/
theorem rooted_of_ofSymbol (hreturns : Returns (ofSymbol x (some ids)) h a h') :
    a.Rooted ids h'.graph := by
  by_cases hx : x = .epsilon
  · unfold ofSymbol at hreturns
    rw [if_pos hx] at hreturns
    cases hreturns
  · rw [ofSymbol_of_ne hx] at hreturns
    obtain ⟨start, h₁, hstart, hreturns⟩ := hreturns.exists_of_bind
    obtain ⟨stop, h₂, hstop, hreturns⟩ := hreturns.exists_of_bind
    obtain ⟨_, h₃, hconnect, hreturns⟩ := hreturns.exists_of_bind
    cases hreturns
    obtain ⟨rfl, rfl⟩ := hstart.unique (HeapM.returns_newState h ids false)
    obtain ⟨rfl, rfl⟩ := hstop.unique (HeapM.returns_newState _ ids true)
    have hfirst := h.addsState ids false
    have hsecond := (h.addState ids false).2.addsState ids true
    unfold Returns at hconnect
    rw [HeapM.run_connect] at hconnect
    split at hconnect
    · next g hg =>
      cases hconnect
      have hstart : (⟨h.graph.size⟩ : Ref) ∈ ((h.addState ids false).2.addState ids true).2.graph :=
        hsecond.mem hfirst.mem_new
      refine rooted_ofStates ?_ (.step .refl (Graph.mem_targets_of_connect hstart hg)) ids
      rwa [Graph.mem_iff, Graph.size_of_connect hg]
    · cases hconnect

end Automaton

/-! ## Sessions -/

/-- All states come from the source, and all automata are rooted. -/
structure Session.OneSource (ids : IdSource) (s : Session) : Prop where
  drawnFrom : s.heap.DrawnFrom ids
  rooted : ∀ r a, s.automaton? r = some a → a.Rooted ids s.graph

namespace Session.OneSource

variable {s s' : Session} {r q : AutomatonRef}

theorem tracked (hs : s.OneSource ids) : s.Tracked := by
  intro r a hr
  have ha := hs.rooted r a hr
  exact ⟨hs.drawnFrom.distinctIds ha.start_mem, ha.current⟩

theorem moves (hs : s.OneSource ids) (hmoves : s.Moves s') : s'.OneSource ids := by
  refine ⟨by rw [hmoves.heap_eq]; exact hs.drawnFrom, fun r a' hr => ?_⟩
  obtain ⟨hlt, -⟩ := Array.getElem?_eq_some_iff.1 hr
  rw [hmoves.size_eq] at hlt
  obtain ⟨a'', hr'', hmove⟩ := hmoves.automaton r _ (Array.getElem?_eq_getElem hlt)
  rw [hr] at hr''
  cases hr''
  show a'.Rooted ids s'.heap.graph
  rw [hmoves.heap_eq]
  exact (hs.rooted r _ (Array.getElem?_eq_getElem hlt)).movesTo hmove

theorem onHeap {action : HeapM α} (hs : s.OneSource ids)
    (haction : s.heap.Evolves ids (action.run.run s.heap).2) :
    ((SessionM.onHeap action).run.run s).2.OneSource ids where
  drawnFrom := haction.drawnFrom hs.drawnFrom
  rooted r a hr := (hs.rooted r a hr).evolve haction

/-- Building an automaton, which may fail. -/
theorem build {action : HeapM Automaton} (hs : s.OneSource ids)
    (haction : s.heap.Evolves ids (action.run.run s.heap).2)
    (hrooted : ∀ a h', Returns action s.heap a h' → a.Rooted ids h'.graph) :
    ((SessionM.build action).run.run s).2.OneSource ids := by
  have honHeap := hs.onHeap haction
  rw [SessionM.run_onHeap] at honHeap
  rw [SessionM.run_build]
  unfold Returns at hrooted
  generalize action.run.run s.heap = result at *
  rcases result with ⟨_ | a, h'⟩
  · exact honHeap
  · refine ⟨honHeap.drawnFrom, fun r b hr => ?_⟩
    have hr : (s.automata.push a)[r.index]? = some b := hr
    rw [Array.getElem?_push] at hr
    split at hr
    · cases hr
      exact hrooted _ h' rfl
    · exact honHeap.rooted r b hr

theorem ofSymbol (hs : s.OneSource ids) (x : Symbol) :
    ((SessionM.ofSymbol x (some ids)).run.run s).2.OneSource ids :=
  hs.build (Automaton.evolves_ofSymbol x ids s.heap) fun _ _ => Automaton.rooted_of_ofSymbol

theorem copy (hs : s.OneSource ids) (r : AutomatonRef) :
    ((SessionM.copy r).run.run s).2.OneSource ids := by
  rcases SessionM.run_copy_or s r with ⟨a, hr, hrun⟩ | hrun
  · have ha := hs.rooted r a hr
    obtain ⟨c, h', hreturns, hc⟩ := ha.exists_copy hs.drawnFrom
    rw [hrun]
    refine hs.build (ha.ids_eq ▸ a.evolves_copy s.heap) fun c' h'' hreturns' => ?_
    obtain ⟨rfl, rfl⟩ := hreturns.unique hreturns'
    exact hc
  · rw [hrun]
    exact hs

theorem concat (hs : s.OneSource ids) (r q : AutomatonRef) :
    ((SessionM.concat r q).run.run s).2.OneSource ids := by
  rcases SessionM.run_concat_or s r q with ⟨a, b, hr, hq, hrun⟩ | hrun
  · have ha := hs.rooted r a hr
    obtain ⟨c, h', hreturns, hc⟩ := ha.exists_concat (hs.rooted q b hq) hs.drawnFrom
    rw [hrun]
    refine hs.build (ha.ids_eq ▸ a.evolves_concat b s.heap) fun c' h'' hreturns' => ?_
    obtain ⟨rfl, rfl⟩ := hreturns.unique hreturns'
    exact hc
  · rw [hrun]
    exact hs

end Session.OneSource

/-! ## Runs -/

/-- States come from the source and from nowhere else, automata too, and the images that a copy
begins with are states that exist. Nothing is asked of operations that read, and edges and finality
are free. -/
def Operation.Legal (ids : IdSource) (g : Graph) : Operation → Prop
  | .newState src _ => src = ids
  | .copyGraph start images src => src = some ids ∧ start ∈ g ∧ ∀ q ∈ images.values, q ∈ g
  | .automaton start stop src => src = ids ∧ start ∈ g ∧ g.Reaches start stop
  | .ofSymbol _ src => src = some ids
  | _ => True

/-- What a session comes to that begins without states and uses one source. -/
inductive Workspace.Reachable (ids : IdSource) : Workspace → Prop
  | start {nextIds : Array Int} (hids : ids.index < nextIds.size) :
      Reachable ids { session := { heap := { nextIds } } }
  | step {w : Workspace} {op : Operation} (hw : Reachable ids w)
      (hop : op.Legal ids w.session.graph) : Reachable ids (w.after op)

namespace Workspace

variable {w : Workspace} {op : Operation}

/-- One operation keeps the promises, whether or not it fails. -/
theorem oneSource_after (hw : w.session.OneSource ids) (hop : op.Legal ids w.session.graph) :
    (w.after op).session.OneSource ids := by
  have hreads : op.reads = true → (w.after op).session.OneSource ids :=
    fun hreads => hw.moves (Operation.moves_of_reads hreads hw.tracked)
  cases op with
  | newSource first => exact hw.onHeap (HeapM.Evolves.newSource first w.session.heap)
  | newState src isFinal =>
    cases hop
    exact hw.onHeap (HeapM.Evolves.newState isFinal w.session.heap)
  | connect s x t => exact hw.onHeap (HeapM.Evolves.connect s x t w.session.heap)
  | setFinal r isFinal => exact hw.onHeap (HeapM.Evolves.setFinal r isFinal w.session.heap)
  | copyGraph start images src =>
    obtain ⟨rfl, -, hvalues⟩ := hop
    exact hw.onHeap (Heap.evolves_copyGraph start hvalues)
  | automaton start stop src =>
    obtain ⟨rfl, hstart, hstop⟩ := hop
    refine hw.build (HeapM.Evolves.pure _ w.session.heap) fun a h' hreturns => ?_
    cases hreturns
    exact Automaton.rooted_ofStates hstart hstop src
  | ofSymbol x src =>
    cases hop
    exact hw.ofSymbol x
  | concat r q => exact hw.concat r q
  | copy r => exact hw.copy r
  | reset | step | run | isAccepting | accepts | verdicts | pull => exact hreads rfl

theorem Reachable.oneSource (hw : w.Reachable ids) : w.session.OneSource ids := by
  induction hw with
  | start hids =>
    refine ⟨⟨hids, fun r hr => ?_, fun r hr => ?_⟩, fun r a hr => ?_⟩
    · exact absurd hr (Nat.not_lt_zero _)
    · exact absurd hr (Nat.not_lt_zero _)
    · cases hr
  | step _ hop ih => exact oneSource_after ih hop

/-- In a session that uses one source all states have different ids at every moment, and the stop
and the cursor of every automaton lie below its start. So automata are copied and concatenated
without fail, also in the middle of a word. -/
theorem one_source (hw : w.Reachable ids) :
    (∀ r ∈ w.session.graph, ∀ t ∈ w.session.graph,
      (w.session.graph.state r).id = (w.session.graph.state t).id → r = t) ∧
    (∀ r a, w.session.automaton? r = some a → w.session.graph.Reaches a.start a.stop ∧
      ∀ t ∈ a.current, w.session.graph.Reaches a.start t) ∧
    (∀ r a, w.session.automaton? r = some a →
      ((Operation.copy r).perform w).1 = .ok (.automaton ⟨w.session.automata.size⟩)) ∧
    (∀ r q a b, w.session.automaton? r = some a → w.session.automaton? q = some b →
      ((Operation.concat r q).perform w).1 = .ok (.automaton ⟨w.session.automata.size⟩)) := by
  have hs := hw.oneSource
  refine ⟨hs.drawnFrom.eq_of_id_eq, fun r a hr => ?_, fun r a hr => ?_, fun r q a b hr hq => ?_⟩
  · exact ⟨(hs.rooted r a hr).stop, (hs.rooted r a hr).current⟩
  · obtain ⟨c, h', hreturns, -⟩ := (hs.rooted r a hr).exists_copy hs.drawnFrom
    rw [Operation.perform, apply_of_returns (SessionM.returns_copy hr hreturns)]
  · obtain ⟨c, h', hreturns, -⟩ :=
      (hs.rooted r a hr).exists_concat (hs.rooted q b hq) hs.drawnFrom
    rw [Operation.perform, apply_of_returns (SessionM.returns_concat hr hq hreturns)]

/-- A letter with an edge back to its start, copied in the middle of a word and put before itself.
-/
theorem one_source_mid_word :
    ∃ w, Reachable ⟨0⟩ w ∧
      ((Operation.copy ⟨0⟩).perform w).1 = .ok (.automaton ⟨w.session.automata.size⟩) ∧
      ((Operation.concat ⟨0⟩ ⟨0⟩).perform w).1 = .ok (.automaton ⟨w.session.automata.size⟩) := by
  have hstart : Reachable ⟨0⟩ { session := { heap := { nextIds := #[7] } } } := .start (by decide)
  have hletter : Reachable ⟨0⟩ (after _ (.ofSymbol (.text "a") (some ⟨0⟩))) := hstart.step rfl
  have hback : Reachable ⟨0⟩ (after _ (.connect ⟨1⟩ .epsilon ⟨0⟩)) := hletter.step trivial
  have hread : Reachable ⟨0⟩ (after _ (.step ⟨0⟩ (.text "a"))) := hback.step trivial
  have hreads : (Operation.step ⟨0⟩ (.text "a")).reads = true := rfl
  obtain ⟨a, ha, -⟩ := (Operation.moves_of_reads hreads hback.oneSource.tracked).automaton ⟨0⟩ _ rfl
  obtain ⟨-, -, hcopy, hconcat⟩ := one_source hread
  exact ⟨_, hread, hcopy ⟨0⟩ a ha, hconcat ⟨0⟩ ⟨0⟩ a a ha ha⟩

end Workspace

end EpsilonNfa
