import EpsilonNfa.Proofs.Agreement
import EpsilonNfa.Proofs.Frame
import EpsilonNfa.Proofs.Reading

/-!
# What later operations leave alone

Of the operations of a session two touch a state that is there, an edge its source and a change of
finality its state; no other does, not even a copy that is given images. So an automaton whose
states nobody touches keeps its verdicts, whatever else happens in the session, steps with its own
cursor and assignments to its stop included (`Workspace.run_editAll`).
-/

namespace EpsilonNfa

variable {α : Type} {g : Graph} {h : Heap} {r t new old : Ref} {x : Symbol}

/-! ## Copies with any images -/

namespace Copying

variable {source : Graph} {ids : IdSource} {c c' : Copying} {e : Symbol × Ref}

/-- The states of the heap `h` are unchanged, and none of them waits for edges. -/
structure Spares (h : Heap) (c : Copying) : Prop where
  grows : h.Extends c.heap
  pending : ∀ p ∈ c.pending, p.2 ∉ h.graph

namespace Spares

theorem image (hc : c.Spares h) (source : Graph) (ids : IdSource) (old : Ref) :
    (c.image source ids old).2.Spares h := by
  unfold Copying.image
  split
  · exact hc
  · refine ⟨hc.grows.trans (c.heap.grows_addState ids _), fun p hp => ?_⟩
    rcases List.mem_append.1 hp with hp | hp
    · exact hc.pending p hp
    · rw [List.mem_singleton.1 hp]
      exact fun hmem => Nat.lt_irrefl _ (hc.grows.mem hmem)

theorem copyEdge (hc : c.Spares h) (hnew : new ∉ h.graph)
    (hok : Copying.copyEdge source ids new c e = .ok c') : c'.Spares h := by
  have himage := hc.image source ids e.2
  unfold Copying.copyEdge at hok
  split at hok
  next target graph nextIds images pending heq =>
  rw [heq] at himage
  obtain ⟨g, hconnect, hok⟩ := bind_eq_ok.1 hok
  cases hok
  refine ⟨himage.grows.setGraph (fun {r} hr => ?_) fun r hr => ?_, himage.pending⟩
  · rwa [Graph.mem_iff, Graph.size_of_connect hconnect]
  · exact Graph.state_of_connect_of_ne hconnect fun heq => hnew (heq ▸ hr)

theorem copyEdges (hc : c.Spares h) (hnew : new ∉ h.graph)
    (hok : Copying.copyEdges source ids c old new = .ok c') : c'.Spares h := by
  unfold Copying.copyEdges at hok
  generalize (source.state old).edges = edges at hok
  induction edges generalizing c with
  | nil =>
    cases hok
    exact hc
  | cons e edges ih =>
    rw [List.foldlM_cons] at hok
    obtain ⟨middle, hstep, hok⟩ := bind_eq_ok.1 hok
    exact ih (hc.copyEdge hnew hstep) hok

theorem run (hc : c.Spares h) (hok : Copying.run source ids c = .ok c') : c'.Spares h := by
  fun_induction Copying.run source ids c with
  | case1 c hpending =>
    cases hok
    exact hc
  | case2 => cases hok
  | case3 c old new rest hpending next hnext ih =>
    have hnew : new ∉ h.graph := hc.pending (old, new) (by rw [hpending]; exact List.mem_cons_self)
    have hrest : Copying.Spares h { c with pending := rest } :=
      ⟨hc.grows, fun p hp => hc.pending p (by rw [hpending]; exact List.mem_cons_of_mem _ hp)⟩
    exact ih (hrest.copyEdges hnew hnext) hok

end Spares

end Copying

theorem HeapM.grows_copyGraph_some (h : Heap) (start : Ref) (images : IdMap) (ids : IdSource) :
    h.Extends ((HeapM.copyGraph start images (some ids)).run.run h).2 := by
  have hbegun : (Copying.image h.graph ids ⟨h, images, []⟩ start).2.Spares h :=
    Copying.Spares.image ⟨.refl h, by simp⟩ h.graph ids start
  rw [run_copyGraph]
  cases hrun : (Copying.image h.graph ids ⟨h, images, []⟩ start).2.run h.graph ids with
  | ok c => exact (hbegun.run hrun).grows
  | error e => exact .refl h

/-- A copy changes no state that was there, whatever images it is given. -/
theorem HeapM.grows_copyGraph (h : Heap) (start : Ref) (images : IdMap) (ids : Option IdSource) :
    h.Extends ((HeapM.copyGraph start images ids).run.run h).2 := by
  cases ids with
  | some ids => exact grows_copyGraph_some h start images ids
  | none =>
    rw [run_copyGraph_none]
    exact (h.grows_addSource _).trans (grows_copyGraph_some _ start images _)

/-! ## Sessions with more in them -/

variable {P : Ref → Prop} {s s' s'' : Session} {q : AutomatonRef} {a a' : Automaton} {w : Workspace}

/-- What is in the first session is in the second, states and automata as they were. -/
structure Session.Extends (s s' : Session) : Prop where
  heap : s.heap.Extends s'.heap
  automaton : ∀ {r a}, s.automaton? r = some a → s'.automaton? r = some a

namespace Session.Extends

theorem refl (s : Session) : s.Extends s :=
  ⟨.refl s.heap, id⟩

theorem trans (hs : s.Extends s') (hs' : s'.Extends s'') : s.Extends s'' :=
  ⟨hs.heap.trans hs'.heap, fun hr => hs'.automaton (hs.automaton hr)⟩

theorem eq_none (hs : s.Extends s') (hr : s'.automaton? q = none) : s.automaton? q = none := by
  cases hq : s.automaton? q with
  | none => rfl
  | some a =>
    rw [hs.automaton hq] at hr
    cases hr

theorem onHeap {m : HeapM α} (hm : s.heap.Extends (m.run.run s.heap).2) :
    s.Extends ((SessionM.onHeap m).run.run s).2 :=
  ⟨hm, id⟩

theorem build {m : HeapM Automaton} (hm : s.heap.Extends (m.run.run s.heap).2) :
    s.Extends ((SessionM.build m).run.run s).2 := by
  rw [SessionM.run_build]
  generalize m.run.run s.heap = result at hm
  rcases result with ⟨e | b, heap⟩
  · exact ⟨hm, id⟩
  · exact ⟨hm, fun hr => automaton?_push hr heap b⟩

theorem copy (s : Session) (r : AutomatonRef) : s.Extends ((SessionM.copy r).run.run s).2 := by
  rcases SessionM.run_copy_or s r with ⟨a, -, hrun⟩ | hrun
  · rw [hrun]
    exact build (Automaton.copy_ensures s.heap a).left.grows
  · rw [hrun]
    exact refl s

theorem concat (s : Session) (r q : AutomatonRef) :
    s.Extends ((SessionM.concat r q).run.run s).2 := by
  rcases SessionM.run_concat_or s r q with ⟨a, b, -, -, hrun⟩ | hrun
  · rw [hrun]
    exact build (Automaton.concat_ensures s.heap a b).left.grows
  · rw [hrun]
    exact refl s

end Session.Extends

/-! ## Sessions in which some states are not touched -/

/-- What was in the first session is in the second: the states of which `P` holds are unchanged, and
the automata begin where they did. -/
structure Session.Spares (P : Ref → Prop) (s s' : Session) : Prop where
  mem : ∀ {r}, r ∈ s.graph → r ∈ s'.graph
  state_eq : ∀ {r}, r ∈ s.graph → P r → s'.graph.state r = s.graph.state r
  automaton : ∀ {q a}, s.automaton? q = some a →
    ∃ a', s'.automaton? q = some a' ∧ a'.start = a.start

namespace Session.Spares

theorem refl (P : Ref → Prop) (s : Session) : s.Spares P s :=
  ⟨id, fun _ _ => rfl, fun hq => ⟨_, hq, rfl⟩⟩

theorem trans (hs : s.Spares P s') (hs' : s'.Spares P s'') : s.Spares P s'' where
  mem hr := hs'.mem (hs.mem hr)
  state_eq hr hP := (hs'.state_eq (hs.mem hr) hP).trans (hs.state_eq hr hP)
  automaton hq := by
    obtain ⟨a', hq', hstart⟩ := hs.automaton hq
    obtain ⟨a'', hq'', hstart'⟩ := hs'.automaton hq'
    exact ⟨a'', hq'', hstart'.trans hstart⟩

/-- A change to the states of a heap. -/
theorem setGraph (hsize : g.size = s.graph.size)
    (hstate : ∀ {r}, r ∈ s.graph → P r → g.state r = s.graph.state r) :
    s.Spares P { s with heap := { s.heap with graph := g } } where
  mem {r} hr := by
    show r ∈ g
    rwa [Graph.mem_iff, hsize]
  state_eq := hstate
  automaton hq := ⟨_, hq, rfl⟩

theorem put (hq : s.automaton? q = some a) (hstart : a'.start = a.start) :
    s.Spares P (s.put q a') where
  mem := id
  state_eq _ _ := rfl
  automaton {p b} hp := by
    by_cases heq : p = q
    · subst heq
      rw [hq] at hp
      cases hp
      exact ⟨a', automaton?_put_self hq a', hstart⟩
    · exact ⟨b, (automaton?_put_of_ne heq a').trans hp, rfl⟩

theorem of_extends (hs : s.Extends s') : s.Spares P s' :=
  ⟨hs.heap.mem, fun hr _ => hs.heap.state_eq _ hr, fun hq => ⟨_, hs.automaton hq, rfl⟩⟩

end Session.Spares

/-! ## Reading keeps starts -/

namespace Automaton

theorem start_of_step (hstep : a.step g x = .ok a') : a'.start = a.start := by
  obtain ⟨l, -, rfl⟩ := step_eq_ok_iff.1 hstep
  rfl

theorem start_feed (g : Graph) (a : Automaton) (word : List Symbol) :
    (a.feed g word).1.start = a.start := by
  induction word generalizing a with
  | nil => rfl
  | cons x word ih =>
    unfold feed
    cases hstep : a.step g x with
    | error e => rfl
    | ok next => exact (ih next).trans (start_of_step hstep)

theorem start_run (g : Graph) (a : Automaton) (word : List Symbol) :
    (a.run g word).1.start = a.start := by
  have hfeed := start_feed g a.reset word
  unfold run
  split
  · next heq => rwa [heq] at hfeed
  · next heq => rwa [heq] at hfeed

theorem start_read (g : Graph) (a : Automaton) (op : Operation) :
    (op.read g a).1.start = a.start := by
  cases op with
  | step _ x =>
    cases hstep : a.step g x with
    | error e => simp only [Operation.read, hstep]
    | ok next =>
      simp only [Operation.read, hstep]
      exact start_of_step hstep
  | run _ word => exact start_run g a word
  | _ => rfl

theorem start_next? (g : Graph) (a : Automaton) (walk : PrefixWalk) :
    (PrefixWalk.next? g a walk).1.start = a.start := by
  cases walk with
  | fresh => rfl
  | finished => rfl
  | reading rest =>
    cases rest with
    | nil => rfl
    | cons x rest =>
      cases hstep : a.step g x with
      | error e => simp only [PrefixWalk.next?, hstep]
      | ok next =>
        simp only [PrefixWalk.next?, hstep]
        exact start_of_step hstep

end Automaton

namespace Session.Spares

theorem walk (walk : Walk) : s.Spares P (walk.next? s).2.2 := by
  cases walk with
  | states w =>
    rw [Walk.next?]
    split <;> exact .refl P s
  | edges w =>
    rw [Walk.next?]
    split <;> exact .refl P s
  | finished => exact .refl P s
  | verdicts q w =>
    rw [Walk.next?]
    split
    · exact .refl P s
    · next a hq => exact .put hq (Automaton.start_next? s.graph a w)

end Session.Spares

/-! ## Edits -/

/-- What can be done in a session to the states and automata that are there: any operation, or
another stop for an automaton. -/
inductive Edit where
  | operation (op : Operation)
  | setStop (q : AutomatonRef) (stop : Ref)
deriving Repr

/-- The state that an operation changes if it is there. -/
def Operation.touched? : Operation → Option Ref
  | .connect s _ _ => some s
  | .setFinal r _ => some r
  | _ => none

/-- The state that an edit changes if it is there. -/
def Edit.touched? : Edit → Option Ref
  | .operation op => op.touched?
  | .setStop .. => none

namespace Workspace

/-- What an edit leaves behind, whether or not it fails. -/
def edit (w : Workspace) : Edit → Workspace
  | .operation op => w.after op
  | .setStop q stop => (w.apply (SessionM.change q (·.setStop stop)) fun _ => .done).2

/-- What edits leave behind, one after another. -/
def editAll (w : Workspace) (edits : List Edit) : Workspace :=
  edits.foldl edit w

theorem spares_of_reader {op : Operation} (hop : op.reader? = some q) :
    w.session.Spares P (w.after op).session := by
  cases hq : w.session.automaton? q with
  | none =>
    rw [Operation.after_of_reader_eq_none hop hq]
    exact .refl P _
  | some a =>
    unfold after
    rw [Operation.perform_of_reader hop hq]
    exact .put hq (Automaton.start_read _ a op)

/-- One operation spares the states that it does not touch. -/
theorem spares_after {op : Operation} (hop : ∀ r, op.touched? = some r → ¬ P r) :
    w.session.Spares P (w.after op).session := by
  cases op with
  | newSource first =>
    have hgrows := w.session.heap.grows_addSource first
    exact .of_extends (.onHeap (m := HeapM.newSource first) hgrows)
  | newState ids isFinal =>
    have hgrows := w.session.heap.grows_addState ids isFinal
    exact .of_extends (.onHeap (m := HeapM.newState ids isFinal) hgrows)
  | connect s x t =>
    show w.session.Spares P ((SessionM.onHeap (HeapM.connect s x t)).run.run w.session).2
    rw [SessionM.run_onHeap, HeapM.run_connect]
    cases hconnect : w.session.heap.graph.connect s x t with
    | error e => exact .refl P _
    | ok g =>
      refine .setGraph (Graph.size_of_connect hconnect) fun hr hP => ?_
      exact Graph.state_of_connect_of_ne hconnect fun heq => hop s rfl (heq ▸ hP)
  | setFinal r isFinal =>
    refine .setGraph (Graph.size_setFinal ..) fun {q} _ hP => ?_
    have hne : q ≠ r := fun heq => hop r rfl (heq ▸ hP)
    exact Graph.state_setFinal_of_ne hne isFinal
  | copyGraph start images ids =>
    exact .of_extends (.onHeap (HeapM.grows_copyGraph w.session.heap start images ids))
  | automaton start stop ids =>
    exact .of_extends (.build (m := pure (.ofStates start stop ids)) (.refl _))
  | ofSymbol x ids =>
    exact .of_extends (.build (Automaton.ofSymbol_ensures w.session.heap x ids).left.grows)
  | concat p q => exact .of_extends (.concat _ p q)
  | copy q => exact .of_extends (.copy _ q)
  | reset | step | run | isAccepting | accepts => exact spares_of_reader rfl
  | verdicts => exact .refl P _
  | pull i =>
    show w.session.Spares P (w.pull i).2.session
    unfold pull
    cases w.walks[i]? with
    | none => exact .refl P _
    | some walk => exact .walk walk

theorem spares_edit {e : Edit} (he : ∀ r, e.touched? = some r → ¬ P r) :
    w.session.Spares P (w.edit e).session := by
  cases e with
  | operation op => exact spares_after he
  | setStop q stop =>
    show w.session.Spares P ((SessionM.change q (·.setStop stop)).run.run w.session).2
    cases hq : w.session.automaton? q with
    | none =>
      unfold SessionM.change
      rw [run_bind, SessionM.run_automaton_of_eq_none hq]
      exact .refl P _
    | some a =>
      rw [SessionM.run_change hq]
      exact .put hq rfl

/-- A list of edits spares the states that none of them touches. -/
theorem spares_editAll {edits : List Edit}
    (hedits : ∀ e ∈ edits, ∀ r, e.touched? = some r → ¬ P r) :
    w.session.Spares P (w.editAll edits).session := by
  induction edits generalizing w with
  | nil => exact .refl P _
  | cons e edits ih =>
    exact (spares_edit (hedits e List.mem_cons_self)).trans
      (ih fun e he => hedits e (List.mem_cons_of_mem _ he))

/-- An automaton whose states nobody touches gives the verdicts that it gave before. -/
theorem run_editAll (edits : List Edit) (hq : w.session.automaton? q = some a)
    (hstart : a.start ∈ w.session.graph) (hbelow : ∀ r, w.session.graph.Reaches a.start r → P r)
    (hedits : ∀ e ∈ edits, ∀ r, e.touched? = some r → ¬ P r) (word : List Symbol) :
    ((Operation.run q word).perform (w.editAll edits)).1 =
      ((Operation.run q word).perform w).1 := by
  have hspares := spares_editAll (w := w) hedits
  obtain ⟨a', hq', hsame⟩ := hspares.automaton hq
  rw [Operation.perform_of_reader rfl hq', Operation.perform_of_reader rfl hq]
  exact congrArg (Except.map Answer.verdict)
    (Automaton.run_congr hsame (fun r hr => hspares.state_eq (hr.mem hstart) (hbelow r hr)) word)

end Workspace

end EpsilonNfa
