import EpsilonNfa.Proofs.Inspection
import EpsilonNfa.Proofs.Prefixes

/-!
# Simulations that are looked at

A simulation with one automaton, by its walks and by direct calls, is inspected in between: words
are asked for, graphs are searched, traversed and exported, and the automaton is copied and put
behind others. Two sessions are compared, one with the inspections and one without. They do not
stay equal, because copies are made in the one only. But what the simulation reads is the same in
both: its automaton and its walks, and the states that were there at first (`Undisturbed`). This is
kept by each operation of the simulation, done in both, and by each inspection, done in the one
(`Undisturbed.operation`, `Undisturbed.inspection`), so the answers are the same too.
-/

namespace EpsilonNfa

variable {g g' : Graph} {S : Set Ref} {root q t : Ref} {l l' : List Ref} {x : Symbol}
variable {word : List Symbol} {a a' : Automaton} {r : AutomatonRef} {op : Operation}
variable {s : Session} {d : Inspected} {w : Workspace}

/-! ## Simulation in a set of states -/

namespace Automaton

/-- Start and cursor of the automaton are in the set. -/
structure Inside (S : Set Ref) (a : Automaton) : Prop where
  start : a.start ∈ S
  current : ∀ q ∈ a.current, q ∈ S

namespace Inside

theorem reset (ha : a.Inside S) : a.reset.Inside S where
  start := ha.start
  current q hq := by
    rw [List.mem_singleton.1 hq]
    exact ha.start

section Agreement

variable (hS : g.Confines S) (ha : a.Inside S)
include hS ha

theorem step (hstep : a.step g x = .ok a') : a'.Inside S := by
  obtain ⟨l, hl, rfl⟩ := step_eq_ok_iff.1 hstep
  exact ⟨ha.start, Graph.mem_of_step hS ha.current hl⟩

theorem feed (word : List Symbol) : (a.feed g word).1.Inside S where
  start := by
    rw [start_feed]
    exact ha.start
  current := (feed_congr hS (fun _ _ => rfl) rfl ha.current word).2

theorem run (word : List Symbol) : (a.run g word).1.Inside S := by
  have hfeed := ha.reset.feed hS word
  unfold Automaton.run
  split
  · next heq => rwa [heq] at hfeed
  · next heq => rwa [heq] at hfeed

/-- No operation that reads with the automaton leaves the set. -/
theorem read (op : Operation) : (op.read g a).1.Inside S := by
  cases op with
  | reset => exact ha.reset
  | step _ x =>
    cases hstep : a.step g x with
    | error e =>
      simp only [Operation.read, hstep]
      exact ha
    | ok next =>
      simp only [Operation.read, hstep]
      exact ha.step hS hstep
  | run _ word => exact ha.run hS word
  | _ => exact ha

theorem next? (walk : PrefixWalk) : (PrefixWalk.next? g a walk).1.Inside S := by
  cases walk with
  | fresh => exact ha.reset
  | finished => exact ha
  | reading rest =>
    cases rest with
    | nil => exact ha
    | cons x rest =>
      cases hstep : a.step g x with
      | error e =>
        simp only [PrefixWalk.next?, hstep]
        exact ha
      | ok next =>
        simp only [PrefixWalk.next?, hstep]
        exact ha.step hS hstep

variable (h : ∀ q ∈ S, g'.state q = g.state q)
include h

theorem step_eq (x : Symbol) : a.step g' x = a.step g x := by
  unfold Automaton.step
  rw [Graph.step_congr hS h ha.current]

theorem isAccepting_eq : a.isAccepting g' = a.isAccepting g :=
  Graph.acceptsAt_congr hS h ha.current

theorem feed_eq (word : List Symbol) : a.feed g' word = a.feed g word :=
  (feed_congr hS h rfl ha.current word).1.trans
    (feed_congr hS (fun _ _ => rfl) rfl ha.current word).1.symm

theorem run_eq (word : List Symbol) : a.run g' word = a.run g word := by
  have hend := ha.reset.feed hS word
  unfold Automaton.run
  rw [ha.reset.feed_eq hS h]
  rcases hfeed : a.reset.feed g word with ⟨last, outcome⟩
  rw [hfeed] at hend
  cases outcome with
  | error e => rfl
  | ok _ => exact congrArg (fun verdict => (last, Except.ok verdict)) (hend.isAccepting_eq hS h)

theorem accepts_eq (word : List Symbol) : a.accepts g' word = a.accepts g word :=
  congrArg Prod.snd <| run_eq (a := .ofStates a.start a.stop a.ids) hS ha.reset h word

/-- An operation that reads with the automaton does the same in both graphs. -/
theorem read_eq (op : Operation) : op.read g' a = op.read g a := by
  cases op with
  | step _ x => simp only [Operation.read, ha.step_eq hS h]
  | run _ word => simp only [Operation.read, ha.run_eq hS h]
  | isAccepting => simp only [Operation.read, ha.isAccepting_eq hS h]
  | accepts _ word => simp only [Operation.read, ha.accepts_eq hS h]
  | _ => rfl

theorem next?_eq (walk : PrefixWalk) :
    PrefixWalk.next? g' a walk = PrefixWalk.next? g a walk := by
  cases walk with
  | fresh word => simp only [PrefixWalk.next?, ha.reset.isAccepting_eq hS h]
  | finished => rfl
  | reading rest =>
    cases rest with
    | nil => rfl
    | cons x rest =>
      simp only [PrefixWalk.next?, ha.step_eq hS h]
      cases hstep : a.step g x with
      | error e => rfl
      | ok next => simp only [(ha.step hS hstep).isAccepting_eq hS h]

end Agreement

end Inside

end Automaton

/-! ## Any order -/

/-- Both fail with one error, or both give one set. -/
def SameSet : Except Error (List Ref) → Except Error (List Ref) → Prop
  | .ok l, .ok l' => ∀ t, t ∈ l ↔ t ∈ l'
  | .error e, .error e' => e = e'
  | _, _ => False

theorem SameSet.exists_of_ok {o : Except Error (List Ref)} (h : SameSet o (.ok l)) :
    ∃ l', o = .ok l' ∧ ∀ t, t ∈ l' ↔ t ∈ l := by
  cases o with
  | ok l' => exact ⟨l', rfl, h⟩
  | error _ => exact absurd h id

theorem SameSet.eq_of_error {o : Except Error (List Ref)} {e : Error} (h : SameSet o (.error e)) :
    o = .error e := by
  cases o with
  | ok _ => exact absurd h id
  | error _ => exact congrArg Except.error h

namespace Graph

theorem foldlM_noteTarget_of_not_isHashable (hx : x.isHashable = false) (found : IdMap) :
    l.foldlM (g.noteTarget x) found = if l = [] then .ok found else .error .unhashable := by
  cases l with
  | nil => rfl
  | cons q l =>
    rw [List.foldlM_cons, noteTarget_of_not_isHashable hx]
    rfl

/-- A step from a set gives one set, whatever the orders. -/
theorem sameSet_stepVia (hd : g.DistinctIds root) (hl : ∀ q ∈ l, g.Reaches root q)
    (hsame : ∀ t, t ∈ l' ↔ t ∈ l) (p p' : Arrangement) (x : Symbol) :
    SameSet (g.stepVia p p' l' x) (g.step l x) := by
  have hclosure : ∀ {t}, t ∈ p'.arrange (g.epsilonClosure (p.arrange l')) ↔
      ∃ q ∈ l, g.EpsilonReaches q t := mem_arranged_closure hd hl hsame p p'
  have hclosure' : ∀ {t}, t ∈ g.epsilonClosure l ↔ ∃ q ∈ l, g.EpsilonReaches q t :=
    mem_epsilonClosure_of_distinctIds hd hl
  unfold stepVia step
  cases hx : x.isHashable with
  | true =>
    obtain ⟨found, hfound⟩ := exists_foldlM_noteTarget hx
      (p'.arrange (g.epsilonClosure (p.arrange l'))) ∅
    obtain ⟨found', hfound'⟩ := exists_foldlM_noteTarget hx (g.epsilonClosure l) ∅
    rw [hfound, hfound']
    exact fun t => (mem_values_noteTargets hd hl hclosure hfound).trans
      (mem_values_noteTargets hd hl hclosure' hfound').symm
  | false =>
    have hempty : p'.arrange (g.epsilonClosure (p.arrange l')) = [] ↔ g.epsilonClosure l = [] := by
      rw [List.eq_nil_iff_forall_not_mem, List.eq_nil_iff_forall_not_mem]
      exact forall_congr' fun t => not_congr (hclosure.trans hclosure'.symm)
    rw [foldlM_noteTarget_of_not_isHashable hx, foldlM_noteTarget_of_not_isHashable hx]
    simp only [hempty]
    split
    · exact fun t => Iff.rfl
    · exact rfl

end Graph

/-! ## What is seen of a run -/

/-- The answers to operations, one after another, each with the automaton that it leaves. -/
def Workspace.transcript (r : AutomatonRef) (w : Workspace) :
    List Operation → List (Except Error Answer × Option Automaton)
  | [] => []
  | op :: ops =>
    ((op.perform w).1, (w.after op).session.automaton? r) :: (w.after op).transcript r ops

/-- The answers to the operations among events, each with the automaton that it leaves. -/
def Inspected.transcript (r : AutomatonRef) (d : Inspected) :
    List Event → List (Except Error Answer × Option Automaton)
  | [] => []
  | .operation op :: events =>
    ((op.perform d.workspace).1, (d.workspace.after op).session.automaton? r) ::
      (d.after (.operation op)).transcript r events
  | .inspection i :: events => (d.after (.inspection i)).transcript r events

/-- The operation belongs to a simulation with the automaton: it calls it directly, begins a walk
over its verdicts or pulls one. -/
def Operation.Simulates (r : AutomatonRef) : Operation → Prop
  | .reset q | .step q _ | .run q _ | .isAccepting q | .accepts q _ | .verdicts q _ => q = r
  | .pull _ => True
  | _ => False

/-! ## Two runs -/

/-- Of two runs from the session `s` the one with inspections is still where the other is, as far as
the simulation with the automaton can see. -/
structure Undisturbed (s : Session) (S : Set Ref) (r : AutomatonRef) (start : Ref) (d : Inspected)
    (w : Workspace) : Prop where
  heap_eq : w.session.heap = s.heap
  grows : s.heap.Extends d.workspace.session.heap
  automaton : ∃ a, w.session.automaton? r = some a ∧ d.workspace.session.automaton? r = some a ∧
    a.Inside S ∧ a.start = start
  walks_eq : d.workspace.walks = w.walks
  walks : ∀ walk ∈ w.walks, ∃ rest, walk = .verdicts r rest

namespace Undisturbed

variable {start : Ref} {i : Nat} {walk : PrefixWalk} {events : List Event}

/-- Before anything happens the two runs are one. -/
theorem init (hr : d.workspace.session.automaton? r = some a) (ha : a.Inside S)
    (hwalks : ∀ walk ∈ d.workspace.walks, ∃ rest, walk = .verdicts r rest) :
    Undisturbed d.workspace.session S r a.start d d.workspace :=
  ⟨rfl, .refl _, ⟨a, hr, hr, ha, rfl⟩, rfl, hwalks⟩

variable (hu : Undisturbed s S r start d w)
include hu

theorem graph_eq : w.session.graph = s.graph :=
  congrArg Heap.graph hu.heap_eq

theorem inspection (i : Inspection) : Undisturbed s S r start (d.after (.inspection i)) w := by
  have hextends := i.extends_perform d
  obtain ⟨a, hw, hd, ha⟩ := hu.automaton
  exact
    { heap_eq := hu.heap_eq
      grows := hu.grows.trans hextends.session.heap
      automaton := ⟨a, hw, hextends.session.automaton hd, ha⟩
      walks_eq := hextends.walks_eq.trans hu.walks_eq
      walks := hu.walks }

theorem verdicts (word : List Symbol) :
    Undisturbed s S r start (d.after (.operation (.verdicts r word)))
      (w.after (.verdicts r word)) where
  heap_eq := hu.heap_eq
  grows := hu.grows
  automaton := hu.automaton
  walks_eq := congrArg (· ++ [Walk.verdictsOf r word]) hu.walks_eq
  walks walk hwalk := by
    rcases List.mem_append.1 hwalk with hwalk | hwalk
    · exact hu.walks walk hwalk
    · exact ⟨.fresh word, List.mem_singleton.1 hwalk⟩

variable (hS : s.graph.Confines S) (hmem : ∀ q ∈ S, q ∈ s.graph)
include hS hmem

/-- A direct call is answered alike. -/
theorem direct (hop : op.reader? = some r) :
    (op.perform d.workspace).1 = (op.perform w).1 ∧
      Undisturbed s S r start (d.after (.operation op)) (w.after op) := by
  obtain ⟨a, hw, hd, ha, hstart⟩ := hu.automaton
  have hperform := Operation.perform_of_reader hop hw
  have hperform' := Operation.perform_of_reader hop hd
  have hread : op.read d.workspace.session.graph a = op.read s.graph a :=
    ha.read_eq hS (fun q hq => hu.grows.state_eq q (hmem q hq)) op
  rw [hu.graph_eq] at hperform
  rw [hread] at hperform'
  refine ⟨by rw [hperform, hperform'], ?_⟩
  unfold Inspected.after Workspace.after
  simp only [hperform, hperform']
  exact
    { heap_eq := hu.heap_eq
      grows := hu.grows
      automaton := ⟨_, Session.automaton?_put_self hw _, Session.automaton?_put_self hd _,
        ha.read hS op, (Automaton.start_read s.graph a op).trans hstart⟩
      walks_eq := hu.walks_eq
      walks := hu.walks }

/-- A pull gives the same item. -/
theorem pull (i : Nat) : (d.workspace.pull i).1 = (w.pull i).1 ∧
    Undisturbed s S r start (d.after (.operation (.pull i))) (w.after (.pull i)) := by
  unfold Inspected.after Workspace.after
  simp only [Operation.perform_pull]
  cases hi : w.walks[i]? with
  | none =>
    have hi' : d.workspace.walks[i]? = none := by rwa [hu.walks_eq]
    rw [Workspace.pull_of_getElem?_eq_none hi, Workspace.pull_of_getElem?_eq_none hi']
    exact ⟨rfl, hu⟩
  | some walk =>
    obtain ⟨walk, rfl⟩ := hu.walks walk (List.mem_of_getElem? hi)
    have hi' : d.workspace.walks[i]? = some (.verdicts r walk) := by rwa [hu.walks_eq]
    obtain ⟨a, hw, hd, ha, hstart⟩ := hu.automaton
    have hpull := Workspace.pull_of_verdicts hi hw
    have hpull' := Workspace.pull_of_verdicts hi' hd
    have hnext : PrefixWalk.next? d.workspace.session.graph a walk =
        PrefixWalk.next? s.graph a walk :=
      ha.next?_eq hS (fun q hq => hu.grows.state_eq q (hmem q hq)) walk
    rw [hu.graph_eq] at hpull
    rw [hnext, hu.walks_eq] at hpull'
    rw [hpull, hpull']
    refine ⟨rfl, ?_⟩
    exact
      { heap_eq := hu.heap_eq
        grows := hu.grows
        automaton := ⟨_, Session.automaton?_put_self hw _, Session.automaton?_put_self hd _,
          ha.next? hS walk, (Automaton.start_next? s.graph a walk).trans hstart⟩
        walks_eq := rfl
        walks := fun other hother => (List.mem_or_eq_of_mem_set hother).elim (hu.walks other)
          fun heq => ⟨_, heq⟩ }

/-- An operation of the simulation is answered alike, and the runs stay together. -/
theorem operation (hop : op.Simulates r) : (op.perform d.workspace).1 = (op.perform w).1 ∧
    Undisturbed s S r start (d.after (.operation op)) (w.after op) := by
  cases op with
  | reset q | step q x | run q word | isAccepting q | accepts q word =>
    cases hop
    exact hu.direct hS hmem rfl
  | verdicts q word =>
    cases hop
    exact ⟨rfl, hu.verdicts word⟩
  | pull i => exact hu.pull hS hmem i
  | _ => cases hop

/-- So they do along any events. -/
theorem run (hevents : ∀ op, .operation op ∈ events → op.Simulates r) :
    d.transcript r events = w.transcript r (events.filterMap Event.operation?) ∧
      Undisturbed s S r start (d.afterAll events)
        (w.afterAll (events.filterMap Event.operation?)) := by
  induction events generalizing d w with
  | nil => exact ⟨rfl, hu⟩
  | cons event events ih =>
    have hrest : ∀ op, .operation op ∈ events → op.Simulates r := fun op hop =>
      hevents op (List.mem_cons_of_mem _ hop)
    cases event with
    | inspection i => exact ih (hu.inspection i) hrest
    | operation op =>
      obtain ⟨hanswer, hnext⟩ := hu.operation hS hmem (hevents op List.mem_cons_self)
      obtain ⟨htranscript, hend⟩ := ih hnext hrest
      obtain ⟨a, hw, hd, -⟩ := hnext.automaton
      have hautomaton : (d.workspace.after op).session.automaton? r =
          (w.after op).session.automaton? r := hd.trans hw.symm
      refine ⟨?_, hend⟩
      show (_, _) :: (d.after (.operation op)).transcript r events = _
      rw [htranscript, hanswer, hautomaton]
      rfl

end Undisturbed

/-- Inspections do not disturb a simulation. Take any operations with one automaton, direct calls
and walks over its verdicts, and put any inspections between them, of this automaton or of others,
whether they find something or fail: traversals, searches, exports, verdicts on words, copies and
concatenations. Then all operations are answered as they are without the inspections, and at any
time the automaton is as it is then, with the same cursor. A word that is asked for at any time has
the verdict that a reading gives, then or at first, wherever the cursor is. And where ids tell apart
what lies below the start, all this is true of the cursor as a set: verdicts and steps do not depend
on the order in which it or its closure is gone through. -/
theorem Inspected.undisturbed {events : List Event}
    (hr : d.workspace.session.automaton? r = some a)
    (hstart : a.start ∈ d.workspace.session.graph)
    (hcurrent : ∀ q ∈ a.current, q ∈ d.workspace.session.graph)
    (hwalks : ∀ walk ∈ d.workspace.walks, ∃ rest, walk = .verdicts r rest)
    (hevents : ∀ op, .operation op ∈ events → op.Simulates r) :
    let g := d.workspace.session.graph
    let ops := events.filterMap Event.operation?
    let d' := d.afterAll events
    let g' := d'.workspace.session.graph
    d.transcript r events = d.workspace.transcript r ops ∧
      d'.workspace.session.automaton? r = (d.workspace.afterAll ops).session.automaton? r ∧
      (∀ word current,
        ((Inspection.accepts r word).perform d').1 =
            (Automaton.run g { a with current } word).2.map .verdict ∧
          ((Operation.run r word).perform d'.workspace).1 =
            (Automaton.run g { a with current } word).2.map .verdict) ∧
      (g.DistinctIds a.start → (∀ q ∈ a.current, g.Reaches a.start q) →
        ∃ a', d'.workspace.session.automaton? r = some a' ∧
          ∀ l, (∀ t, t ∈ l ↔ t ∈ a'.current) → ∀ p p' : Arrangement,
            g'.acceptsVia p p' l = a'.isAccepting g' ∧
            ∀ x, SameSet (g'.stepVia p p' l x) (g'.step a'.current x)) := by
  intro g ops d' g'
  have hu := Undisturbed.init hr (S := {q | q ∈ g}) ⟨hstart, hcurrent⟩ hwalks
  obtain ⟨htranscript, hend⟩ := hu.run (.all g) (fun _ hq => hq) hevents
  obtain ⟨a', hw', hd', -, hstart'⟩ := hend.automaton
  refine ⟨htranscript, hd'.trans hw'.symm, fun word current => ?_, fun hd hbelow => ?_⟩
  · have hverdict : ∀ b : Automaton, b.start = a.start →
        (b.run g' word).2 = (Automaton.run g { a with current } word).2 := fun b hb =>
      Automaton.run_congr hb (fun q hq => hend.grows.state_eq q (hq.mem hstart)) word
    constructor
    · show ((SessionM.accepts r word).run.run d'.workspace.session).1.map Finding.verdict = _
      rw [SessionM.run_accepts hd']
      have hcopy := hverdict (.ofStates a'.start a'.stop a'.ids) hstart'
      exact congrArg (Except.map Finding.verdict) hcopy
    · rw [Operation.perform_of_reader rfl hd']
      exact congrArg (Except.map Answer.verdict) (hverdict a' hstart')
  · have hu := Undisturbed.init hr (S := {q | g.Reaches a.start q}) ⟨.refl, hbelow⟩ hwalks
    obtain ⟨-, hend⟩ := hu.run (.below g a.start) (fun _ hq => hq.mem hstart) hevents
    obtain ⟨a', -, hd', ha', -⟩ := hend.automaton
    have hdistinct : g'.DistinctIds a.start := hd.of_state_eq hstart hend.grows.state_eq
    have hbelow' : ∀ q ∈ a'.current, g'.Reaches a.start q := fun q hq =>
      (hend.grows.reaches_iff hstart).2 (ha'.current q hq)
    exact ⟨a', hd', fun l hl p p' => ⟨Graph.acceptsVia_eq hdistinct hbelow' hl p p',
      Graph.sameSet_stepVia hdistinct hbelow' hl p p'⟩⟩

/-- Round the loop, by a walk and a direct step. In between the automaton is copied, put behind
itself and traversed in part, and a search and the question for a word fail. -/
theorem Inspected.undisturbed_loop :
    let a : Automaton := ⟨⟨0⟩, ⟨1⟩, ⟨0⟩, [⟨1⟩]⟩
    let d : Inspected :=
      { workspace :=
          { session := { heap := { graph := .loop, nextIds := #[2] }, automata := #[a] }
            walks := [.verdictsOf ⟨0⟩ (Symbol.ofText "aa")] } }
    let events : List Event :=
      [.operation (.pull 0), .inspection (.copy ⟨0⟩), .operation (.pull 0),
        .inspection (.concat ⟨0⟩ ⟨0⟩), .inspection (.states ⟨0⟩),
        .operation (.step ⟨0⟩ (.text "a")), .inspection (.next 0),
        .inspection (.find ⟨0⟩ "nothing" fun _ _ => .ok false),
        .inspection (.accepts ⟨0⟩ [.list []]), .operation (.pull 0)]
    d.workspace.session.automaton? ⟨0⟩ = some a ∧ a.start ∈ d.workspace.session.graph ∧
      (∀ q ∈ a.current, q ∈ d.workspace.session.graph) ∧
      (∀ walk ∈ d.workspace.walks, ∃ rest, walk = .verdicts ⟨0⟩ rest) ∧
      (∀ op, .operation op ∈ events → op.Simulates ⟨0⟩) ∧
      d.transcript ⟨0⟩ events = d.workspace.transcript ⟨0⟩
        [.pull 0, .pull 0, .step ⟨0⟩ (.text "a"), .pull 0] ∧
      ((Inspection.accepts ⟨0⟩ (Symbol.ofText "a")).perform (d.afterAll events)).1 =
        .ok (.verdict true) := by
  intro a d events
  have hr : d.workspace.session.automaton? ⟨0⟩ = some a := rfl
  have hstart : a.start ∈ d.workspace.session.graph := by decide
  have hcurrent : ∀ q ∈ a.current, q ∈ d.workspace.session.graph := by decide
  have hwalks : ∀ walk ∈ d.workspace.walks, ∃ rest, walk = .verdicts ⟨0⟩ rest := by
    intro walk hwalk
    exact ⟨_, List.mem_singleton.1 hwalk⟩
  have hevents : ∀ op, .operation op ∈ events → op.Simulates ⟨0⟩ := by
    intro op hop
    simp only [events, List.mem_cons, List.not_mem_nil, Event.operation.injEq, reduceCtorEq,
      or_false, false_or] at hop
    rcases hop with rfl | rfl | rfl | rfl <;> trivial
  obtain ⟨htranscript, -, haccepts, -⟩ :=
    Inspected.undisturbed hr hstart hcurrent hwalks hevents
  have hverdict : (a.run Graph.loop (Symbol.ofText "a")).2 = .ok true := by cbv
  refine ⟨hr, hstart, hcurrent, hwalks, hevents, htranscript, ?_⟩
  rw [(haccepts (Symbol.ofText "a") a.current).1]
  exact congrArg (Except.map Finding.verdict) hverdict

end EpsilonNfa
