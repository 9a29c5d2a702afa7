import EpsilonNfa.Proofs.Operation
import Mathlib.Data.List.Induction
import Mathlib.Data.Set.Insert

/-!
# One cursor for everyone

Direct calls and any number of suspended walks move the one cursor of an automaton. Whatever their
order, the cursor depends on one thing only, the letters that anyone has fed to it since anyone last
put it back to the start (`history`): `Workspace.shared_cursor`.

The letters are told from the operations alone. A walk puts the cursor back when it is pulled for
the first time and feeds it one letter of its word at each later pull, so what a pull does depends
on how often the same walk was pulled before, and on nothing that others have done in between.
-/

namespace EpsilonNfa

/-! ## The set of states after a word -/

namespace Graph

/-- The targets of a letter from the states to which epsilon edges lead from a set. -/
def targetsOf (g : Graph) (states : Set Ref) (x : Symbol) : Set Ref :=
  {t | ∃ s ∈ states, ∃ p, g.EpsilonReaches s p ∧
    ∃ y, (y, t) ∈ (g.state p).onSymbol.entries ∧ y.Same x}

/-- The states reached from `start` by a word, before epsilon edges are followed behind it. -/
def afterWord (g : Graph) (start : Ref) (word : List Symbol) : Set Ref :=
  word.foldl g.targetsOf {start}

variable {g : Graph} {start t : Ref} {x : Symbol} {word : List Symbol}

@[simp] theorem afterWord_nil : g.afterWord start [] = {start} := rfl

theorem afterWord_concat :
    g.afterWord start (word ++ [x]) = g.targetsOf (g.afterWord start word) x := by
  simp [afterWord]

theorem mem_targetsOf {states : Set Ref} :
    t ∈ g.targetsOf states x ↔ ∃ s ∈ states, g.Lands s [x] t := by
  constructor
  · rintro ⟨s, hs, p, hp, y, hy, hsame⟩
    exact ⟨s, hs, .letter hp hy hsame (.nil t)⟩
  · rintro ⟨s, hs, hlands⟩
    cases hlands with
    | letter pass edge same rest =>
      cases rest
      exact ⟨s, hs, _, pass, _, edge, same⟩

theorem mem_foldl_targetsOf {states : Set Ref} :
    t ∈ word.foldl g.targetsOf states ↔ ∃ s ∈ states, g.Lands s word t := by
  induction word generalizing states with
  | nil =>
    constructor
    · exact fun ht => ⟨t, ht, .nil t⟩
    · rintro ⟨s, hs, hlands⟩
      cases hlands
      exact hs
  | cons x word ih =>
    rw [List.foldl_cons, ih]
    constructor
    · rintro ⟨q, hq, hqt⟩
      obtain ⟨s, hs, hsq⟩ := mem_targetsOf.1 hq
      exact ⟨s, hs, lands_cons.2 ⟨q, hsq, hqt⟩⟩
    · rintro ⟨s, hs, hst⟩
      obtain ⟨q, hsq, hqt⟩ := lands_cons.1 hst
      exact ⟨q, mem_targetsOf.2 ⟨s, hs, hsq⟩, hqt⟩

/-- The states after a word are the ends of the paths that read it and stop with its last letter. -/
theorem mem_afterWord : t ∈ g.afterWord start word ↔ g.Lands start word t := by
  unfold afterWord
  rw [mem_foldl_targetsOf]
  simp only [Set.mem_singleton_iff, exists_eq_left]

theorem mem_afterWord_append {v : List Symbol} :
    t ∈ g.afterWord start (word ++ v) ↔ ∃ s ∈ g.afterWord start word, g.Lands s v t := by
  rw [← mem_foldl_targetsOf]
  unfold afterWord
  rw [List.foldl_append]

end Graph

/-- The automaton is `a` with the states after a word at its cursor. -/
def Automaton.HasRead (g : Graph) (a : Automaton) (word : List Symbol) (a' : Automaton) : Prop :=
  ∃ l, a' = { a with current := l } ∧ ∀ t, t ∈ l ↔ t ∈ g.afterWord a.start word

theorem Automaton.hasRead_reset (g : Graph) (a : Automaton) : a.HasRead g [] a.reset :=
  ⟨[a.start], rfl, fun t => by simp⟩

namespace Automaton.HasRead

variable {g : Graph} {a a' : Automaton} {word v : List Symbol} {x : Symbol}

theorem reset (h : a.HasRead g word a') : a.HasRead g [] a'.reset := by
  obtain ⟨l, rfl, -⟩ := h
  exact hasRead_reset g a

theorem reaches (h : a.HasRead g word a') : ∀ t ∈ a'.current, g.Reaches a.start t := by
  obtain ⟨l, rfl, hl⟩ := h
  exact fun t ht => (Graph.mem_afterWord.1 ((hl t).1 ht)).reaches

variable (hd : g.DistinctIds a.start)
include hd

theorem feed (h : a.HasRead g word a') (hv : ∀ x ∈ v, x.isHashable = true) :
    ∃ a'', a'.feed g v = (a'', .ok ()) ∧ a.HasRead g (word ++ v) a'' := by
  have hbelow := h.reaches
  obtain ⟨l, rfl, hl⟩ := h
  obtain ⟨l', hfeed⟩ := exists_feed (g := g) hv { a with current := l }
  refine ⟨_, hfeed, l', rfl, fun t => ?_⟩
  have hmem : t ∈ l' ↔ ∃ s ∈ l, g.Lands s v t := mem_current_of_feed hd hbelow hfeed
  rw [hmem, Graph.mem_afterWord_append]
  simp only [hl]

theorem step (h : a.HasRead g word a') (hx : x.isHashable = true) :
    ∃ a'', a'.step g x = .ok a'' ∧ a.HasRead g (word ++ [x]) a'' := by
  obtain ⟨a'', hfeed, h''⟩ := h.feed hd (v := [x]) (by simpa using hx)
  obtain ⟨l, hstep, hnil⟩ := feed_cons_eq_ok_iff.1 hfeed
  cases hnil
  exact ⟨_, step_eq_ok_iff.2 ⟨l, hstep, rfl⟩, h''⟩

theorem isAccepting_iff (h : a.HasRead g word a') :
    a'.isAccepting g = true ↔ g.Accepts a.start word := by
  have hbelow := h.reaches
  obtain ⟨l, rfl, hl⟩ := h
  unfold isAccepting
  rw [Graph.acceptsAt_iff hd hbelow]
  simp only [hl, Graph.mem_afterWord, Graph.Accepts, Graph.reads_iff_lands]
  constructor
  · rintro ⟨s, hs, t, hst, hfinal⟩
    exact ⟨t, ⟨s, hs, hst⟩, hfinal⟩
  · rintro ⟨t, ⟨s, hs, hst⟩, hfinal⟩
    exact ⟨s, hs, t, hst, hfinal⟩

theorem run (h : a.HasRead g word a') (hv : ∀ x ∈ v, x.isHashable = true) :
    ∃ a'', a'.run g v = (a'', .ok (a''.isAccepting g)) ∧ a.HasRead g v a'' := by
  obtain ⟨a'', hfeed, h''⟩ := h.reset.feed hd hv
  exact ⟨a'', run_eq_of_feed hfeed, h''⟩

end Automaton.HasRead

/-! ## What is fed to the cursor -/

/-- What can happen to a cursor. -/
inductive CursorEvent where
  | reset
  | fed (x : Symbol)

/-- The letters fed since the last reset. -/
def sinceReset (events : List CursorEvent) : List Symbol :=
  events.foldl (fun fed event => match event with
    | .reset => []
    | .fed x => fed ++ [x]) []

/-- How often the walk at a position was pulled. -/
def pulls (position : Nat) (ops : List Operation) : Nat :=
  ops.countP fun op => match op with
    | .pull i => i = position
    | _ => false

/-- What an operation does to the cursor after the operations `before`, where the walks are over the
given words. -/
def Operation.events (words : List (List Symbol)) (before : List Operation) :
    Operation → List CursorEvent
  | .reset _ => [.reset]
  | .step _ x => [.fed x]
  | .run _ word => .reset :: word.map .fed
  | .pull i =>
    match words[i]?, pulls i before with
    | none, _ => []
    | some _, 0 => [.reset]
    | some word, n + 1 => word[n]?.toList.map .fed
  | _ => []

/-- What operations do to the cursor, one after another behind the operations `before`. -/
def eventsFrom (words : List (List Symbol)) (before : List Operation) :
    List Operation → List CursorEvent
  | [] => []
  | op :: ops => op.events words before ++ eventsFrom words (before ++ [op]) ops

/-- The letters that operations have fed to the cursor since they last put it back. -/
def history (words : List (List Symbol)) (ops : List Operation) : List Symbol :=
  sinceReset (eventsFrom words [] ops)

/-- The word that the verdict of an operation is about, if it gives one: the history with the
operation, except where the word is part of the question. -/
def Operation.judged? (words : List (List Symbol)) (before : List Operation) (op : Operation) :
    Option (List Symbol) :=
  match op with
  | .run .. | .isAccepting _ => some (history words (before ++ [op]))
  | .accepts _ word => some word
  | .pull i =>
    match words[i]? with
    | none => none
    | some word =>
      if pulls i before ≤ word.length then some (history words (before ++ [op])) else none
  | _ => none

theorem eventsFrom_concat (words : List (List Symbol)) (before ops : List Operation)
    (op : Operation) : eventsFrom words before (ops ++ [op]) =
      eventsFrom words before ops ++ op.events words (before ++ ops) := by
  induction ops generalizing before with
  | nil => simp [eventsFrom]
  | cons first ops ih =>
    simp only [List.cons_append, eventsFrom, ih, List.append_assoc, List.nil_append]

theorem sinceReset_append_fed (events : List CursorEvent) (v : List Symbol) :
    sinceReset (events ++ v.map .fed) = sinceReset events ++ v := by
  induction v generalizing events with
  | nil => simp
  | cons x v ih =>
    rw [List.map_cons, List.append_cons, ih]
    simp [sinceReset]

theorem history_concat_of_fed {words : List (List Symbol)} {ops : List Operation} {op : Operation}
    {v : List Symbol} (h : op.events words ops = v.map .fed) :
    history words (ops ++ [op]) = history words ops ++ v := by
  unfold history
  rw [eventsFrom_concat, List.nil_append, h, sinceReset_append_fed]

theorem history_concat_of_reset {words : List (List Symbol)} {ops : List Operation}
    {op : Operation} {v : List Symbol} (h : op.events words ops = .reset :: v.map .fed) :
    history words (ops ++ [op]) = v := by
  unfold history
  rw [eventsFrom_concat, List.nil_append, h, List.append_cons, sinceReset_append_fed]
  simp [sinceReset]

theorem pulls_concat (i : Nat) (ops : List Operation) (op : Operation) :
    pulls i (ops ++ [op]) = pulls i ops + pulls i [op] := by
  simp [pulls]

theorem pulls_pull_self (i : Nat) : pulls i [.pull i] = 1 := by
  simp [pulls]

/-- Where a walk over a word stands after a number of pulls. -/
def PrefixWalk.afterPulls (word : List Symbol) : Nat → PrefixWalk
  | 0 => .fresh word
  | n + 1 => if n ≤ word.length then .reading (word.drop n) else .finished

namespace PrefixWalk

variable {word : List Symbol} {n : Nat}

theorem afterPulls_of_le (h : n ≤ word.length) :
    afterPulls word (n + 1) = .reading (word.drop n) :=
  if_pos h

theorem afterPulls_of_lt (h : word.length < n) : afterPulls word (n + 1) = .finished :=
  if_neg (Nat.not_le_of_lt h)

end PrefixWalk

/-! ## One operation -/

/-- The operation uses the cursor of the one automaton, with letters that can key a table. -/
def Operation.UsesCursor (r : AutomatonRef) : Operation → Prop
  | .reset q | .isAccepting q => q = r
  | .step q x => q = r ∧ x.isHashable = true
  | .run q word | .accepts q word => q = r ∧ ∀ x ∈ word, x.isHashable = true
  | .pull _ => True
  | _ => False

/-- The answer holds a verdict if one is due, and the verdict says whether the word is accepted. -/
def Answer.Judges (accepted : List Symbol → Prop) (answer : Answer) :
    Option (List Symbol) → Prop
  | some word => ∃ verdict, answer.verdict? = some verdict ∧ (verdict = true ↔ accepted word)
  | none => answer.verdict? = none

/-- What is left of a session in which the cursor of one automaton was used, with walks over the
given words: nothing but the cursor and the walks has changed, the cursor holds the states after the
history, and every walk stands where its own pulls have brought it. -/
structure Attended (s : Session) (r : AutomatonRef) (a : Automaton) (words : List (List Symbol))
    (ops : List Operation) (w : Workspace) : Prop where
  heap_eq : w.session.heap = s.heap
  hasRead : ∃ a', w.session.automaton? r = some a' ∧ a.HasRead s.graph (history words ops) a'
  walks : ∀ i, w.walks[i]? =
    words[i]?.map fun word => Walk.verdicts r (.afterPulls word (pulls i ops))

variable {s : Session} {r : AutomatonRef} {a a' : Automaton} {words : List (List Symbol)}
variable {ops : List Operation} {op : Operation} {w : Workspace} {fed : List Symbol}

namespace Attended

theorem init (hr : s.automaton? r = some a) (hstart : a.current = [a.start]) :
    Attended s r a words [] ⟨s, words.map (.verdictsOf r)⟩ where
  heap_eq := rfl
  hasRead := by
    refine ⟨a, hr, [a.start], ?_, fun t => by simp [history, eventsFrom, sinceReset]⟩
    rw [← hstart]
  walks i := by
    rw [List.getElem?_map]
    rfl

theorem graph_eq (h : Attended s r a words ops w) : w.session.graph = s.graph :=
  congrArg Heap.graph h.heap_eq

end Attended

/-- What a direct call does to the cursor, and what it answers. -/
theorem Automaton.HasRead.read {q : AutomatonRef} (hd : s.graph.DistinctIds a.start)
    (h : a.HasRead s.graph (history words ops) a') (hop : op.UsesCursor r)
    (hq : op.reader? = some q) :
    q = r ∧ ∃ answer, (op.read s.graph a').2 = .ok answer ∧
      a.HasRead s.graph (history words (ops ++ [op])) (op.read s.graph a').1 ∧
      answer.Judges (s.graph.Accepts a.start) (op.judged? words ops) := by
  cases op with
  | reset q =>
    cases hq
    refine ⟨hop, .done, rfl, ?_, rfl⟩
    rw [history_concat_of_reset (v := []) rfl]
    exact h.reset
  | step q x =>
    cases hq
    obtain ⟨hq, hx⟩ := hop
    obtain ⟨a'', hstep, h''⟩ := h.step hd hx
    rw [history_concat_of_fed (v := [x]) rfl]
    simp only [Operation.read, hstep]
    exact ⟨hq, _, rfl, h'', rfl⟩
  | run q v =>
    cases hq
    obtain ⟨hq, hv⟩ := hop
    obtain ⟨a'', hrun, h''⟩ := h.run hd hv
    have hfed : history words (ops ++ [.run q v]) = v := history_concat_of_reset rfl
    simp only [Operation.read, hrun, Operation.judged?, hfed]
    exact ⟨hq, _, rfl, h'', _, rfl, h''.isAccepting_iff hd⟩
  | isAccepting q =>
    cases hq
    have hfed : history words (ops ++ [.isAccepting q]) = history words ops ++ [] :=
      history_concat_of_fed rfl
    simp only [Operation.read, Operation.judged?, hfed, List.append_nil]
    exact ⟨hop, _, rfl, h, _, rfl, h.isAccepting_iff hd⟩
  | accepts q v =>
    cases hq
    obtain ⟨hq, hv⟩ := hop
    obtain ⟨l, rfl, hl⟩ := h
    obtain ⟨verdict, hverdict, hiff, -⟩ :=
      Automaton.run_verdict (a := .ofStates a.start a.stop a.ids) hd hv
    have hfed : history words (ops ++ [.accepts q v]) = history words ops ++ [] :=
      history_concat_of_fed rfl
    simp only [Operation.read, Operation.judged?, hfed, List.append_nil, Automaton.accepts,
      hverdict]
    exact ⟨hq, _, rfl, ⟨l, rfl, hl⟩, verdict, rfl, hiff⟩
  | _ => cases hq

/-- What a pull does to the cursor and to the walk, and what it answers. -/
theorem Automaton.HasRead.next? {i : Nat} {word : List Symbol} (hd : s.graph.DistinctIds a.start)
    (h : a.HasRead s.graph (history words ops) a') (hi : words[i]? = some word)
    (hword : ∀ x ∈ word, x.isHashable = true) :
    ∃ a'' item, PrefixWalk.next? s.graph a' (.afterPulls word (pulls i ops)) =
        (a'', .afterPulls word (pulls i ops + 1), .ok item) ∧
      a.HasRead s.graph (history words (ops ++ [.pull i])) a'' ∧
      Answer.Judges (s.graph.Accepts a.start) (.item (item.map .verdict))
        ((Operation.pull i).judged? words ops) := by
  simp only [Operation.judged?, hi]
  cases hn : pulls i ops with
  | zero =>
    rw [history_concat_of_reset (v := []) (by simp [Operation.events, hi, hn])]
    exact ⟨_, _, rfl, h.reset, _, rfl, h.reset.isAccepting_iff hd⟩
  | succ n =>
    have hfed : history words (ops ++ [.pull i]) = history words ops ++ word[n]?.toList :=
      history_concat_of_fed (by simp [Operation.events, hi, hn])
    rw [hfed]
    rcases Nat.lt_trichotomy n word.length with hlt | rfl | hgt
    · -- a letter is left
      obtain ⟨a'', hstep, h''⟩ := h.step hd (hword _ (List.getElem_mem hlt))
      rw [PrefixWalk.afterPulls_of_le (Nat.le_of_lt hlt),
        PrefixWalk.afterPulls_of_le (Nat.succ_le_of_lt hlt), List.drop_eq_getElem_cons hlt,
        List.getElem?_eq_getElem hlt, if_pos (Nat.succ_le_of_lt hlt)]
      simp only [PrefixWalk.next?, hstep]
      exact ⟨a'', _, rfl, h'', _, rfl, h''.isAccepting_iff hd⟩
    · -- the verdict at the whole word has been given
      rw [PrefixWalk.afterPulls_of_le (Nat.le_refl _),
        PrefixWalk.afterPulls_of_lt (Nat.lt_succ_self _), List.drop_length,
        List.getElem?_eq_none (Nat.le_refl _), if_neg (Nat.not_succ_le_self _)]
      refine ⟨a', none, rfl, ?_, rfl⟩
      simpa using h
    · rw [PrefixWalk.afterPulls_of_lt hgt, PrefixWalk.afterPulls_of_lt (Nat.lt_succ_of_lt hgt),
        List.getElem?_eq_none (Nat.le_of_lt hgt), if_neg (by omega)]
      refine ⟨a', none, rfl, ?_, rfl⟩
      simpa using h

namespace Attended

variable (hd : s.graph.DistinctIds a.start) (h : Attended s r a words ops w)
include hd h

theorem direct {q : AutomatonRef} (hop : op.UsesCursor r) (hq : op.reader? = some q) :
    Attended s r a words (ops ++ [op]) (w.after op) ∧
      ∃ answer, (op.perform w).1 = .ok answer ∧
        answer.Judges (s.graph.Accepts a.start) (op.judged? words ops) := by
  obtain ⟨a', hr, hread⟩ := h.hasRead
  obtain ⟨rfl, answer, hanswer, hread', hjudges⟩ := hread.read hd hop hq
  have hperform := Operation.perform_of_reader hq hr
  rw [h.graph_eq] at hperform
  have hpulls : ∀ i, pulls i [op] = 0 := by
    intro i
    cases op with
    | pull j => cases hq
    | _ => simp [pulls]
  refine ⟨⟨?_, ?_, fun i => ?_⟩, answer, ?_, hjudges⟩
  · rw [Workspace.after, hperform]
    exact h.heap_eq
  · rw [Workspace.after, hperform]
    exact ⟨_, Session.automaton?_put_self hr _, hread'⟩
  · rw [Workspace.after, hperform, pulls_concat, hpulls]
    exact h.walks i
  · rw [hperform, hanswer]

theorem pull (hwords : ∀ word ∈ words, ∀ x ∈ word, x.isHashable = true) (i : Nat) :
    Attended s r a words (ops ++ [.pull i]) (w.after (.pull i)) ∧
      ∃ answer, ((Operation.pull i).perform w).1 = .ok answer ∧
        answer.Judges (s.graph.Accepts a.start) ((Operation.pull i).judged? words ops) := by
  obtain ⟨a', hr, hread⟩ := h.hasRead
  have hwalk := h.walks i
  simp only [Workspace.after, Operation.perform_pull]
  cases hi : words[i]? with
  | none =>
    -- there is no walk at this position
    have hfed : history words (ops ++ [.pull i]) = history words ops ++ [] :=
      history_concat_of_fed (by simp [Operation.events, hi])
    rw [hi, Option.map_none] at hwalk
    rw [Workspace.pull_of_getElem?_eq_none hwalk]
    refine ⟨⟨h.heap_eq, ⟨a', hr, ?_⟩, fun j => ?_⟩, _, rfl, ?_⟩
    · rwa [hfed, List.append_nil]
    · rw [h.walks j, pulls_concat]
      by_cases hij : i = j
      · rw [← hij, hi]
        rfl
      · simp [pulls, hij]
    · simp only [Operation.judged?, hi]
      rfl
  | some word =>
    obtain ⟨a'', item, hnext, hread', hjudges⟩ :=
      hread.next? hd hi (hwords word (List.mem_of_getElem? hi))
    rw [hi, Option.map_some] at hwalk
    rw [Workspace.pull_of_verdicts hwalk hr, h.graph_eq, hnext]
    refine ⟨⟨h.heap_eq, ⟨a'', Session.automaton?_put_self hr _, hread'⟩, fun j => ?_⟩, _, rfl,
      hjudges⟩
    rw [List.getElem?_set, pulls_concat]
    by_cases hij : i = j
    · obtain ⟨hlt, -⟩ := List.getElem?_eq_some_iff.1 hwalk
      rw [if_pos hij, if_pos (hij ▸ hlt), ← hij, hi, pulls_pull_self]
      rfl
    · rw [if_neg hij, h.walks j]
      simp [pulls, hij]

/-- An operation on the cursor never fails, and the next one finds things as this one did. -/
theorem perform (hwords : ∀ word ∈ words, ∀ x ∈ word, x.isHashable = true)
    (hop : op.UsesCursor r) :
    Attended s r a words (ops ++ [op]) (w.after op) ∧
      ∃ answer, (op.perform w).1 = .ok answer ∧
        answer.Judges (s.graph.Accepts a.start) (op.judged? words ops) := by
  cases hq : op.reader? with
  | some q => exact h.direct hd hop hq
  | none =>
    cases op with
    | pull i => exact h.pull hd hwords i
    | reset | step | run | isAccepting | accepts => cases hq
    | _ => exact hop.elim

end Attended

/-! ## All operations -/

/-- However the operations on one automaton and the pulls of any number of walks over it are
interleaved, none of them fails, and after each of them the cursor holds exactly the states after
the letters that anyone has fed to it since anyone last put it back. The verdict of a run, of a
question or of a pull says whether a path from the start reads these letters and ends in a final
state. A walk does nothing before its first pull, so all walks may stand there from the
beginning. -/
theorem Workspace.shared_cursor (hr : s.automaton? r = some a) (hd : s.graph.DistinctIds a.start)
    (hstart : a.current = [a.start])
    (hwords : ∀ word ∈ words, ∀ x ∈ word, x.isHashable = true)
    (hops : ∀ op ∈ ops, op.UsesCursor r) :
    ∃ w a', (Workspace.mk s (words.map (.verdictsOf r))).afterAll ops = w ∧
      w.session.heap = s.heap ∧ w.session.automaton? r = some a' ∧ a'.start = a.start ∧
      (∀ t, t ∈ a'.current ↔ t ∈ s.graph.afterWord a.start (history words ops)) ∧
      ∀ op : Operation, op.UsesCursor r → ∃ answer, (op.perform w).1 = .ok answer ∧
        answer.Judges (s.graph.Accepts a.start) (op.judged? words ops) := by
  have hall : Attended s r a words ops
      ((Workspace.mk s (words.map (.verdictsOf r))).afterAll ops) := by
    -- from the last operation, because what a pull does depends on those before it
    induction ops using List.reverseRecOn with
    | nil => exact .init hr hstart
    | append_singleton ops op ih =>
      rw [Workspace.afterAll_concat]
      have hbefore := ih fun op hop => hops op (List.mem_append_left _ hop)
      exact (hbefore.perform hd hwords (hops op (by simp))).1
  obtain ⟨a', hr', l, rfl, hl⟩ := hall.hasRead
  exact ⟨_, _, rfl, hall.heap_eq, hr', rfl, hl, fun op hop => (hall.perform hd hwords hop).2⟩

/-- Two walks over the loop. The second is pulled for the first time when the first has read a
letter, and the letter that the first reads next is the only one since then. -/
theorem Workspace.shared_cursor_loop :
    let a : Automaton := .ofStates ⟨0⟩ ⟨1⟩ ⟨0⟩
    let s : Session := { heap := { graph := .loop, nextIds := #[2] }, automata := #[a] }
    let words := [Symbol.ofText "aa", Symbol.ofText "a"]
    let ops : List Operation := [.pull 0, .pull 0, .pull 1, .pull 0]
    s.automaton? ⟨0⟩ = some a ∧ s.graph.DistinctIds a.start ∧ a.current = [a.start] ∧
      (∀ word ∈ words, ∀ x ∈ word, x.isHashable = true) ∧ (∀ op ∈ ops, op.UsesCursor ⟨0⟩) ∧
      history words ops = Symbol.ofText "a" ∧
      ∃ w a', (Workspace.mk s (words.map (.verdictsOf ⟨0⟩))).afterAll ops = w ∧
        w.session.automaton? ⟨0⟩ = some a' ∧
        ∀ t, t ∈ a'.current ↔ t ∈ Graph.loop.afterWord ⟨0⟩ (Symbol.ofText "a") := by
  intro a s words ops
  have hd : s.graph.DistinctIds a.start := .of_nodup (by decide) (by decide)
  have hwords : ∀ word ∈ words, ∀ x ∈ word, x.isHashable = true := by decide
  have hops : ∀ op ∈ ops, op.UsesCursor ⟨0⟩ := by simp [ops, Operation.UsesCursor]
  have hhistory : history words ops = Symbol.ofText "a" := by decide
  obtain ⟨w, a', hw, -, hr, -, hcursor, -⟩ :=
    Workspace.shared_cursor (s := s) (r := ⟨0⟩) rfl hd rfl hwords hops
  rw [hhistory] at hcursor
  exact ⟨rfl, hd, rfl, hwords, hops, hhistory, w, a', hw, hr, hcursor⟩

end EpsilonNfa
