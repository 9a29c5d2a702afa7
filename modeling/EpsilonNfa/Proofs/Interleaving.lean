import EpsilonNfa.Proofs.Simulation

/-!
# Steps of several automata

Automata of one session are stepped in any order. A step moves one cursor and leaves the heap and
all other automata alone, so after all steps each automaton is where the symbols that it has itself
received have brought it (`SessionM.exists_steps`), and the steps of the others can be left out.
-/

namespace EpsilonNfa

variable {s s' : Session} {r q : AutomatonRef} {a a' : Automaton} {x : Symbol}
variable {calls : List (AutomatonRef × Symbol)}

namespace Session

/-- The session with another automaton in the place of one. -/
def put (s : Session) (r : AutomatonRef) (a : Automaton) : Session :=
  { s with automata := s.automata.setIfInBounds r.index a }

theorem automaton?_put_self (hr : s.automaton? r = some a) (a' : Automaton) :
    (s.put r a').automaton? r = some a' := by
  obtain ⟨hlt, -⟩ := Array.getElem?_eq_some_iff.1 hr
  show (s.automata.setIfInBounds r.index a')[r.index]? = some a'
  rw [Array.getElem?_setIfInBounds, if_pos rfl, if_pos hlt]

theorem automaton?_put_of_ne (hq : q ≠ r) (a : Automaton) :
    (s.put r a).automaton? q = s.automaton? q := by
  have hindex : r.index ≠ q.index := fun heq => hq (congrArg AutomatonRef.mk heq.symm)
  show (s.automata.setIfInBounds r.index a)[q.index]? = s.automata[q.index]?
  rw [Array.getElem?_setIfInBounds, if_neg hindex]

theorem exists_automaton?_put (hq : s.automaton? q = some a) (r : AutomatonRef) (a' : Automaton) :
    ∃ b, (s.put r a').automaton? q = some b := by
  by_cases heq : q = r
  · subst heq
    exact ⟨a', automaton?_put_self hq a'⟩
  · exact ⟨a, (automaton?_put_of_ne heq a').trans hq⟩

theorem put_self (hr : s.automaton? r = some a) : s.put r a = s := by
  have hself : s.automata.setIfInBounds r.index a = s.automata := by
    apply Array.ext_getElem?
    intro i
    rw [Array.getElem?_setIfInBounds]
    split
    · next hi =>
      obtain ⟨hlt, hget⟩ := Array.getElem?_eq_some_iff.1 hr
      rw [← hi, if_pos hlt, Array.getElem?_eq_getElem hlt, hget]
    · rfl
  unfold put
  rw [hself]

theorem put_put (s : Session) (r : AutomatonRef) (a a' : Automaton) :
    (s.put r a).put r a' = s.put r a' := by
  have hset : (s.automata.setIfInBounds r.index a).setIfInBounds r.index a' =
      s.automata.setIfInBounds r.index a' := by
    apply Array.ext_getElem?
    intro i
    simp only [Array.getElem?_setIfInBounds, Array.size_setIfInBounds]
    split <;> rfl
  simp only [put, hset]

end Session

/-- The symbols that one automaton receives. -/
def received (q : AutomatonRef) (calls : List (AutomatonRef × Symbol)) : List Symbol :=
  (calls.filter (·.1 = q)).map (·.2)

theorem received_cons_self (q : AutomatonRef) (x : Symbol) (calls : List (AutomatonRef × Symbol)) :
    received q ((q, x) :: calls) = x :: received q calls := by
  simp [received]

theorem received_cons_of_ne (hq : q ≠ r) (x : Symbol) (calls : List (AutomatonRef × Symbol)) :
    received q ((r, x) :: calls) = received q calls := by
  simp [received, Ne.symm hq]

/-- Leaving out the steps of the others keeps what is received. -/
theorem received_filter (q : AutomatonRef) (calls : List (AutomatonRef × Symbol)) :
    received q (calls.filter (·.1 = q)) = received q calls := by
  simp [received]

namespace SessionM

/-- Steps of automata, one after another. -/
def steps : List (AutomatonRef × Symbol) → SessionM Unit
  | [] => return
  | (r, x) :: calls => do
    let _ ← step r x
    steps calls

/-- A step moves one cursor. -/
theorem returns_step (hr : s.automaton? r = some a) (hstep : a.step s.graph x = .ok a') :
    Returns (step r x) s a'.current (s.put r a') := by
  unfold step
  refine .bind (returns_automaton hr) (.bind (returns_graph s) ?_)
  exact .bind (.lift hstep s) (.bind (.modifyGet _ s) (.pure _ _))

/-- Steps of one automaton feed it a word. -/
theorem returns_steps {word : List Symbol} (hr : s.automaton? r = some a)
    (h : a.feed s.graph word = (a', .ok ())) :
    Returns (steps (word.map (r, ·))) s ⟨⟩ (s.put r a') := by
  induction word generalizing s a with
  | nil =>
    cases h
    rw [Session.put_self hr]
    exact .pure _ s
  | cons x word ih =>
    obtain ⟨l, hstep, hfeed⟩ := Automaton.feed_cons_eq_ok_iff.1 h
    have hrest := ih (s := s.put r { a with current := l }) (Session.automaton?_put_self hr _) hfeed
    rw [Session.put_put] at hrest
    exact .bind (returns_step hr (Automaton.step_eq_ok_iff.2 ⟨l, hstep, rfl⟩)) hrest

theorem returns_isAccepting (hr : s.automaton? r = some a) :
    Returns (isAccepting r) s (a.isAccepting s.graph) s := by
  unfold isAccepting
  exact .bind (returns_automaton hr) (.bind (returns_graph s) (.pure _ s))

/-- After all steps each automaton has read what it has received, and nothing else has changed. -/
theorem exists_steps (hcalls : ∀ p ∈ calls, p.2.isHashable = true ∧ ∃ a, s.automaton? p.1 = some a) :
    ∃ s', Returns (steps calls) s ⟨⟩ s' ∧ s'.heap = s.heap ∧
      ∀ q a, s.automaton? q = some a →
        ∃ a', s'.automaton? q = some a' ∧ a.feed s.graph (received q calls) = (a', .ok ()) := by
  induction calls generalizing s with
  | nil => exact ⟨s, .pure _ s, rfl, fun q a ha => ⟨a, ha, rfl⟩⟩
  | cons call calls ih =>
    obtain ⟨r, x⟩ := call
    obtain ⟨hx, b, hr⟩ := hcalls (r, x) List.mem_cons_self
    obtain ⟨l, hstep⟩ := Automaton.exists_step (g := s.graph) hx b
    have hrest : ∀ p ∈ calls, p.2.isHashable = true ∧
        ∃ a, (s.put r { b with current := l }).automaton? p.1 = some a := by
      intro p hp
      obtain ⟨hhash, a, ha⟩ := hcalls p (List.mem_cons_of_mem _ hp)
      exact ⟨hhash, Session.exists_automaton?_put ha r _⟩
    obtain ⟨s', hsteps, hheap, hread⟩ := ih hrest
    refine ⟨s', .bind (returns_step hr hstep) hsteps, hheap, fun q a ha => ?_⟩
    by_cases hq : q = r
    · subst hq
      obtain ⟨a', ha', hfeed⟩ := hread q _ (Session.automaton?_put_self hr _)
      refine ⟨a', ha', ?_⟩
      rw [hr] at ha
      cases ha
      rw [received_cons_self]
      unfold Automaton.feed
      rw [hstep]
      exact hfeed
    · rw [received_cons_of_ne hq]
      exact hread q a ((Session.automaton?_put_of_ne hq _).trans ha)

/-- The verdict of an automaton is the one that it has without the steps of all others. -/
theorem exists_isAccepting_filter
    (hcalls : ∀ p ∈ calls, p.2.isHashable = true ∧ ∃ a, s.automaton? p.1 = some a)
    (hq : s.automaton? q = some a) (hsteps : Returns (steps calls) s ⟨⟩ s') :
    ∃ s'' verdict, Returns (steps (calls.filter (·.1 = q))) s ⟨⟩ s'' ∧
      Returns (isAccepting q) s' verdict s' ∧ Returns (isAccepting q) s'' verdict s'' := by
  obtain ⟨s₁, hsteps₁, hheap₁, hread₁⟩ := exists_steps hcalls
  obtain ⟨-, rfl⟩ := hsteps₁.unique hsteps
  have hcalls₂ : ∀ p ∈ calls.filter (·.1 = q),
      p.2.isHashable = true ∧ ∃ a, s.automaton? p.1 = some a :=
    fun p hp => hcalls p (List.mem_of_mem_filter hp)
  obtain ⟨s₂, hsteps₂, hheap₂, hread₂⟩ := exists_steps hcalls₂
  obtain ⟨a₁, ha₁, hfeed₁⟩ := hread₁ q a hq
  obtain ⟨a₂, ha₂, hfeed₂⟩ := hread₂ q a hq
  rw [received_filter, hfeed₁] at hfeed₂
  cases hfeed₂
  have hgraph : s₁.graph = s₂.graph := congrArg Heap.graph (hheap₁.trans hheap₂.symm)
  refine ⟨s₂, a₁.isAccepting s₁.graph, hsteps₂, returns_isAccepting ha₁, ?_⟩
  rw [hgraph]
  exact returns_isAccepting ha₂

end SessionM

end EpsilonNfa
