import EpsilonNfa.Proofs.Combinators
import EpsilonNfa.Proofs.Interleaving

/-!
# Copies are independent

A copy of an automaton starts in the middle of a word, with its cursor at the images of the states
that the original has reached. From there the two go in step: the same symbols keep the one cursor
the image of the other (`Automaton.InStep.feed`), and cursors in step give one verdict
(`Automaton.InStep.isAccepting_eq`). What the one is fed beyond that does not concern the other.
-/

namespace EpsilonNfa

namespace Automaton

/-- Along the isomorphism `f` the cursor of `c` is the image of the cursor of `a`. -/
structure InStep (g : Graph) (f : Ref → Ref) (a c : Automaton) : Prop where
  isIso : g.IsIso a.start f g c.start
  distinctIds : g.DistinctIds a.start
  distinctIds_image : g.DistinctIds c.start
  reaches : ∀ r ∈ a.current, g.Reaches a.start r
  mem_current : ∀ {q}, q ∈ c.current ↔ ∃ r ∈ a.current, f r = q

namespace InStep

variable {g : Graph} {f : Ref → Ref} {a a' c c' : Automaton} {word word' : List Symbol}

theorem reaches_image (h : a.InStep g f c) : ∀ q ∈ c.current, g.Reaches c.start q := by
  intro q hq
  obtain ⟨r, hr, rfl⟩ := h.mem_current.1 hq
  exact h.isIso.reaches_iff.2 ⟨r, h.reaches r hr, rfl⟩

/-- What lies below a state of the cursor is renamed as everything is. -/
theorem renames (h : a.InStep g f c) {r : Ref} (hr : r ∈ a.current) : g.Renames r f g :=
  h.isIso.renames.of_reaches (h.reaches r hr)

/-- Automata in step give one verdict. -/
theorem isAccepting_eq (h : a.InStep g f c) : c.isAccepting g = a.isAccepting g := by
  unfold isAccepting
  rw [Bool.eq_iff_iff, Graph.acceptsAt_iff h.distinctIds h.reaches,
    Graph.acceptsAt_iff h.distinctIds_image h.reaches_image]
  constructor
  · rintro ⟨q, hq, t', ht', hfinal⟩
    obtain ⟨r, hr, rfl⟩ := h.mem_current.1 hq
    obtain ⟨t, ht, rfl⟩ := (h.renames hr).epsilonReaches_iff.1 ht'
    rw [(h.renames hr).isFinal_eq ht.reaches] at hfinal
    exact ⟨r, hr, t, ht, hfinal⟩
  · rintro ⟨r, hr, t, ht, hfinal⟩
    refine ⟨f r, h.mem_current.2 ⟨r, hr, rfl⟩, f t, ?_, ?_⟩
    · exact (h.renames hr).epsilonReaches_iff.2 ⟨t, ht, rfl⟩
    · rwa [(h.renames hr).isFinal_eq ht.reaches]

/-- The same symbols keep automata in step. -/
theorem feed (h : a.InStep g f c) (hsame : List.Forall₂ Symbol.Same word word')
    (hfeed : a.feed g word = (a', .ok ())) (hfeed' : c.feed g word' = (c', .ok ())) :
    a'.InStep g f c' := by
  have hmem : ∀ {t}, t ∈ a'.current ↔ ∃ r ∈ a.current, g.Lands r word t :=
    mem_current_of_feed h.distinctIds h.reaches hfeed
  have hmem' : ∀ {q}, q ∈ c'.current ↔ ∃ s ∈ c.current, g.Lands s word' q :=
    mem_current_of_feed h.distinctIds_image h.reaches_image hfeed'
  have hlands : ∀ {r q}, r ∈ a.current →
      (g.Lands (f r) word' q ↔ ∃ t, g.Lands r word t ∧ f t = q) := by
    intro r q hr
    rw [(h.renames hr).lands_iff]
    simp only [Graph.lands_congr hsame]
  have hbelow := reaches_of_feed h.distinctIds h.reaches hfeed
  obtain ⟨l, rfl⟩ := eq_of_feed hfeed
  obtain ⟨l', rfl⟩ := eq_of_feed hfeed'
  refine ⟨h.isIso, h.distinctIds, h.distinctIds_image, hbelow, fun {q} => ?_⟩
  rw [hmem']
  constructor
  · rintro ⟨s, hs, hq⟩
    obtain ⟨r, hr, rfl⟩ := h.mem_current.1 hs
    obtain ⟨t, ht, rfl⟩ := (hlands hr).1 hq
    exact ⟨t, hmem.2 ⟨r, hr, ht⟩, rfl⟩
  · rintro ⟨t, ht, rfl⟩
    obtain ⟨r, hr, hrt⟩ := hmem.1 ht
    exact ⟨f r, h.mem_current.2 ⟨r, hr, rfl⟩, (hlands hr).2 ⟨t, hrt, rfl⟩⟩

end InStep

/-- A copy is in step with the original, and the two share no state. -/
theorem exists_copy_inStep {h : Heap} {a : Automaton} (ha : a.Within h)
    (hd : h.graph.DistinctIds a.start) (hstop : h.graph.Reaches a.start a.stop)
    (hcurrent : ∀ p ∈ a.current, h.graph.Reaches a.start p) :
    ∃ c h' images f, Returns a.copy h c h' ∧
      Returns (HeapM.copyGraph a.start ∅ (some a.ids)) h (c.start, images) h' ∧
      a.InStep h'.graph f c ∧
      (∀ p, h'.graph.Reaches a.start p → images.find? (h'.graph.state p).id = some (f p)) ∧
      ∀ q, h'.graph.Reaches a.start q → ¬ h'.graph.Reaches c.start q := by
  obtain ⟨start, images, h', copies, hcopy, hc, hreturns⟩ := exists_copy ha hd hstop hcurrent
  have hkept : ∀ q ∈ h.graph, h'.graph.state q = h.graph.state q := hc.records.kept
  have hreach : ∀ {q}, h'.graph.Reaches a.start q ↔ h.graph.Reaches a.start q :=
    Graph.reaches_iff_of_state_eq hkept ha.start
  have hback : h'.graph.IsIso a.start id h.graph a.start :=
    .of_state_eq fun q hq => (hkept q ((hreach.1 hq).mem ha.start)).symm
  refine ⟨_, h', images, images.imageOf h.graph, hreturns, hcopy, ?_, ?_, ?_⟩
  · refine ⟨hback.comp (hc.isIso hd), hd.of_state_eq ha.start hkept, hc.distinctIds ha.ids,
      fun p hp => hreach.2 (hcurrent p hp), fun {q} => ?_⟩
    rw [List.mem_eraseDups, List.mem_map]
  · intro p hp
    rw [hkept p ((hreach.1 hp).mem ha.start)]
    exact hc.find?_imageOf hd (hreach.1 hp)
  · intro q hq hq'
    exact (hc.not_mem_of_reaches hq').1 ((hreach.1 hq).mem ha.start)

end Automaton

namespace SessionM

variable {s : Session} {r q : AutomatonRef} {a c : Automaton} {h' : Heap} {f : Ref → Ref}

theorem returns_copy (hr : s.automaton? r = some a) (hcopy : Returns a.copy s.heap c h') :
    Returns (copy r) s ⟨s.automata.size⟩ { heap := h', automata := s.automata.push c } :=
  .bind (returns_automaton hr) (returns_build hcopy)

theorem exists_verdict_of_inStep (hr : s.automaton? r = some a) (hq : s.automaton? q = some c)
    (h : a.InStep s.graph f c) :
    ∃ verdict, Returns (isAccepting r) s verdict s ∧ Returns (isAccepting q) s verdict s := by
  refine ⟨a.isAccepting s.graph, returns_isAccepting hr, ?_⟩
  rw [← h.isAccepting_eq]
  exact returns_isAccepting hq

/-- However the steps of two automata in step are interleaved, neither verdict depends on the steps
of the other, and the two are in step again when they have received the same symbols. -/
theorem exists_steps_inStep (hr : s.automaton? r = some a) (hq : s.automaton? q = some c)
    (h : a.InStep s.graph f c) {calls : List (AutomatonRef × Symbol)}
    (hcalls : ∀ p ∈ calls, (p.1 = r ∨ p.1 = q) ∧ p.2.isHashable = true) :
    ∃ s₁ a₁ c₁, Returns (steps calls) s ⟨⟩ s₁ ∧ s₁.heap = s.heap ∧
      s₁.automaton? r = some a₁ ∧ s₁.automaton? q = some c₁ ∧ a₁.start = a.start ∧
      (∀ p ∈ [r, q], ∃ s₂ verdict, Returns (steps (calls.filter (·.1 = p))) s ⟨⟩ s₂ ∧
        Returns (isAccepting p) s₁ verdict s₁ ∧ Returns (isAccepting p) s₂ verdict s₂) ∧
      (List.Forall₂ Symbol.Same (received r calls) (received q calls) →
        a₁.InStep s.graph f c₁) := by
  have hknown : ∀ p ∈ calls, p.2.isHashable = true ∧ ∃ a, s.automaton? p.1 = some a := by
    intro p hp
    obtain ⟨heq | heq, hhash⟩ := hcalls p hp
    · exact ⟨hhash, a, heq ▸ hr⟩
    · exact ⟨hhash, c, heq ▸ hq⟩
  obtain ⟨s₁, hsteps, hheap, hread⟩ := exists_steps hknown
  obtain ⟨a₁, ha₁, hfeed⟩ := hread r a hr
  obtain ⟨c₁, hc₁, hfeed'⟩ := hread q c hq
  obtain ⟨l, rfl⟩ := Automaton.eq_of_feed hfeed
  refine ⟨s₁, _, c₁, hsteps, hheap, ha₁, hc₁, rfl, ?_, fun hsame => h.feed hsame hfeed hfeed'⟩
  intro p hp
  rcases List.mem_pair.1 hp with rfl | rfl
  · exact exists_isAccepting_filter hknown hr hsteps
  · exact exists_isAccepting_filter hknown hq hsteps

/-- A copy and the original are independent and equivalent, from wherever the original was. However
the steps of the two are interleaved, each has after them the verdict that it has without the steps
of the other; and when both have received the same symbols the cursor of the copy is the image of
the cursor of the original, and their verdicts agree. The steps are any that have been made so far,
so all this holds after each of them. No state lies below both. -/
theorem copy_independent (hr : s.automaton? r = some a) (ha : a.Within s.heap)
    (hd : s.graph.DistinctIds a.start) (hstop : s.graph.Reaches a.start a.stop)
    (hcurrent : ∀ p ∈ a.current, s.graph.Reaches a.start p) :
    ∃ c c₀ s₀ images, Returns (copy r) s c s₀ ∧ c ≠ r ∧
      s₀.automaton? r = some a ∧ s₀.automaton? c = some c₀ ∧
      Returns (HeapM.copyGraph a.start ∅ (some a.ids)) s.heap (c₀.start, images) s₀.heap ∧
      (∀ q, s₀.graph.Reaches a.start q → ¬ s₀.graph.Reaches c₀.start q) ∧
      ∀ calls : List (AutomatonRef × Symbol),
        (∀ p ∈ calls, (p.1 = r ∨ p.1 = c) ∧ p.2.isHashable = true) →
        ∃ s₁ a₁ c₁, Returns (steps calls) s₀ ⟨⟩ s₁ ∧ s₁.heap = s₀.heap ∧
          s₁.automaton? r = some a₁ ∧ s₁.automaton? c = some c₁ ∧
          (∀ q ∈ [r, c], ∃ s₂ verdict, Returns (steps (calls.filter (·.1 = q))) s₀ ⟨⟩ s₂ ∧
            Returns (isAccepting q) s₁ verdict s₁ ∧ Returns (isAccepting q) s₂ verdict s₂) ∧
          (List.Forall₂ Symbol.Same (received r calls) (received c calls) →
            (∀ q, q ∈ c₁.current ↔
              ∃ p ∈ a₁.current, images.find? (s₀.graph.state p).id = some q) ∧
            ∃ verdict, Returns (isAccepting r) s₁ verdict s₁ ∧
              Returns (isAccepting c) s₁ verdict s₁) := by
  obtain ⟨c₀, h', images, f, hcopy, himages, hstep, hfind, hapart⟩ :=
    Automaton.exists_copy_inStep ha hd hstop hcurrent
  obtain ⟨hlt, hget⟩ := Array.getElem?_eq_some_iff.1 hr
  have hr₀ : (s.automata.push c₀)[r.index]? = some a := by
    rw [Array.getElem?_push_lt hlt, hget]
  have hc₀ : (s.automata.push c₀)[s.automata.size]? = some c₀ := Array.getElem?_push_size
  have hne : (⟨s.automata.size⟩ : AutomatonRef) ≠ r := fun heq => by simp [← heq] at hlt
  refine ⟨⟨s.automata.size⟩, c₀, ⟨h', s.automata.push c₀⟩, images, returns_copy hr hcopy, hne, hr₀,
    hc₀, himages, hapart, fun calls hcalls => ?_⟩
  obtain ⟨s₁, a₁, c₁, hsteps, hheap, ha₁, hc₁, hstart, halone, hsame⟩ :=
    exists_steps_inStep (s := ⟨h', s.automata.push c₀⟩) hr₀ hc₀ hstep hcalls
  refine ⟨s₁, a₁, c₁, hsteps, hheap, ha₁, hc₁, halone, fun hreceived => ?_⟩
  have hstep₁ : a₁.InStep h'.graph f c₁ := hsame hreceived
  have hgraph : s₁.graph = h'.graph := congrArg Heap.graph hheap
  refine ⟨fun q => ?_, exists_verdict_of_inStep ha₁ hc₁ (hgraph ▸ hstep₁)⟩
  rw [hstep₁.mem_current]
  apply exists_congr
  intro p
  apply and_congr_right
  intro hp
  have himage : images.find? (h'.graph.state p).id = some (f p) :=
    hfind p (hstart ▸ hstep₁.reaches p hp)
  show f p = q ↔ images.find? (h'.graph.state p).id = some q
  rw [himage, Option.some.injEq]

/-- The loop after its letter, copied there: the letter in both gives one verdict. -/
theorem copy_independent_loop :
    let a : Automaton := ⟨⟨0⟩, ⟨1⟩, ⟨0⟩, [⟨1⟩]⟩
    let s : Session := { heap := { graph := .loop, nextIds := #[7] }, automata := #[a] }
    s.automaton? ⟨0⟩ = some a ∧ a.Within s.heap ∧ s.graph.DistinctIds a.start ∧
      s.graph.Reaches a.start a.stop ∧ (∀ p ∈ a.current, s.graph.Reaches a.start p) ∧
      ∃ c s₀ s₁ verdict, Returns (copy ⟨0⟩) s c s₀ ∧
        Returns (steps [(⟨0⟩, .text "a"), (c, .text "a")]) s₀ ⟨⟩ s₁ ∧
        Returns (isAccepting ⟨0⟩) s₁ verdict s₁ ∧ Returns (isAccepting c) s₁ verdict s₁ := by
  intro a s
  have ha : a.Within s.heap := by decide
  have hd : s.graph.DistinctIds a.start := .of_nodup (by decide) (by decide)
  have hstop : s.graph.Reaches a.start a.stop := .step .refl (by decide)
  have hcurrent : ∀ p ∈ a.current, s.graph.Reaches a.start p :=
    fun p hp => List.mem_singleton.1 hp ▸ hstop
  obtain ⟨c, c₀, s₀, images, hcopy, hne, -, -, -, -, hcalls⟩ :=
    copy_independent (s := s) (r := ⟨0⟩) rfl ha hd hstop hcurrent
  obtain ⟨s₁, a₁, c₁, hsteps, -, -, -, -, hsame⟩ :=
    hcalls [(⟨0⟩, .text "a"), (c, .text "a")] (by simp [Symbol.isHashable])
  obtain ⟨-, verdict, hverdict, hverdict'⟩ := hsame (by
    rw [received_cons_self, received_cons_of_ne hne.symm, received_cons_of_ne hne,
      received_cons_self]
    exact .cons (.refl _) .nil)
  exact ⟨rfl, ha, hd, hstop, hcurrent, c, s₀, s₁, verdict, hcopy, hsteps, hverdict, hverdict'⟩

end SessionM

end EpsilonNfa
