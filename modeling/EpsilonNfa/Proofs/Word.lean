import EpsilonNfa.Proofs.Concatenation
import EpsilonNfa.Proofs.Line
import EpsilonNfa.Proofs.Reading

/-!
# Automata of words

An automaton that is built from letters by concatenation is a line of states along which its letters
stand in their order (`Automaton.Spells`). Each of the combinators makes such an automaton of such
automata, and the heap only grows, so what an automaton spells stays the same while others are made
of it.
-/

namespace EpsilonNfa

namespace Symbol

variable {word : String} {v : List Symbol} {x : Symbol}

theorem same_text_iff {content : String} : (text content).Same x ↔ text content = x := by
  constructor
  · intro hsame
    cases x <;> simp_all [Same, canonical]
  · intro heq
    rw [heq]
    exact Same.refl x

theorem isHashable_of_mem_ofText (hx : x ∈ ofText word) : x.isHashable = true := by
  obtain ⟨c, -, rfl⟩ := List.mem_map.1 hx
  rfl

theorem epsilon_not_mem_ofText (word : String) : epsilon ∉ ofText word := by
  intro hmem
  obtain ⟨c, -, heq⟩ := List.mem_map.1 hmem
  have hlength := congrArg String.length (Symbol.text.inj heq)
  simp at hlength

theorem letters_ofText (word : String) : ∀ x ∈ ofText word, x ≠ epsilon ∧ x.isHashable = true :=
  fun _ hx => ⟨fun heq => epsilon_not_mem_ofText word (heq ▸ hx), isHashable_of_mem_ofText hx⟩

theorem length_ofText (word : String) : (ofText word).length = word.length := by
  rw [ofText, List.length_map, String.length_toList]

theorem ofText_ne_nil (hword : word ≠ "") : ofText word ≠ [] := fun hnil =>
  hword (String.toList_eq_nil_iff.1 (List.map_eq_nil_iff.1 hnil))

/-- Only the letters of a text count as the letters of that text. -/
theorem forall₂_same_ofText : List.Forall₂ Same (ofText word) v ↔ v = ofText word := by
  have hsame : (fun c x => (ofChar c).Same x) = fun c x => ofChar c = x := by
    funext c x
    exact propext same_text_iff
  unfold ofText
  rw [List.forall₂_map_left_iff, hsame, ← List.forall₂_map_left_iff, List.forall₂_eq_eq_eq]
  exact eq_comm

end Symbol

variable {h h' : Heap} {a b c : Automaton} {word u v : List Symbol} {x : Symbol} {src : IdSource}

namespace Automaton

/-- The automaton is a line on which the word stands, and its cursor is there. -/
structure Spells (h : Heap) (word : List Symbol) (a : Automaton) : Prop where
  nonempty : word ≠ []
  letters : .epsilon ∉ word
  line : ∃ rest, h.graph.Line a.stop (Symbol.spaced word) (a.start :: rest)
  start : a.start ∈ h.graph
  ids : a.ids ∈ h
  tracked : a.Tracked h.graph

/-- What lies below the start is a line of two states for each letter, which ends in the stop; only
the stop is final, and only the word is accepted. -/
structure Denotes (g : Graph) (word : List Symbol) (a : Automaton) : Prop where
  line : ∃ states, g.Line a.stop (Symbol.spaced word) states ∧ states.head? = some a.start ∧
    states.Nodup ∧ states.length = 2 * word.length ∧ ∀ q, g.Reaches a.start q ↔ q ∈ states
  isFinal_iff : ∀ q, g.Reaches a.start q → ((g.state q).isFinal = true ↔ q = a.stop)
  returns : ∀ v, (∀ x ∈ v, x.isHashable = true) → ∃ verdict, (a.run g v).2 = .ok verdict
  run_iff : ∀ v, (a.run g v).2 = .ok true ↔ List.Forall₂ Symbol.Same word v

namespace Spells

theorem reaches_stop (ha : a.Spells h word) : h.graph.Reaches a.start a.stop := by
  obtain ⟨rest, hline⟩ := ha.line
  exact hline.reaches_iff.2 hline.stop_mem

theorem within (ha : a.Spells h word) : a.Within h where
  start := ha.start
  stop := ha.reaches_stop.mem ha.start
  ids := ha.ids
  current r hr := (ha.tracked.current r hr).mem ha.start

theorem grow (ha : a.Spells h word) (hh : h.Extends h') : a.Spells h' word where
  nonempty := ha.nonempty
  letters := ha.letters
  line := by
    obtain ⟨rest, hline⟩ := ha.line
    refine ⟨rest, hline.of_state_eq fun r hr => hh.state_eq r ?_⟩
    exact (hline.reaches_iff.2 hr).mem ha.start
  start := hh.mem ha.start
  ids := hh.source ha.ids
  tracked :=
    { distinctIds := ha.tracked.distinctIds.of_state_eq ha.start hh.state_eq
      current := fun r hr => (hh.reaches_iff ha.start).2 (ha.tracked.current r hr) }

theorem movesTo (ha : a.Spells h word) (hmove : a.MovesTo h.graph b) : b.Spells h word := by
  have htracked := hmove.tracked ha.tracked
  obtain ⟨l, rfl, -⟩ := hmove
  exact ⟨ha.nonempty, ha.letters, ha.line, ha.start, ha.ids, htracked⟩

theorem denotes (ha : a.Spells h word) : a.Denotes h.graph word := by
  obtain ⟨rest, hline⟩ := ha.line
  refine ⟨⟨_, hline, rfl, hline.nodup, ?_, fun q => hline.reaches_iff⟩, fun q hq => ?_, fun v hv => ?_,
    fun v => ?_⟩
  · rw [hline.length_eq, Symbol.length_spaced ha.nonempty]
  · exact hline.isFinal_iff (hline.reaches_iff.1 hq)
  · exact run_of_isHashable hv a
  · rw [Automaton.run_eq_ok_true_iff ha.tracked.distinctIds, hline.accepts_iff,
      Symbol.filter_spaced ha.letters]

end Spells

theorem tracked_ofStates {g : Graph} {start stop : Ref} (hd : g.DistinctIds start) (ids : IdSource) :
    (ofStates start stop ids).Tracked g where
  distinctIds := hd
  current r hr := by
    rw [List.mem_singleton.1 hr]
    exact .refl

end Automaton

/-! ## Letters -/

namespace Automaton

theorem ofSymbol_of_ne (hx : x ≠ .epsilon) (ids : IdSource) : ofSymbol x (some ids) = do
    let start ← HeapM.newState ids
    let stop ← HeapM.newState ids true
    HeapM.connect start x stop
    return ofStates start stop ids := by
  unfold ofSymbol
  rw [if_neg hx]
  rfl

theorem exists_ofSymbol_some (hx : x ≠ .epsilon) (hhash : x.isHashable = true) (hsrc : src ∈ h) :
    ∃ a h', Returns (ofSymbol x (some src)) h a h' ∧ a.Spells h' [x] ∧ a.current = [a.start] ∧
      h.Extends h' := by
  have hfirst := h.addsState src false
  have hsecond := (h.addState src false).2.addsState src true
  have hstart := hsecond.mem hfirst.mem_new
  obtain ⟨hstate₁, hstate₂⟩ := Heap.state_addState_addState hsrc
  obtain ⟨g, hconnect, hg⟩ := Graph.exists_connect hstart hsecond.mem_new hhash fun _ e he => by
    rw [hstate₁] at he
    cases he
  have hne : (⟨(h.addState src false).2.graph.size⟩ : Ref) ≠ ⟨h.graph.size⟩ := by
    rw [hfirst.size_eq, Ne, Ref.mk.injEq]
    omega
  have hline := Graph.Line.of_addsEdge hg hne hstate₁ hstate₂
  -- the two ids are different because they were drawn one after the other
  have hd : g.DistinctIds ⟨h.graph.size⟩ := by
    refine hline.distinctIds ?_
    rw [List.map_cons, List.map_singleton, hg.id_eq' _, hg.id_eq' _, hstate₁, hstate₂]
    simp only [State.isolated, List.nodup_cons, List.mem_singleton]
    exact ⟨by omega, List.not_mem_nil, List.nodup_nil⟩
  have hgrows : h.Extends
      { ((h.addState src false).2.addState src true).2 with graph := g } := by
    refine ((h.grows_addState src false).trans (Heap.grows_addState _ src true)).setGraph
      (fun hr => hg.mem_iff.2 hr) fun r hr => hg.state_eq ?_
    rintro rfl
    exact Nat.lt_irrefl _ hr
  refine ⟨ofStates ⟨h.graph.size⟩ ⟨(h.addState src false).2.graph.size⟩ src, _, ?_, ?_, rfl, hgrows⟩
  · rw [ofSymbol_of_ne hx]
    refine .bind (HeapM.returns_newState ..) (.bind (HeapM.returns_newState ..) ?_)
    exact .bind (HeapM.returns_connect hconnect) (.pure _ _)
  · exact
      { nonempty := List.cons_ne_nil _ _
        letters := by simpa using Ne.symm hx
        line := ⟨_, hline⟩
        start := hg.mem_iff.2 hstart
        ids := hgrows.source hsrc
        tracked := tracked_ofStates hd src }

theorem exists_ofSymbol (hx : x ≠ .epsilon) (hhash : x.isHashable = true) {ids : Option IdSource}
    (hids : ∀ src ∈ ids, src ∈ h) :
    ∃ a h', Returns (ofSymbol x ids) h a h' ∧ a.Spells h' [x] ∧ a.current = [a.start] ∧
      h.Extends h' := by
  cases ids with
  | some src => exact exists_ofSymbol_some hx hhash (hids src rfl)
  | none =>
    -- a source of its own is made first
    obtain ⟨a, h', hreturns, ha, hcurrent, hgrows⟩ :=
      exists_ofSymbol_some hx hhash (h.mem_addSource 0)
    refine ⟨a, h', ?_, ha, hcurrent, (h.grows_addSource 0).trans hgrows⟩
    unfold ofSymbol at hreturns ⊢
    rw [if_neg hx] at hreturns ⊢
    exact hreturns

/-! ## Copies and concatenations -/

theorem exists_copy_spells (ha : a.Spells h word) :
    ∃ c h', Returns a.copy h c h' ∧ c.Spells h' word ∧ h.Extends h' := by
  obtain ⟨start, images, h', copies, -, hc, hreturns⟩ :=
    exists_copy ha.within ha.tracked.distinctIds ha.reaches_stop ha.tracked.current
  have hd := ha.tracked.distinctIds
  refine ⟨_, h', hreturns, ?_, hc.grows⟩
  obtain ⟨rest, hline⟩ := ha.line
  have hcopied := hline.renames (hc.renames hd)
  rw [List.map_cons, hc.imageOf_start hd] at hcopied
  exact
    { nonempty := ha.nonempty
      letters := ha.letters
      line := ⟨_, hcopied⟩
      start := hc.root_mem
      ids := hc.grows.source ha.ids
      tracked :=
        { distinctIds := hc.distinctIds ha.ids
          current := by
            intro q hq
            obtain ⟨r, hr, rfl⟩ := List.mem_map.1 (List.mem_eraseDups.1 hq)
            exact (hc.isIso hd).reaches_iff.2 ⟨r, ha.tracked.current r hr, rfl⟩ } }

/-- The lines of the two copies are joined where the first one ends. -/
theorem Concatenated.exists_line {copies : Graph} {f f' : Ref → Ref} {bStart : Ref}
    (hc : Concatenated h a b c h' copies f f' bStart) (ha : a.Spells h u) (hb : b.Spells h v) :
    ∃ rest, h'.graph.Line c.stop (Symbol.spaced (u ++ v)) (c.start :: rest) := by
  obtain ⟨rest, hline⟩ := ha.line
  obtain ⟨rest', hline'⟩ := hb.line
  have hfirst := hline.renames hc.apart.first.renames
  have hsecond := hline'.renames hc.apart.second.renames
  rw [List.map_cons, hc.apart.first.root] at hfirst
  rw [List.map_cons, hc.apart.second.root] at hsecond
  have hstop : f a.stop ∉ bStart :: rest'.map f' := by
    intro hmem
    refine hc.apart.not_reaches ?_ (hsecond.reaches_iff.2 hmem)
    exact hc.apart.first.reaches_iff.2 ⟨a.stop, ha.reaches_stop, rfl⟩
  have hjoined := hfirst.joined hsecond hc.joined hstop
  rw [Symbol.spaced_append ha.nonempty hb.nonempty, hc.eq_ofStates]
  exact ⟨_, hjoined⟩

theorem exists_concat_spells (ha : a.Spells h u) (hb : b.Spells h v) :
    ∃ c h', Returns (a.concat b) h c h' ∧ c.Spells h' (u ++ v) ∧ c.current = [c.start] ∧
      h.Extends h' := by
  obtain ⟨c, h', copies, f, f', bStart, hreturns, hc⟩ :=
    exists_concatenated ha.within hb.within ha.tracked.distinctIds hb.tracked.distinctIds
      ha.reaches_stop hb.reaches_stop
  have hids : c.ids = a.ids := by rw [hc.eq_ofStates]; rfl
  have hcurrent : c.current = [c.start] := by rw [hc.eq_ofStates]; rfl
  refine ⟨c, h', hreturns, ?_, hcurrent, hc.grows⟩
  exact
    { nonempty := List.append_ne_nil_of_left_ne_nil ha.nonempty v
      letters := fun hmem => (List.mem_append.1 hmem).elim ha.letters hb.letters
      line := hc.exists_line ha hb
      start := hc.start_mem
      ids := by
        rw [hids]
        exact hc.grows.source ha.ids
      tracked := by
        rw [hc.eq_ofStates]
        exact tracked_ofStates (hc.apart.distinctIds_joined hc.joined) a.ids }

/-! ## Words -/

theorem exists_mapM_ofSymbol (hword : ∀ x ∈ word, x ≠ .epsilon ∧ x.isHashable = true)
    (hsrc : src ∈ h) :
    ∃ automata h', Returns (word.mapM fun x => ofSymbol x (some src)) h automata h' ∧
      List.Forall₂ (fun x a => a.Spells h' [x] ∧ a.current = [a.start]) word automata ∧
      h.Extends h' := by
  induction word generalizing h with
  | nil => exact ⟨[], h, .pure [] h, .nil, .refl h⟩
  | cons x word ih =>
    obtain ⟨hx, hhash⟩ := hword x List.mem_cons_self
    obtain ⟨a, h₁, hreturns, ha, hcurrent, hgrows⟩ := exists_ofSymbol_some hx hhash hsrc
    obtain ⟨automata, h₂, hrest, hspells, hgrows'⟩ :=
      ih (fun y hy => hword y (List.mem_cons_of_mem _ hy)) (hgrows.source hsrc)
    refine ⟨a :: automata, h₂, ?_, .cons ⟨ha.grow hgrows', hcurrent⟩ hspells, hgrows.trans hgrows'⟩
    rw [List.mapM_cons]
    exact .bind hreturns (.bind hrest (.pure _ h₂))

/-- Automata of single letters, put one after another behind an automaton. -/
theorem exists_foldlM_concat {automata : List Automaton} (ha : a.Spells h u)
    (hcurrent : a.current = [a.start])
    (hspells : List.Forall₂ (fun x b => b.Spells h [x] ∧ b.current = [b.start]) v automata) :
    ∃ c h', Returns (automata.foldlM concat a) h c h' ∧ c.Spells h' (u ++ v) ∧
      c.current = [c.start] ∧ h.Extends h' := by
  induction automata generalizing a u v h with
  | nil =>
    cases hspells
    exact ⟨a, h, .pure a h, by rwa [List.append_nil], hcurrent, .refl h⟩
  | cons b automata ih =>
    cases hspells with
    | @cons x _ v _ hb hrest =>
      obtain ⟨c, h₁, hconcat, hc, hcurrent', hgrows⟩ := exists_concat_spells ha hb.1
      obtain ⟨d, h₂, hfold, hd, hdcurrent, hgrows'⟩ :=
        ih hc hcurrent' (hrest.imp fun _ _ hspell => ⟨hspell.1.grow hgrows, hspell.2⟩)
      refine ⟨d, h₂, ?_, ?_, hdcurrent, hgrows.trans hgrows'⟩
      · rw [List.foldlM_cons]
        exact .bind hconcat hfold
      · rwa [List.append_assoc] at hd

/-- The automaton of a text is made for every text but the empty one. -/
theorem exists_ofWord {content : String} (hcontent : content ≠ "") (h : Heap) :
    ∃ a h', Returns (ofWord content) h a h' ∧ a.Spells h' (Symbol.ofText content) ∧
      a.current = [a.start] := by
  obtain ⟨automata, h₁, hmap, hspells, -⟩ :=
    exists_mapM_ofSymbol (Symbol.letters_ofText content) (h.mem_addSource 0)
  have hnonempty := Symbol.ofText_ne_nil hcontent
  have hsource : Returns HeapM.newSource h (h.addSource 0).1 (h.addSource 0).2 := .modifyGet _ h
  generalize hword : Symbol.ofText content = word at *
  cases hspells with
  | nil => exact absurd rfl hnonempty
  | @cons x a word rest ha hrest =>
    obtain ⟨c, h₂, hfold, hc, hcurrent, -⟩ := exists_foldlM_concat ha.1 ha.2 hrest
    refine ⟨c, h₂, ?_, hc, hcurrent⟩
    unfold ofWord
    rw [hword]
    exact .bind hsource (.bind hmap hfold)

end Automaton

end EpsilonNfa
