import EpsilonNfa.Proofs.CommandLine
import EpsilonNfa.Proofs.Drawing
import EpsilonNfa.Proofs.IssuedIds

/-!
# The ids of the automaton of a word

A word is built from the left: the letters come first, and then every concatenation copies all that
has been built and one letter more. What is built are the copies, which are the last states that
have been made (`Automaton.IsLast`), and the account of all states grows with the square of the
length of the word (`Automaton.exists_foldlM_concat_issues`).
-/

namespace EpsilonNfa

variable {h h' : Heap} {src : IdSource} {a b : Automaton} {x : Symbol} {u v word : List Symbol}
variable {n : Nat}

namespace Automaton

/-- A traversal from the start visits the last `n` states of the heap, in the order in which they
were made. -/
def IsLast (h : Heap) (n : Nat) (a : Automaton) : Prop :=
  h.graph.breadthFirst a.start = (List.range' (h.graph.size - n) n).map Ref.mk

theorem Spells.line_breadthFirst (ha : a.Spells h word) :
    h.graph.Line a.stop (Symbol.spaced word) (h.graph.breadthFirst a.start) := by
  obtain ⟨rest, hline⟩ := ha.line
  rwa [hline.breadthFirst_eq ha.tracked.distinctIds]

theorem Spells.length_breadthFirst (ha : a.Spells h word) :
    (h.graph.breadthFirst a.start).length = 2 * word.length := by
  rw [ha.line_breadthFirst.length_eq, Symbol.length_spaced ha.nonempty]

/-! ## Letters -/

theorem issues_of_returns_ofSymbol (hx : x ≠ .epsilon) (hsrc : src ∈ h)
    (hletter : Returns (ofSymbol x (some src)) h a h') :
    h.Issues src 2 h' ∧ a = ofStates ⟨h.graph.size⟩ ⟨h.graph.size + 1⟩ src := by
  rw [ofSymbol_of_ne hx] at hletter
  obtain ⟨_, _, hstart, hrest⟩ := hletter.exists_of_bind
  obtain ⟨rfl, rfl⟩ := (HeapM.returns_newState ..).unique hstart
  obtain ⟨_, _, hstop, hrest⟩ := hrest.exists_of_bind
  obtain ⟨rfl, rfl⟩ := (HeapM.returns_newState ..).unique hstop
  obtain ⟨_, _, hconnect, hrest⟩ := hrest.exists_of_bind
  cases hrest
  have hissues := (Heap.Issues.addState h src false).trans hsrc (.addState _ src true)
  unfold Returns at hconnect
  rw [HeapM.run_connect] at hconnect
  split at hconnect
  · next g hg =>
    cases hconnect
    refine ⟨hissues.setGraph (Graph.size_of_connect hg) fun r _ => Graph.id_of_connect hg r, ?_⟩
    rw [(h.addsState src false).size_eq]
  · cases hconnect

theorem isLast_of_returns_ofSymbol (hx : x ≠ .epsilon) (hhash : x.isHashable = true)
    (hsrc : src ∈ h) (hletter : Returns (ofSymbol x (some src)) h a h') : a.IsLast h' 2 := by
  obtain ⟨_, _, hletter', ha, -, -⟩ := exists_ofSymbol_some hx hhash hsrc
  obtain ⟨rfl, rfl⟩ := hletter'.unique hletter
  obtain ⟨hissues, rfl⟩ := issues_of_returns_ofSymbol hx hsrc hletter
  obtain ⟨rest, hline⟩ := ha.line
  unfold IsLast
  rw [hline.breadthFirst_eq ha.tracked.distinctIds, hissues.size_eq, Nat.add_sub_cancel]
  -- one letter has one edge, from the start to the stop
  cases hline with
  | step _ _ hlast =>
    cases hlast
    rfl

theorem issues_of_returns_mapM_ofSymbol {automata : List Automaton}
    (hword : ∀ x ∈ word, x ≠ .epsilon) (hsrc : src ∈ h)
    (hmap : Returns (word.mapM fun x => ofSymbol x (some src)) h automata h') :
    h.Issues src (2 * word.length) h' := by
  induction word generalizing h automata with
  | nil =>
    cases hmap
    exact .refl _ src
  | cons x word ih =>
    rw [List.mapM_cons] at hmap
    obtain ⟨a, h₁, hletter, hrest⟩ := hmap.exists_of_bind
    obtain ⟨automata', h₂, hrest, hpure⟩ := hrest.exists_of_bind
    cases hpure
    have hfirst := (issues_of_returns_ofSymbol (hword x List.mem_cons_self) hsrc hletter).1
    have hsecond := ih (fun y hy => hword y (List.mem_cons_of_mem _ hy))
      (hfirst.mem_iff_source.2 hsrc) hrest
    have htotal := hfirst.trans hsrc hsecond
    rwa [show 2 + 2 * word.length = 2 * (x :: word).length by simp; omega] at htotal

/-! ## Concatenations -/

/-- Two lines are concatenated by copying one after the other, and what is built is visited as they
are. -/
theorem exists_concat_breadthFirst (ha : a.Spells h u) (hb : b.Spells h v) :
    ∃ c aImages h₁ aCopies bStart bImages h₂ bCopies p g,
      Copied h ∅ a.ids a.start c.start aImages h₁ aCopies ∧
      aCopies.map (·.1) = h.graph.breadthFirst a.start ∧
      Copied h₁ ∅ a.ids b.start bStart bImages h₂ bCopies ∧
      bCopies.map (·.1) = h₁.graph.breadthFirst b.start ∧
      h₂.graph.Joined p bStart g ∧ Returns (a.concat b) h c { h₂ with graph := g } ∧
      c.ids = a.ids ∧
      g.breadthFirst c.start = h₂.graph.breadthFirst c.start ++ h₂.graph.breadthFirst bStart := by
  obtain ⟨aStart, aImages, h₁, bStart, bImages, h₂, f, f', hacopy, hbcopy, hresolve, hresolve',
    hpair⟩ := exists_copiedPair ha.within hb.within
      (hasShape_below ha.tracked.distinctIds ha.reaches_stop)
      (hasShape_below hb.tracked.distinctIds hb.reaches_stop)
  obtain ⟨_, _, _, aCopies, hacopy', hca, haorder⟩ := exists_copied_breadthFirst h a.ids a.start
  obtain ⟨_, _, _, bCopies, hbcopy', hcb, hborder⟩ := exists_copied_breadthFirst h₁ a.ids b.start
  obtain ⟨hroot, rfl⟩ := hacopy.unique hacopy'
  cases hroot
  obtain ⟨hroot, rfl⟩ := hbcopy.unique hbcopy'
  cases hroot
  -- the copies are lines as well
  obtain ⟨rest, hline⟩ := ha.line
  obtain ⟨rest', hline'⟩ := hb.line
  have hafirst := Graph.isIso_below_iff.1 hpair.first
  have hbsecond := Graph.isIso_below_iff.1 hpair.second
  have hfirst := hline.renames hafirst.renames
  have hsecond := hline'.renames hbsecond.renames
  rw [List.map_cons, hafirst.root] at hfirst
  rw [List.map_cons, hbsecond.root] at hsecond
  obtain ⟨g, hconnect, hjoined⟩ := Graph.exists_joined
    (hpair.first_new _ (hfirst.reaches_iff.2 hfirst.stop_mem)).2 hpair.root_mem
  refine ⟨ofStates aStart (f' b.stop) a.ids, aImages, h₁, aCopies, bStart, bImages, h₂, bCopies,
    f a.stop, g, hca, haorder, hcb, hborder, hjoined, ?_, rfl, ?_⟩
  · unfold concat
    refine .bind hacopy (.bind hbcopy (.bind hresolve (.bind hresolve' ?_)))
    exact .bind (HeapM.returns_setFinal ..) (.bind (HeapM.returns_connect hconnect) (.pure _ _))
  · exact hfirst.breadthFirst_joined hsecond hjoined hpair.distinctIds_first
      hpair.distinctIds_second hpair.id_ne

/-- A concatenation draws an id for each state of both operands, and consists of the states that
have them. -/
theorem exists_concat_issues (ha : a.Spells h u) (hb : b.Spells h v) :
    ∃ c h', Returns (a.concat b) h c h' ∧ c.ids = a.ids ∧
      h.Issues a.ids (2 * (u ++ v).length) h' ∧ c.IsLast h' (2 * (u ++ v).length) := by
  obtain ⟨c, _, h₁, aCopies, bStart, _, h₂, bCopies, p, g, hca, haorder, hcb, hborder, hjoined,
    hreturns, hids, hvisits⟩ := exists_concat_breadthFirst ha hb
  have haids : a.ids ∈ h₁ := hca.grows.source ha.ids
  have htotal : 2 * (u ++ v).length = aCopies.length + bCopies.length := by
    rw [List.length_append, Nat.mul_add, ← ha.length_breadthFirst, ← haorder,
      ← (hb.grow hca.grows).length_breadthFirst, ← hborder, List.length_map, List.length_map]
  have hissues := ((hca.issues ha.ids).trans ha.ids (hcb.issues haids)).setGraph hjoined.size_eq
    fun r _ => hjoined.id_eq' r
  -- the first copy is visited as it was before the second was made
  have hfirst : h₂.graph.breadthFirst c.start = h₁.graph.breadthFirst c.start :=
    Graph.breadthFirst_of_state_eq fun r hr => hcb.grows.state_eq r (hr.mem hca.root_mem)
  rw [htotal]
  refine ⟨c, _, hreturns, hids, hissues, ?_⟩
  unfold IsLast
  rw [hissues.size_eq, Nat.add_sub_cancel, hvisits, hfirst, hca.breadthFirst_eq haorder ha.ids,
    hcb.breadthFirst_eq hborder haids, hca.records.refs_eq, hcb.records.refs_eq, ← List.map_append,
    hca.records.size_eq, List.range'_append_1]

/-! ## Words -/

/-- The letters are made one after the other, and if there is one only, its ids are the last. -/
theorem exists_letters_issues (hword : ∀ y ∈ x :: word, y ≠ .epsilon ∧ y.isHashable = true)
    (hsrc : src ∈ h) :
    ∃ a automata h',
      Returns ((x :: word).mapM fun y => ofSymbol y (some src)) h (a :: automata) h' ∧
      List.Forall₂ (fun y b => b.Spells h' [y]) (x :: word) (a :: automata) ∧ a.ids = src ∧
      h.Issues src (2 * (x :: word).length) h' ∧ (automata = [] → a.IsLast h' 2) := by
  obtain ⟨hx, hhash⟩ := hword x List.mem_cons_self
  obtain ⟨_, h', hmap, hspells, -⟩ := exists_mapM_ofSymbol hword hsrc
  have hissues := issues_of_returns_mapM_ofSymbol (fun y hy => (hword y hy).1) hsrc hmap
  obtain ⟨a, automata, ha, hrest, rfl⟩ := List.forall₂_cons_left_iff.1 hspells
  refine ⟨a, automata, h', hmap, hspells.imp fun _ _ h => h.1, ?_⟩
  rw [List.mapM_cons] at hmap
  obtain ⟨_, h₁, hletter, hmap⟩ := hmap.exists_of_bind
  obtain ⟨_, _, hmap, hpure⟩ := hmap.exists_of_bind
  cases hpure
  refine ⟨?_, hissues, ?_⟩
  · rw [(issues_of_returns_ofSymbol hx hsrc hletter).2]
    rfl
  · rintro rfl
    rw [List.forall₂_nil_right_iff] at hrest
    subst hrest
    cases hmap
    exact isLast_of_returns_ofSymbol hx hhash hsrc hletter

/-- Put behind a word of `k` letters, the first of `m + 1` more makes it a word of `k + 1`. -/
theorem count_foldlM_succ (m k : Nat) : 2 * (k + 1) + m * (m + 1 + 2 * (k + 1)) =
    (m + 1) * (m + 1 + 1 + 2 * k) := by
  simp only [Nat.mul_add, Nat.add_mul]
  omega

/-- Letters are put one after another behind a word. Every time the word is copied, which has become
longer by one letter. -/
theorem exists_foldlM_concat_issues {automata : List Automaton} (ha : a.Spells h u)
    (hspells : List.Forall₂ (fun x b => b.Spells h [x]) v automata)
    (hlast : automata = [] → a.IsLast h (2 * u.length)) :
    ∃ c h', Returns (automata.foldlM concat a) h c h' ∧ c.ids = a.ids ∧
      h.Issues a.ids (v.length * (v.length + 1 + 2 * u.length)) h' ∧
      c.IsLast h' (2 * (u ++ v).length) := by
  induction automata generalizing a u v h with
  | nil =>
    cases hspells
    refine ⟨a, h, .pure a h, rfl, ?_, ?_⟩
    · rw [List.length_nil, Nat.zero_mul]
      exact .refl h a.ids
    · rw [List.append_nil]
      exact hlast rfl
  | cons b automata ih =>
    cases hspells with
    | @cons x _ v _ hb hrest =>
      obtain ⟨c, h₁, hconcat, hids, hissues, hclast⟩ := exists_concat_issues ha hb
      obtain ⟨_, _, hconcat', hc, -, hgrows⟩ := exists_concat_spells ha hb
      obtain ⟨rfl, rfl⟩ := hconcat.unique hconcat'
      obtain ⟨d, h₂, hfold, hdids, hissues', hdlast⟩ :=
        ih hc (hrest.imp fun _ _ hspells => hspells.grow hgrows) fun _ => hclast
      rw [hids] at hissues'
      refine ⟨d, h₂, ?_, hdids.trans hids, ?_, ?_⟩
      · rw [List.foldlM_cons]
        exact .bind hconcat hfold
      · have htotal := hissues.trans ha.ids hissues'
        rw [List.length_append, List.length_singleton] at htotal
        rwa [List.length_cons, ← count_foldlM_succ]
      · rwa [List.append_assoc] at hdlast

/-- The letters and all that is copied to put them together. -/
theorem count_ofWord (m : Nat) : 2 * (m + 1) + m * (m + 1 + 2 * 1) =
    (m + 1) * (m + 1) + 3 * (m + 1) - 2 := by
  simp only [Nat.mul_add, Nat.add_mul]
  omega

/-- What is left of the account without the result. -/
theorem count_ofWord_sub (n : Nat) :
    2 * n ≤ n * n + 3 * n - 2 ∧ n * n + 3 * n - 2 - 2 * n = n * n + n - 2 := by
  have hsquare : n ≤ n * n := Nat.le_mul_self n
  omega

theorem exists_ofWord_issues {content : String} (hcontent : content ≠ "") (h : Heap) :
    ∃ a h', Returns (ofWord content) h a h' ∧ a.Spells h' (Symbol.ofText content) ∧
      a.current = [a.start] ∧ a.ids = (h.addSource 0).1 ∧
      (h.addSource 0).2.Issues (h.addSource 0).1
        (content.length * content.length + 3 * content.length - 2) h' ∧
      a.IsLast h' (2 * content.length) := by
  obtain ⟨a, h', hreturns, ha, hcurrent⟩ := exists_ofWord hcontent h
  refine ⟨a, h', hreturns, ha, hcurrent, ?_⟩
  have hsource : Returns HeapM.newSource h (h.addSource 0).1 (h.addSource 0).2 := .modifyGet _ h
  have hletters := Symbol.letters_ofText content
  rw [← Symbol.length_ofText]
  unfold ofWord at hreturns
  cases hword : Symbol.ofText content with
  | nil => exact absurd hword (Symbol.ofText_ne_nil hcontent)
  | cons x word =>
    rw [hword] at hletters hreturns
    obtain ⟨b, automata, h₁, hmap, hspells, hids, hissues, hlast⟩ :=
      exists_letters_issues hletters (h.mem_addSource 0)
    cases hspells with
    | cons hb hrest =>
      obtain ⟨c, h₂, hfold, hcids, hissues', hclast⟩ :=
        exists_foldlM_concat_issues hb hrest hlast
      obtain ⟨rfl, rfl⟩ := hreturns.unique (.bind hsource (.bind hmap hfold))
      rw [hids] at hissues'
      have htotal := hissues.trans (h.mem_addSource 0) hissues'
      rw [List.length_cons, List.length_singleton, count_ofWord] at htotal
      exact ⟨hcids.trans hids, htotal, hclast⟩

/-- The states that were made last have the ids that were drawn last. -/
theorem IsLast.idsBelow_eq {m : Nat} (ha : a.IsLast h' m) (hh : h.Issues src n h') (hm : m ≤ n) :
    h'.graph.idsBelow a.start =
      (List.range m).map fun i : Nat => h.nextId src + ((n - m + i : Nat) : Int) := by
  unfold IsLast at ha
  rw [Graph.idsBelow, ha, hh.size_eq, Nat.add_sub_assoc hm, List.range'_eq_map_range, List.map_map,
    List.map_map]
  refine List.map_congr_left fun i hi => ?_
  rw [List.mem_range] at hi
  rw [Function.comp, Function.comp, Nat.add_assoc]
  exact hh.id_new _ (by omega)

theorem IsLast.new {m : Nat} {r : Ref} (ha : a.IsLast h' m) (hh : h.Issues src n h') (hm : m ≤ n)
    (hr : r ∈ h'.graph.breadthFirst a.start) : h.New h' r := by
  unfold IsLast at ha
  rw [ha, List.mem_map] at hr
  obtain ⟨k, hk, rfl⟩ := hr
  have hsize := hh.size_eq
  rw [List.mem_range'_1] at hk
  constructor
  · show ¬ k < h.graph.size
    omega
  · show k < h'.graph.size
    omega

/-- The ids of the automaton of a word whose source counts from zero. -/
theorem idsBelow_of_issues {n : Nat}
    (hissues : (h.addSource 0).2.Issues (h.addSource 0).1 (n * n + 3 * n - 2) h')
    (hlast : a.IsLast h' (2 * n)) : h'.graph.idsBelow a.start =
      (List.range (2 * n)).map fun i : Nat => ((n * n + n - 2 + i : Nat) : Int) := by
  have hbelow := hlast.idsBelow_eq hissues (count_ofWord_sub n).1
  rw [h.nextId_addSource, (count_ofWord_sub n).2] at hbelow
  simpa only [Int.zero_add] using hbelow

/-! ## What is printed -/

/-- The last state is the one final one. -/
theorem Spells.isFinal_getElem (ha : a.Spells h word) {i : Nat}
    (hi : i < (h.graph.breadthFirst a.start).length) :
    (h.graph.state (h.graph.breadthFirst a.start)[i]).isFinal =
      decide (i + 1 = 2 * word.length) := by
  have hlabels := Symbol.length_spaced ha.nonempty
  have hline := ha.line_breadthFirst
  obtain ⟨hlt, hstop⟩ := List.getElem?_eq_some_iff.1 hline.getElem?_stop
  rw [Bool.eq_iff_iff, decide_eq_true_iff, hline.isFinal_iff (List.getElem_mem hi), ← hstop,
    hline.nodup.getElem_inj_iff]
  omega

/-- A cursor at the start is at the first state and at no other. -/
theorem atCursor_getElem_iff {g : Graph} (hcurrent : a.current = [a.start]) {i : Nat}
    (hi : i < (g.breadthFirst a.start).length) :
    (∃ q ∈ a.current, (g.state q).id = (g.state (g.breadthFirst a.start)[i]).id) ↔ i = 0 := by
  have hnodup := g.nodup_idsBelow a.start
  obtain ⟨rest, hrest⟩ := g.breadthFirst_eq_cons a.start
  rw [Graph.idsBelow, hrest, List.map_cons, List.nodup_cons] at hnodup
  simp only [hrest, hcurrent, List.mem_singleton, exists_eq_left]
  cases i with
  | zero => simp
  | succ i =>
    refine iff_of_false (fun hid => hnodup.1 ?_) (Nat.succ_ne_zero i)
    rw [hid, List.getElem_cons_succ]
    exact List.mem_map_of_mem (List.getElem_mem _)

/-- The line of a drawing for the state at place `i` of the automaton of a word of `n` letters. -/
def wordLine (n i : Nat) : String :=
  let id := n * n + n - 2 + i
  let isFinal := Symbol.boolText (i + 1 = 2 * n)
  let shape := if i = 0 then "box" else "ellipse"
  s!"    {i} [ label = \"{id} {isFinal}\" " ++ s!"shape = {shape} ]\n"

/-- The automaton of a word is drawn with the last ids that its source has given. -/
theorem stateLine_eq_wordLine (ha : a.Spells h word) (hcurrent : a.current = [a.start])
    (hids : h.graph.idsBelow a.start = (List.range (2 * word.length)).map fun i : Nat =>
      ((word.length * word.length + word.length - 2 + i : Nat) : Int)) {i : Nat}
    (hi : i < (h.graph.breadthFirst a.start).length) :
    a.stateLine h.graph i (h.graph.breadthFirst a.start)[i] = wordLine word.length i := by
  have hid : (h.graph.state (h.graph.breadthFirst a.start)[i]).id =
      ((word.length * word.length + word.length - 2 + i : Nat) : Int) := by
    have hplace := congrArg (·[i]?) hids
    rw [ha.length_breadthFirst] at hi
    simpa [Graph.idsBelow, ha.length_breadthFirst, hi] using hplace
  unfold stateLine wordLine
  simp only [ha.isFinal_getElem hi, atCursor_getElem_iff hcurrent hi]
  rw [hid]
  rfl

theorem map_stateLine_eq (ha : a.Spells h word) (hcurrent : a.current = [a.start])
    (hids : h.graph.idsBelow a.start = (List.range (2 * word.length)).map fun i : Nat =>
      ((word.length * word.length + word.length - 2 + i : Nat) : Int)) :
    (h.graph.breadthFirst a.start).map
        (fun r => a.stateLine h.graph (h.graph.placeBelow a.start r - 1) r) =
      (List.range (2 * word.length)).map (wordLine word.length) := by
  refine List.ext_getElem (by simp [ha.length_breadthFirst]) fun i hi hi' => ?_
  rw [List.length_map] at hi
  rw [List.getElem_map, List.getElem_map, List.getElem_range,
    Graph.placeBelow_of_getElem? (List.getElem?_eq_getElem hi), Nat.add_sub_cancel]
  exact stateLine_eq_wordLine ha hcurrent hids hi

end Automaton

namespace CommandLine

/-- The account of a word of `n` letters, on any heap. One source is made for it and counts up to
`n * n + 3 * n - 2`. So many states are made, of which the one made at place `k` has the id `k`, so
no two of them have one id. A traversal of the automaton visits the `2 * n` states that were made
last, in the order in which they were made, and so it meets the last `2 * n` ids in their order; the
source gives larger ones. The command prints these ids in this order, whatever parser reads its
arguments. -/
theorem ids_of_word {word : String} {n : Nat} (hlength : word.length = n) (hn : 1 ≤ n) :
    (∀ h : Heap, ∃ a h', Returns (Automaton.ofWord word) h a h' ∧
      a.ids = ⟨h.nextIds.size⟩ ∧
      h'.nextIds = h.nextIds.push ((n * n + 3 * n - 2 : Nat) : Int) ∧
      h'.graph.size = h.graph.size + (n * n + 3 * n - 2) ∧
      (∀ k < n * n + 3 * n - 2, (h'.graph.state ⟨h.graph.size + k⟩).id = (k : Int)) ∧
      (∀ r t, h.New h' r → h.New h' t → (h'.graph.state r).id = (h'.graph.state t).id → r = t) ∧
      h'.graph.breadthFirst a.start =
        (List.range' (h.graph.size + (n * n + n - 2)) (2 * n)).map Ref.mk ∧
      (h'.graph.idsBelow a.start =
        (List.range (2 * n)).map fun i : Nat => ((n * n + n - 2 + i : Nat) : Int)) ∧
      ∀ r, h'.graph.Reaches a.start r → (h'.graph.state r).id < h'.nextId a.ids) ∧
    ∀ (parser : Parser) program arguments s input, parser program arguments = .ok s →
      s.word = word → ∃ a h' outcome, Returns (Automaton.ofWord word) {} a h' ∧
        runBy parser (program :: arguments) input = .ok outcome ∧
        outcome.debug = "digraph G\x7b\n"
          ++ String.join ((List.range (2 * n)).map (Automaton.wordLine n))
          ++ String.join ((h'.graph.listing a.start).transitions.map Automaton.edgeLine)
          ++ "\x7d\n" := by
  subst hlength
  have hword : word ≠ "" := fun hempty => by simp [hempty] at hn
  obtain ⟨hle, hsub⟩ := Automaton.count_ofWord_sub word.length
  constructor
  · intro h
    obtain ⟨a, h', hreturns, ha, -, hids, hissues, hlast⟩ :=
      Automaton.exists_ofWord_issues hword h
    have hnext := h.nextId_addSource 0
    have hbelow := Automaton.idsBelow_of_issues hissues hlast
    refine ⟨a, h', hreturns, hids, ?_, hissues.size_eq, fun k hk => ?_,
      fun r t hr ht => hissues.eq_of_id_eq hr ht, ?_, hbelow, fun r hr => ?_⟩
    · rw [hissues.nextIds_eq_push, Int.zero_add]
    · have hid := hissues.id_new k hk
      rwa [hnext, Int.zero_add] at hid
    · unfold Automaton.IsLast at hlast
      rwa [hissues.size_eq, Nat.add_sub_assoc hle, hsub] at hlast
    · have hr := (Graph.mem_breadthFirst ha.tracked.distinctIds).2 hr
      rw [hids]
      exact hissues.id_lt_nextId (hlast.new hissues hle hr) (h.mem_addSource 0)
  · rintro parser program arguments s input hparse rfl
    obtain ⟨a, h', hreturns, ha, hcurrent, -, hissues, hlast⟩ :=
      Automaton.exists_ofWord_issues hword {}
    have hserve := returns_serve hreturns ha input
    rw [← execute_of_ok hparse hword] at hserve
    have hbelow := Automaton.idsBelow_of_issues hissues hlast
    rw [← Symbol.length_ofText] at hbelow
    have hlines := Automaton.map_stateLine_eq ha hcurrent hbelow
    rw [Symbol.length_ofText] at hlines
    refine ⟨a, h', _, hreturns, runBy_of_returns hserve, ?_⟩
    dsimp only
    rw [Automaton.drawing_eq, hlines, String.append_assoc]
    rfl

/-- A word of two letters: eight states are made, four of them for the letters, and the copies of
these are drawn. -/
theorem ids_of_word_ab :
    "ab".length = 2 ∧ 1 ≤ 2 ∧ ∃ a h', Returns (Automaton.ofWord "ab") {} a h' ∧
      h'.nextIds = #[8] ∧ h'.graph.idsBelow a.start = [4, 5, 6, 7] ∧
      ∃ outcome edges, run ["match", "--word", "ab"] "" = .ok outcome ∧
        outcome.debug = "digraph G\x7b\n" ++ ("    0 [ label = \"4 False\" shape = box ]\n"
          ++ "    1 [ label = \"5 False\" shape = ellipse ]\n"
          ++ "    2 [ label = \"6 False\" shape = ellipse ]\n"
          ++ "    3 [ label = \"7 True\" shape = ellipse ]\n") ++ edges ++ "\x7d\n" := by
  have hlength : "ab".length = 2 := by decide
  have hpos : 1 ≤ 2 := by decide
  obtain ⟨hheap, hcommand⟩ := ids_of_word hlength hpos
  obtain ⟨a, h', hreturns, -, hnext, -, -, -, -, hbelow, -⟩ := hheap {}
  have hparse : Release.old.parser "match" ["--word", "ab"] = .ok { word := "ab" } := by decide
  have hlines : String.join ((List.range 4).map (Automaton.wordLine 2)) =
      "    0 [ label = \"4 False\" shape = box ]\n"
        ++ "    1 [ label = \"5 False\" shape = ellipse ]\n"
        ++ "    2 [ label = \"6 False\" shape = ellipse ]\n"
        ++ "    3 [ label = \"7 True\" shape = ellipse ]\n" := rfl
  obtain ⟨_, _, outcome, -, hrun, hdebug⟩ := hcommand _ _ _ _ "" hparse rfl
  rw [hlines] at hdebug
  exact ⟨hlength, hpos, a, h', hreturns, hnext, hbelow, outcome, _, hrun, hdebug⟩

end CommandLine

end EpsilonNfa
