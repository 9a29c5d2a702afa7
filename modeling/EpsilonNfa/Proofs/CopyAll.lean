import EpsilonNfa.Proofs.Edits
import EpsilonNfa.Proofs.Independence
import EpsilonNfa.Proofs.IssuedIds
import EpsilonNfa.Proofs.Resolution

/-!
# Copies of several automata

Automata that are copied together are copied one after the other, each where it comes first in the
list, and a table says later which copy it has (`SessionM.CopiedAll`). Each copy is made on the heap
that the earlier ones have left, through images of its own. So copies share nothing, whatever the
originals share, and only the places of the list that hold one automaton hold one copy
(`SessionM.copyAll_shares`).
-/

namespace EpsilonNfa

variable {h h' h'' : Heap} {s s' s₁ s₂ : Session} {r r' c c' : AutomatonRef} {q : Ref}
variable {l l' l₁ l₂ copies copies' : List AutomatonRef}
variable {table : List (AutomatonRef × AutomatonRef)}

/-! ## One copy -/

namespace Automaton

variable {a b b' : Automaton}

theorem cursorMet_iff_of_extends (ha : a.Within h) (hh : h.Extends h') :
    a.CursorMet h'.graph ↔ a.CursorMet h.graph := by
  unfold CursorMet
  rw [hh.idsBelow_eq ha.start]
  refine forall₂_congr fun r hr => ?_
  rw [hh.state_eq r]
  rcases List.mem_cons.1 hr with rfl | hr
  · exact ha.stop
  · exact ha.current r hr

theorem exists_returns_copy_iff (ha : a.Within h) :
    (∃ b h', Returns a.copy h b h') ↔ a.CursorMet h.graph := by
  obtain ⟨_, _, h', -, -, hmade, hfails⟩ := copy_outcome ha
  refine ⟨fun ⟨b, h'', hcopy⟩ => ?_, fun hmet => ?_⟩
  · by_contra hmet
    obtain ⟨i, hi⟩ := hfails hmet
    exact hi.not_returns hcopy
  · obtain ⟨c, hcopy, -⟩ := hmade hmet
    exact ⟨c, h', hcopy⟩

/-- A copy of an automaton is a copy of the graph below its start. -/
theorem exists_copied_of_returns (ha : a.Within h) (hcopy : Returns a.copy h b h') :
    ∃ images copies, Copied h ∅ a.ids a.start b.start images h' copies ∧
      copies.map (·.1) = h.graph.breadthFirst a.start ∧ b.ids = a.ids := by
  obtain ⟨root, images, h₁, copies, hgraph, hc, horder⟩ :=
    exists_copied_breadthFirst h a.ids a.start
  have hfind := hc.findsImages horder ha.ids (.refl h₁)
  unfold copy at hcopy
  obtain ⟨_, _, hgraph', hrest⟩ := hcopy.exists_of_bind
  obtain ⟨rfl, rfl⟩ := hgraph.unique hgraph'
  obtain ⟨stop, h₂, hstop, hrest⟩ := hrest.exists_of_bind
  rw [(hfind.eq_of_returns hstop).2] at hrest
  obtain ⟨current, h₃, hcurrent, hrest⟩ := hrest.exists_of_bind
  have hheap : h₁ = h₃ := congrArg Prod.snd ((hfind.run_mapM a.current).symm.trans hcurrent)
  cases hrest
  exact ⟨images, copies, hheap ▸ hc, horder, rfl⟩

/-- A copy made after the first heap and there on the second: everything below it is new, its ids
tell its states apart and have been given by the source of the original, and it is listed as the
original is. -/
structure CopiedSince (h : Heap) (a b : Automaton) (h' : Heap) : Prop where
  ids_eq : b.ids = a.ids
  distinctIds : h'.graph.DistinctIds b.start
  below : ∀ q, h'.graph.Reaches b.start q → h.New h' q
  id_lt : ∀ q, h'.graph.Reaches b.start q → (h'.graph.state q).id < h'.nextId a.ids
  listing_eq : h'.graph.listing b.start = h.graph.listing a.start

theorem copiedSince_of_returns (ha : a.Within h) (hcopy : Returns a.copy h b h') :
    CopiedSince h a b h' := by
  obtain ⟨images, copies, hc, horder, hids⟩ := exists_copied_of_returns ha hcopy
  exact
    { ids_eq := hids
      distinctIds := hc.distinctIds ha.ids
      below := fun q hq => hc.new_of_reaches hq
      id_lt := fun q hq => (hc.issues ha.ids).id_lt_nextId (hc.new_of_reaches hq) ha.ids
      listing_eq := hc.listing_eq horder ha.ids }

/-- A copy draws one id for each state that a traversal of the original visits, and its traversal
meets these ids in the order in which they were drawn. -/
theorem issues_of_returns_copy (ha : a.Within h) (hcopy : Returns a.copy h b h') :
    h.Issues a.ids (h.graph.idsBelow a.start).length h' ∧
      h'.graph.idsBelow b.start =
        (List.range (h.graph.idsBelow a.start).length).map fun k : Nat =>
          h.nextId a.ids + (k : Int) := by
  obtain ⟨images, copies, hc, horder, -⟩ := exists_copied_of_returns ha hcopy
  have hlength : (h.graph.idsBelow a.start).length = copies.length := by
    rw [Graph.idsBelow, ← horder, List.length_map, List.length_map]
  rw [hlength]
  exact ⟨hc.issues ha.ids, hc.idsBelow_eq horder ha.ids⟩

namespace CopiedSince

theorem mem_start (hb : CopiedSince h a b h') : b.start ∈ h'.graph :=
  (hb.below _ .refl).2

theorem mono (hb : CopiedSince h a b h') (hh : h'.Extends h'')
    (hnext : h'.nextId a.ids ≤ h''.nextId a.ids) : CopiedSince h a b h'' where
  ids_eq := hb.ids_eq
  distinctIds := hb.distinctIds.of_state_eq hb.mem_start hh.state_eq
  below q hq := (hb.below q ((hh.reaches_iff hb.mem_start).1 hq)).mem_grows hh
  id_lt q hq := by
    have hq := (hh.reaches_iff hb.mem_start).1 hq
    rw [hh.state_eq q (hb.below q hq).2]
    exact Int.lt_of_lt_of_le (hb.id_lt q hq) hnext
  listing_eq := (hh.listing_eq hb.mem_start).trans hb.listing_eq

theorem of_grows (hh : h.Extends h') (ha : a.Within h) (hb : CopiedSince h' a b h'') :
    CopiedSince h a b h'' where
  ids_eq := hb.ids_eq
  distinctIds := hb.distinctIds
  below q hq := (hb.below q hq).of_grows hh
  id_lt := hb.id_lt
  listing_eq := hb.listing_eq.trans (hh.listing_eq ha.start)

/-- Nothing below the original lies below the copy. -/
theorem not_reaches (hb : CopiedSince h a b h') (hh : h.Extends h') (hr : b'.start ∈ h.graph)
    (hq : h'.graph.Reaches b.start q) : ¬ h'.graph.Reaches b'.start q := fun hq' =>
  (hb.below q hq).1 (((hh.reaches_iff hr).1 hq').mem hr)

end CopiedSince

/-- No state lies below both automata, and no id is below both if they draw from one source. -/
structure Apart (g : Graph) (b b' : Automaton) : Prop where
  not_reaches : ∀ q, g.Reaches b.start q → ¬ g.Reaches b'.start q
  id_ne : b.ids = b'.ids → ∀ q t, g.Reaches b.start q → g.Reaches b'.start t →
    (g.state q).id ≠ (g.state t).id

namespace Apart

theorem symm {g : Graph} (hb : b.Apart g b') : b'.Apart g b where
  not_reaches q hq hq' := hb.not_reaches q hq' hq
  id_ne hids q t hq ht := (hb.id_ne hids.symm t q ht hq).symm

theorem mono (hb : b.Apart h.graph b') (hh : h.Extends h') (hstart : b.start ∈ h.graph)
    (hstart' : b'.start ∈ h.graph) : b.Apart h'.graph b' where
  not_reaches q hq hq' :=
    hb.not_reaches q ((hh.reaches_iff hstart).1 hq) ((hh.reaches_iff hstart').1 hq')
  id_ne hids q t hq ht := by
    have hq := (hh.reaches_iff hstart).1 hq
    have ht := (hh.reaches_iff hstart').1 ht
    rw [hh.state_eq q (hq.mem hstart), hh.state_eq t (ht.mem hstart')]
    exact hb.id_ne hids q t hq ht

end Apart

/-- A copy is apart from those that were made before it. -/
theorem CopiedSince.apart {a' : Automaton} {n : Nat} (hb : CopiedSince h a b h')
    (hb' : CopiedSince h' a' b' h'') (hissues : h'.Issues a'.ids n h'') (hh : h'.Extends h'') :
    b.Apart h''.graph b' where
  not_reaches q hq hq' := hb'.not_reaches hh hb.mem_start hq' hq
  id_ne hids q t hq ht := by
    have hq := (hh.reaches_iff hb.mem_start).1 hq
    have hsource : a.ids = a'.ids := hb.ids_eq.symm.trans (hids.trans hb'.ids_eq)
    have hlt := hb.id_lt q hq
    have hle := hissues.nextId_le_id (hb'.below t ht)
    rw [hh.state_eq q (hb.below q hq).2]
    rw [hsource] at hlt
    omega

end Automaton

/-! ## One copy after the other -/

namespace SessionM

theorem returns_go_of_eq_some (hr : table.lookup r = some c) :
    Returns (copyAll.go (r :: l) table) s copies s' ↔
      ∃ copies', copies = c :: copies' ∧ Returns (copyAll.go l table) s copies' s' := by
  rw [copyAll.go]
  simp only [hr]
  constructor
  · intro h
    obtain ⟨copies', s₁, hrest, h⟩ := h.exists_of_bind
    cases h
    exact ⟨copies', rfl, hrest⟩
  · rintro ⟨copies', rfl, hrest⟩
    exact .bind hrest (.pure _ s')

theorem returns_go_of_eq_none (hr : table.lookup r = none) :
    Returns (copyAll.go (r :: l) table) s copies s' ↔
      ∃ c s₁ copies', Returns (copy r) s c s₁ ∧ copies = c :: copies' ∧
        Returns (copyAll.go l ((r, c) :: table)) s₁ copies' s' := by
  rw [copyAll.go]
  simp only [hr]
  constructor
  · intro h
    obtain ⟨c, s₁, hcopy, h⟩ := h.exists_of_bind
    obtain ⟨copies', s₂, hrest, h⟩ := h.exists_of_bind
    cases h
    exact ⟨c, s₁, copies', hcopy, rfl, hrest⟩
  · rintro ⟨c, s₁, copies', hcopy, rfl, hrest⟩
    exact .bind hcopy (.bind hrest (.pure _ s'))

/-- The copies of the members of a list, with the table of those that were made and the session
after them. -/
inductive CopiedAll (s : Session) : List AutomatonRef → List AutomatonRef →
    List (AutomatonRef × AutomatonRef) → Session → Prop
  | nil : CopiedAll s [] [] [] s
  /-- One that the table has is not copied. -/
  | again {l copies : List AutomatonRef} {table : List (AutomatonRef × AutomatonRef)} {s₁ : Session}
      {r c : AutomatonRef} (hl : CopiedAll s l copies table s₁) (hr : table.lookup r = some c) :
      CopiedAll s (l ++ [r]) (copies ++ [c]) table s₁
  | first {l copies : List AutomatonRef} {table : List (AutomatonRef × AutomatonRef)}
      {s₁ s₂ : Session} {r c : AutomatonRef} (hl : CopiedAll s l copies table s₁)
      (hr : table.lookup r = none) (hcopy : Returns (copy r) s₁ c s₂) :
      CopiedAll s (l ++ [r]) (copies ++ [c]) ((r, c) :: table) s₂

namespace CopiedAll

/-- What goes on from the table goes on from the list, through any part of the rest. -/
theorem exists_append (hl : CopiedAll s l copies table s₁)
    (hrest : Returns (copyAll.go (l₁ ++ l₂) table) s₁ copies' s') :
    ∃ copies₁ copies₂ table₂ s₂, copies' = copies₁ ++ copies₂ ∧
      CopiedAll s (l ++ l₁) (copies ++ copies₁) table₂ s₂ ∧
      Returns (copyAll.go l₂ table₂) s₂ copies₂ s' := by
  induction l₁ generalizing l copies table s₁ copies' with
  | nil => exact ⟨[], copies', table, s₁, rfl, by simpa using hl, hrest⟩
  | cons r l₁ ih =>
    cases hr : table.lookup r with
    | some c =>
      obtain ⟨copies'', rfl, hlater⟩ := (returns_go_of_eq_some hr).1 hrest
      obtain ⟨copies₁, copies₂, table₂, s₂, rfl, hl₁, hl₂⟩ := ih (hl.again hr) hlater
      exact ⟨c :: copies₁, copies₂, table₂, s₂, rfl, by simpa using hl₁, hl₂⟩
    | none =>
      obtain ⟨c, s₁', copies'', hcopy, rfl, hlater⟩ := (returns_go_of_eq_none hr).1 hrest
      obtain ⟨copies₁, copies₂, table₂, s₂, rfl, hl₁, hl₂⟩ := ih (hl.first hr hcopy) hlater
      exact ⟨c :: copies₁, copies₂, table₂, s₂, rfl, by simpa using hl₁, hl₂⟩

theorem returns_append (hl : CopiedAll s l copies table s₁)
    (hrest : Returns (copyAll.go l' table) s₁ copies' s₂) :
    Returns (copyAll (l ++ l')) s (copies ++ copies') s₂ := by
  induction hl generalizing l' copies' with
  | nil => exact hrest
  | again hl hr ih =>
    rw [List.append_assoc, List.append_assoc]
    exact ih ((returns_go_of_eq_some hr).2 ⟨_, rfl, hrest⟩)
  | first hl hr hcopy ih =>
    rw [List.append_assoc, List.append_assoc]
    exact ih ((returns_go_of_eq_none hr).2 ⟨_, _, _, hcopy, rfl, hrest⟩)

end CopiedAll

theorem returns_copyAll_iff :
    Returns (copyAll l) s copies s' ↔ ∃ table, CopiedAll s l copies table s' := by
  constructor
  · intro h
    have hwhole : Returns (copyAll.go (l ++ []) []) s copies s' := by rwa [List.append_nil]
    obtain ⟨copies₁, copies₂, table, s₁, rfl, hl, hrest⟩ := CopiedAll.exists_append .nil hwhole
    cases hrest
    exact ⟨table, by simpa using hl⟩
  · rintro ⟨table, hl⟩
    have hend : Returns (copyAll.go [] table) s' [] s' := .pure [] s'
    simpa using hl.returns_append hend

/-! ## What the table says -/

theorem lookup_cons_of_ne (hne : r' ≠ r) : ((r, c) :: table).lookup r' = table.lookup r' := by
  rw [List.lookup_cons, beq_eq_false_iff_ne.2 hne]

theorem lookup_cons_eq_some_iff : ((r, c) :: table).lookup r' = some c' ↔
    r' = r ∧ c' = c ∨ r' ≠ r ∧ table.lookup r' = some c' := by
  by_cases heq : r' = r
  · simp [heq, eq_comm]
  · simp [lookup_cons_of_ne heq, heq]

namespace CopiedAll

/-- The table has the members of the list and no others. -/
theorem lookup_eq_none_iff (hl : CopiedAll s l copies table s₁) :
    table.lookup r' = none ↔ r' ∉ l := by
  induction hl with
  | nil => simp
  | @again l _ _ _ r _ _ hr ih =>
    rw [ih, List.mem_append, List.mem_singleton, not_or, iff_self_and]
    rintro hnot rfl
    rw [ih.2 hnot] at hr
    cases hr
  | @first l _ table _ _ r _ _ _ _ ih =>
    rw [List.mem_append, List.mem_singleton, not_or, ← ih]
    by_cases heq : r' = r
    · simp [heq]
    · simp [lookup_cons_of_ne heq, heq]

/-- Each place of the list has the copy that the table says. -/
theorem map_lookup_eq (hl : CopiedAll s l copies table s₁) :
    l.map (table.lookup ·) = copies.map some := by
  induction hl with
  | nil => rfl
  | again _ hr ih => simp [ih, hr]
  | @first l copies table _ _ r c hl hr _ ih =>
    have hold : ∀ q ∈ l, ((r, c) :: table).lookup q = table.lookup q := fun q hq =>
      lookup_cons_of_ne fun heq => hl.lookup_eq_none_iff.1 hr (heq ▸ hq)
    simp [List.map_congr_left hold, ih]

theorem mem_of_lookup (hl : CopiedAll s l copies table s₁) (hr : table.lookup r = some c) :
    r ∈ l := by
  by_contra hnot
  rw [hl.lookup_eq_none_iff.2 hnot] at hr
  cases hr

theorem exists_lookup (hl : CopiedAll s l copies table s₁) (hc : c ∈ copies) :
    ∃ r, table.lookup r = some c := by
  have hmem : some c ∈ copies.map some := List.mem_map_of_mem hc
  rw [← hl.map_lookup_eq] at hmem
  obtain ⟨r, -, hr⟩ := List.mem_map.1 hmem
  exact ⟨r, hr⟩

theorem forall₂_lookup (hl : CopiedAll s l copies table s₁) :
    List.Forall₂ (fun r c => table.lookup r = some c) l copies := by
  rw [← List.forall₂_map_right_iff (R := fun r c => table.lookup r = c),
    ← List.forall₂_map_left_iff (R := fun c c' => c = c'), List.forall₂_eq_eq_eq]
  exact hl.map_lookup_eq

end CopiedAll

/-! ## What the copies are -/

theorem exists_of_returns_copy {a : Automaton} (hr : s.automaton? r = some a)
    (hcopy : Returns (copy r) s c s') :
    ∃ b, Returns a.copy s.heap b s'.heap ∧ s.automaton? c = none ∧ s'.automaton? c = some b := by
  unfold copy at hcopy
  obtain ⟨_, _, ha, hbuild⟩ := hcopy.exists_of_bind
  obtain ⟨rfl, rfl⟩ := (returns_automaton hr).unique ha
  unfold Returns at hbuild
  rw [run_build] at hbuild
  rcases hrun : a.copy.run.run s.heap with ⟨e | b, h⟩
  · rw [hrun] at hbuild
    cases hbuild
  · rw [hrun] at hbuild
    cases hbuild
    exact ⟨b, hrun, Array.getElem?_eq_none (Nat.le_refl _), Array.getElem?_push_size⟩

theorem extends_of_returns_copy (hcopy : Returns (copy r) s c s') : s.Extends s' := by
  have hgrows := Session.Extends.copy s r
  rwa [hcopy] at hgrows

theorem extends_of_returns_go (hl : Returns (copyAll.go l table) s copies s') : s.Extends s' := by
  induction l generalizing table s copies with
  | nil =>
    cases hl
    exact .refl _
  | cons r l ih =>
    cases hr : table.lookup r with
    | some c =>
      obtain ⟨copies', -, hrest⟩ := (returns_go_of_eq_some hr).1 hl
      exact ih hrest
    | none =>
      obtain ⟨c, s₁, copies', hcopy, -, hrest⟩ := (returns_go_of_eq_none hr).1 hl
      exact (extends_of_returns_copy hcopy).trans (ih hrest)

theorem CopiedAll.grows (hl : CopiedAll s l copies table s₁) : s.Extends s₁ :=
  extends_of_returns_go (returns_copyAll_iff.2 ⟨_, hl⟩)

/-- The copies in the table: each is a copy of the automaton that has it, and all are apart. -/
structure Separates (s : Session) (table : List (AutomatonRef × AutomatonRef)) (s₁ : Session) :
    Prop where
  grows : s.Extends s₁
  copied : ∀ {r c}, table.lookup r = some c → ∃ a b, s.automaton? r = some a ∧
    s.automaton? c = none ∧ s₁.automaton? c = some b ∧ Automaton.CopiedSince s.heap a b s₁.heap
  apart : ∀ {r r' c c' b b'}, table.lookup r = some c → table.lookup r' = some c' → r ≠ r' →
    s₁.automaton? c = some b → s₁.automaton? c' = some b' → c ≠ c' ∧ b.Apart s₁.graph b'

namespace Separates

theorem nil (s : Session) : Separates s [] s where
  grows := .refl s
  copied hr := by cases hr
  apart hr := by cases hr

variable {a b : Automaton}

theorem eq_of_lookup (hs : Separates s table s₁) (hr : table.lookup r = some c)
    (hr' : table.lookup r' = some c) : r = r' := by
  by_contra hne
  obtain ⟨-, b, -, -, hb, -⟩ := hs.copied hr
  exact (hs.apart hr hr' hne hb hb).1 rfl

/-- The automaton that the table names is still the one that was made for it. -/
theorem exists_copiedSince (hs : Separates s table s₁) (hgrows : s₁.Extends s₂)
    (hr : table.lookup r = some c) (hb : s₂.automaton? c = some b) :
    s₁.automaton? c = some b ∧ ∃ a, Automaton.CopiedSince s.heap a b s₁.heap := by
  obtain ⟨a, b', -, -, hb', hcopied⟩ := hs.copied hr
  rw [hgrows.automaton hb'] at hb
  cases hb
  exact ⟨hb', a, hcopied⟩

/-- One more copy is made of an automaton that was there in the beginning. -/
theorem cons (hs : Separates s table s₁) (hr : s.automaton? r = some a) (ha : a.Within s.heap)
    (hcopy : Returns (copy r) s₁ c s₂) : Separates s ((r, c) :: table) s₂ := by
  have ha₁ := ha.of_extends hs.grows.heap
  have hgrows := extends_of_returns_copy hcopy
  obtain ⟨b, hb, hfresh, hc⟩ := exists_of_returns_copy (hs.grows.automaton hr) hcopy
  have hnew := Automaton.copiedSince_of_returns ha₁ hb
  have hissues := (Automaton.issues_of_returns_copy ha₁ hb).1
  -- the copies that were made before are apart from the new one
  have hold : ∀ {r' c' b'}, table.lookup r' = some c' → s₂.automaton? c' = some b' →
      c' ≠ c ∧ b'.Apart s₂.graph b := by
    intro r' c' b' hr' hb'
    obtain ⟨hb₁, a', hcopied⟩ := hs.exists_copiedSince hgrows hr' hb'
    refine ⟨fun heq => ?_, hcopied.apart hnew hissues hgrows.heap⟩
    rw [← heq, hb₁] at hfresh
    cases hfresh
  constructor
  case grows => exact hs.grows.trans hgrows
  case copied =>
    intro r' c' hr'
    obtain ⟨rfl, rfl⟩ | ⟨-, hr'⟩ := lookup_cons_eq_some_iff.1 hr'
    · exact ⟨a, b, hr, hs.grows.eq_none hfresh, hc, hnew.of_grows hs.grows.heap ha⟩
    · obtain ⟨a', b', ha', hnone, hb', hcopied⟩ := hs.copied hr'
      exact ⟨a', b', ha', hnone, hgrows.automaton hb',
        hcopied.mono hgrows.heap (hissues.nextId_le ha₁.ids a'.ids)⟩
  case apart =>
    intro r₁ r₂ c₁ c₂ b₁ b₂ hr₁ hr₂ hne hb₁ hb₂
    obtain ⟨rfl, rfl⟩ | ⟨-, hearlier₁⟩ := lookup_cons_eq_some_iff.1 hr₁ <;>
      obtain ⟨rfl, rfl⟩ | ⟨-, hearlier₂⟩ := lookup_cons_eq_some_iff.1 hr₂
    · exact absurd rfl hne
    · cases hc.symm.trans hb₁
      obtain ⟨hcopy, hapart⟩ := hold hearlier₂ hb₂
      exact ⟨hcopy.symm, hapart.symm⟩
    · cases hc.symm.trans hb₂
      exact hold hearlier₁ hb₁
    · obtain ⟨hb₁, a₁, hcopied₁⟩ := hs.exists_copiedSince hgrows hearlier₁ hb₁
      obtain ⟨hb₂, a₂, hcopied₂⟩ := hs.exists_copiedSince hgrows hearlier₂ hb₂
      obtain ⟨hcopy, hapart⟩ := hs.apart hearlier₁ hearlier₂ hne hb₁ hb₂
      exact ⟨hcopy, hapart.mono hgrows.heap hcopied₁.mem_start hcopied₂.mem_start⟩

end Separates

namespace CopiedAll

variable {a : Automaton}

theorem separates (hl : CopiedAll s l copies table s₁)
    (hwithin : ∀ r ∈ l, ∃ a, s.automaton? r = some a ∧ a.Within s.heap) :
    Separates s table s₁ := by
  induction hl with
  | nil => exact .nil s
  | again _ _ ih => exact ih fun r hr => hwithin r (List.mem_append_left _ hr)
  | @first _ _ _ _ _ r _ _ _ hcopy ih =>
    obtain ⟨a, hr, ha⟩ := hwithin r (List.mem_append_right _ (List.mem_singleton_self r))
    exact (ih fun q hq => hwithin q (List.mem_append_left _ hq)).cons hr ha hcopy

/-- What happens at one place of the list. -/
theorem exists_place (hl : CopiedAll s (l₁ ++ r :: l₂) copies table s') :
    ∃ copies₁ c copies₂ table₁ s₁ table₂ s₂, copies = copies₁ ++ c :: copies₂ ∧
      CopiedAll s l₁ copies₁ table₁ s₁ ∧ CopiedAll s (l₁ ++ [r]) (copies₁ ++ [c]) table₂ s₂ ∧
      s₂.Extends s' ∧ (table₁.lookup r = some c ∧ s₂ = s₁ ∨
        table₁.lookup r = none ∧ Returns (copy r) s₁ c s₂) := by
  have hreturns : Returns (copyAll (l₁ ++ r :: l₂)) s copies s' := returns_copyAll_iff.2 ⟨_, hl⟩
  obtain ⟨copies₁, _, table₁, s₁, rfl, hl₁, hrest⟩ := exists_append .nil hreturns
  cases hr : table₁.lookup r with
  | some c =>
    obtain ⟨copies₂, rfl, hlater⟩ := (returns_go_of_eq_some hr).1 hrest
    exact ⟨copies₁, c, copies₂, table₁, s₁, table₁, s₁, rfl, hl₁, hl₁.again hr,
      extends_of_returns_go hlater, Or.inl ⟨hr, rfl⟩⟩
  | none =>
    obtain ⟨c, s₂, copies₂, hcopy, rfl, hlater⟩ := (returns_go_of_eq_none hr).1 hrest
    exact ⟨copies₁, c, copies₂, table₁, s₁, _, s₂, rfl, hl₁, hl₁.first hr hcopy,
      extends_of_returns_go hlater, Or.inr ⟨hr, hcopy⟩⟩

/-- Two places have one copy exactly if they had one automaton. -/
theorem getElem?_eq_iff (hl : CopiedAll s l copies table s₁) (hs : Separates s table s₁)
    (i j : Nat) : copies[i]? = copies[j]? ↔ l[i]? = l[j]? := by
  have hplace : ∀ k : Nat, copies[k]?.map some = l[k]?.map (table.lookup ·) := fun k => by
    rw [← List.getElem?_map, ← List.getElem?_map, hl.map_lookup_eq]
  constructor
  · intro heq
    have hlookup := (hplace i).symm.trans ((congrArg _ heq).trans (hplace j))
    cases hi : l[i]? with
    | none =>
      rw [hi, Option.map_none, eq_comm, Option.map_eq_none_iff] at hlookup
      exact hlookup.symm
    | some r =>
      rw [hi, Option.map_some, eq_comm, Option.map_eq_some_iff] at hlookup
      obtain ⟨r', hj, hr'⟩ := hlookup
      obtain ⟨c, hc⟩ := Option.ne_none_iff_exists'.1 fun hnone =>
        hl.lookup_eq_none_iff.1 hnone (List.mem_of_getElem? hi)
      rw [hj, hs.eq_of_lookup hc (hr'.trans hc)]
  · intro heq
    exact Option.map_injective (Option.some_injective _) ((hplace i).trans (heq ▸ (hplace j).symm))

/-- At a place of the list where its automaton comes first the ids of the copy are drawn, and no
others; at a later one nothing happens. -/
theorem exists_account (hl : CopiedAll s (l₁ ++ r :: l₂) copies table s')
    (hr : s.automaton? r = some a) (ha : a.Within s.heap) :
    ∃ copies₁ c copies₂ s₁ s₂, copies = copies₁ ++ c :: copies₂ ∧
      Returns (copyAll l₁) s copies₁ s₁ ∧ Returns (copyAll (l₁ ++ [r])) s (copies₁ ++ [c]) s₂ ∧
      (r ∈ l₁ → s₂ = s₁) ∧
      (r ∉ l₁ → s₁.heap.Issues a.ids (s.graph.idsBelow a.start).length s₂.heap ∧
        ∃ b, s'.automaton? c = some b ∧ s'.graph.idsBelow b.start =
          (List.range (s.graph.idsBelow a.start).length).map
            fun k : Nat => s₁.heap.nextId a.ids + (k : Int)) := by
  obtain ⟨copies₁, c, copies₂, table₁, s₁, _, s₂, rfl, hl₁, hl₂, hrest, hcase⟩ := hl.exists_place
  refine ⟨copies₁, c, copies₂, s₁, s₂, rfl, returns_copyAll_iff.2 ⟨_, hl₁⟩,
    returns_copyAll_iff.2 ⟨_, hl₂⟩, fun hmem => ?_, fun hnot => ?_⟩
  · obtain ⟨-, heq⟩ | ⟨hnone, -⟩ := hcase
    · exact heq
    · exact absurd hmem (hl₁.lookup_eq_none_iff.1 hnone)
  · obtain ⟨hagain, -⟩ | ⟨-, hcopy⟩ := hcase
    · exact absurd (hl₁.mem_of_lookup hagain) hnot
    · obtain ⟨b, hb, -, hc⟩ := exists_of_returns_copy (hl₁.grows.automaton hr) hcopy
      have ha₁ := ha.of_extends hl₁.grows.heap
      have hstart := (Automaton.copiedSince_of_returns ha₁ hb).mem_start
      obtain ⟨hissues, hids⟩ := Automaton.issues_of_returns_copy ha₁ hb
      rw [hl₁.grows.heap.idsBelow_eq ha.start] at hissues hids
      exact ⟨hissues, b, hrest.automaton hc, (hrest.heap.idsBelow_eq hstart).trans hids⟩

/-- A list that begins with copied automata is copied if each of the others can be. -/
theorem exists_returns (hl : CopiedAll s l copies table s₁)
    (hmet : ∀ r ∈ l', ∃ a, s.automaton? r = some a ∧ a.Within s.heap ∧ a.CursorMet s.graph) :
    ∃ copies' s₂, Returns (copyAll.go l' table) s₁ copies' s₂ := by
  induction l' generalizing l copies table s₁ with
  | nil => exact ⟨[], s₁, .pure [] s₁⟩
  | cons r l' ih =>
    have hmet' := fun q hq => hmet q (List.mem_cons_of_mem _ hq)
    cases hr : table.lookup r with
    | some c =>
      obtain ⟨copies', s₂, hrest⟩ := ih (hl.again hr) hmet'
      exact ⟨_, s₂, (returns_go_of_eq_some hr).2 ⟨copies', rfl, hrest⟩⟩
    | none =>
      obtain ⟨a, ha, hwithin, hcursor⟩ := hmet r List.mem_cons_self
      have hcursor := (Automaton.cursorMet_iff_of_extends hwithin hl.grows.heap).2 hcursor
      have hwithin := hwithin.of_extends hl.grows.heap
      obtain ⟨b, h', hcopy⟩ := (Automaton.exists_returns_copy_iff hwithin).2 hcursor
      have hcopy := returns_copy (hl.grows.automaton ha) hcopy
      obtain ⟨copies', s₂, hrest⟩ := ih (hl.first hr hcopy) hmet'
      exact ⟨_, s₂, (returns_go_of_eq_none hr).2 ⟨_, _, copies', hcopy, rfl, hrest⟩⟩

end CopiedAll

/-! ## The whole list -/

section Whole

variable (hwithin : ∀ r ∈ l, ∃ a, s.automaton? r = some a ∧ a.Within s.heap)
include hwithin

/-- A list is copied exactly if each of its members can be copied alone. -/
theorem exists_returns_copyAll_iff :
    (∃ copies s', Returns (copyAll l) s copies s') ↔
      ∀ r ∈ l, ∃ c s', Returns (copy r) s c s' := by
  constructor
  · rintro ⟨copies, s', hreturns⟩ r hr
    obtain ⟨a, ha, ha'⟩ := hwithin r hr
    obtain ⟨table, hl⟩ := returns_copyAll_iff.1 hreturns
    -- the automaton was copied where it comes first
    obtain ⟨l₁, l₂, rfl, hfirst⟩ := List.eq_append_cons_of_mem hr
    obtain ⟨_, _, _, _, s₁, _, _, -, hl₁, -, -, ⟨hagain, -⟩ | ⟨-, hcopy⟩⟩ := hl.exists_place
    · exact absurd (hl₁.mem_of_lookup hagain) hfirst
    · obtain ⟨b, hb, -⟩ := exists_of_returns_copy (hl₁.grows.automaton ha) hcopy
      have hmet := (Automaton.exists_returns_copy_iff (ha'.of_extends hl₁.grows.heap)).1 ⟨b, _, hb⟩
      rw [Automaton.cursorMet_iff_of_extends ha' hl₁.grows.heap] at hmet
      obtain ⟨b', h', hb'⟩ := (Automaton.exists_returns_copy_iff ha').2 hmet
      exact ⟨_, _, returns_copy ha hb'⟩
  · intro hcopy
    refine CopiedAll.exists_returns .nil fun r hr => ?_
    obtain ⟨a, ha, hwithin⟩ := hwithin r hr
    obtain ⟨c, s', hcopy⟩ := hcopy r hr
    obtain ⟨b, hb, -⟩ := exists_of_returns_copy ha hcopy
    exact ⟨a, ha, hwithin, (Automaton.exists_returns_copy_iff hwithin).1 ⟨b, _, hb⟩⟩

end Whole

/-- Automata are copied together exactly if each of them can be copied alone. Nothing that was there
changes. Two places have one copy exactly if they had one automaton. A copy is a new automaton on
the source of the original, and is listed as the original is. Different copies have no state in
common, whatever the originals share, and none with any of the originals; what has been copied from
automata of one source has different ids. Where an automaton comes first it draws one id for each
state that a traversal visits, and these are the ids of its copy; where it comes again nothing
happens. -/
theorem copyAll_shares (hwithin : ∀ r ∈ l, ∃ a, s.automaton? r = some a ∧ a.Within s.heap) :
    ((∃ copies s', Returns (copyAll l) s copies s') ↔ ∀ r ∈ l, ∃ c s', Returns (copy r) s c s') ∧
    ∀ copies s', Returns (copyAll l) s copies s' →
      s.Extends s' ∧
      (∀ i j : Nat, copies[i]? = copies[j]? ↔ l[i]? = l[j]?) ∧
      List.Forall₂ (fun r c => ∃ a b, s'.automaton? r = some a ∧ s'.automaton? c = some b ∧
        s.automaton? c = none ∧ b.ids = a.ids ∧
        s'.graph.listing b.start = s'.graph.listing a.start) l copies ∧
      (∀ c ∈ copies, ∀ c' ∈ copies, ∀ b b', s'.automaton? c = some b → s'.automaton? c' = some b' →
        (c ≠ c' → ∀ q, s'.graph.Reaches b.start q → ¬ s'.graph.Reaches b'.start q) ∧
        (b.ids = b'.ids → ∀ q t, s'.graph.Reaches b.start q → s'.graph.Reaches b'.start t →
          (s'.graph.state q).id = (s'.graph.state t).id → q = t)) ∧
      (∀ c ∈ copies, ∀ r ∈ l, ∀ b a, s'.automaton? c = some b → s'.automaton? r = some a →
        ∀ q, s'.graph.Reaches b.start q → ¬ s'.graph.Reaches a.start q) ∧
      ∀ l₁ r l₂ a, l = l₁ ++ r :: l₂ → s.automaton? r = some a →
        ∃ copies₁ c copies₂ s₁ s₂, copies = copies₁ ++ c :: copies₂ ∧
          Returns (copyAll l₁) s copies₁ s₁ ∧ Returns (copyAll (l₁ ++ [r])) s (copies₁ ++ [c]) s₂ ∧
          (r ∈ l₁ → s₂ = s₁) ∧
          (r ∉ l₁ → s₁.heap.Issues a.ids (s.graph.idsBelow a.start).length s₂.heap ∧
            ∃ b, s'.automaton? c = some b ∧ s'.graph.idsBelow b.start =
              (List.range (s.graph.idsBelow a.start).length).map
                fun k : Nat => s₁.heap.nextId a.ids + (k : Int)) := by
  refine ⟨exists_returns_copyAll_iff hwithin, fun copies s' hreturns => ?_⟩
  obtain ⟨table, hl⟩ := returns_copyAll_iff.1 hreturns
  have hs := hl.separates hwithin
  refine ⟨hl.grows, hl.getElem?_eq_iff hs, ?_, ?_, ?_, ?_⟩
  · refine hl.forall₂_lookup.imp fun r c hr => ?_
    obtain ⟨a, b, ha, hnone, hb, hcopied⟩ := hs.copied hr
    obtain ⟨a', ha', hwithin⟩ := hwithin r (hl.mem_of_lookup hr)
    rw [ha] at ha'
    cases ha'
    exact ⟨a, b, hl.grows.automaton ha, hb, hnone, hcopied.ids_eq,
      hcopied.listing_eq.trans (hl.grows.heap.listing_eq hwithin.start).symm⟩
  · intro c hc c' hc' b b' hb hb'
    obtain ⟨r, hr⟩ := hl.exists_lookup hc
    obtain ⟨r', hr'⟩ := hl.exists_lookup hc'
    obtain ⟨-, a, hcopied⟩ := hs.exists_copiedSince (.refl s') hr hb
    by_cases heq : r = r'
    · subst heq
      rw [hr] at hr'
      cases hr'
      rw [hb] at hb'
      cases hb'
      exact ⟨fun hne => absurd rfl hne, fun _ q t hq ht => hcopied.distinctIds q t hq ht⟩
    · have hapart := (hs.apart hr hr' heq hb hb').2
      exact ⟨fun _ => hapart.not_reaches, fun hids q t hq ht hid =>
        absurd hid (hapart.id_ne hids q t hq ht)⟩
  · intro c hc r hr b a hb ha q hq
    obtain ⟨r', hr'⟩ := hl.exists_lookup hc
    obtain ⟨a', ha', hwithin⟩ := hwithin r hr
    obtain ⟨-, _, hcopied⟩ := hs.exists_copiedSince (.refl s') hr' hb
    rw [hl.grows.automaton ha'] at ha
    cases ha
    exact hcopied.not_reaches hl.grows.heap hwithin.start hq
  · rintro l₁ r l₂ a rfl ha
    obtain ⟨a', ha', hwithin⟩ := hwithin r (by simp)
    rw [ha] at ha'
    cases ha'
    exact hl.exists_account ha hwithin

/-- The loop from both of its states, with the one listed before and after the other: two copies are
made, without a common state. -/
theorem copyAll_shares_loop :
    let a : Automaton := ⟨⟨0⟩, ⟨1⟩, ⟨0⟩, [⟨1⟩]⟩
    let b : Automaton := .ofStates ⟨1⟩ ⟨0⟩ ⟨0⟩
    let s : Session := { heap := { graph := .loop, nextIds := #[7] }, automata := #[a, b] }
    (∀ r ∈ [⟨0⟩, ⟨1⟩, ⟨0⟩], ∃ a, s.automaton? r = some a ∧ a.Within s.heap) ∧
      ∃ c d a' b' s', Returns (copyAll [⟨0⟩, ⟨1⟩, ⟨0⟩]) s [c, d, c] s' ∧ c ≠ d ∧
        s'.automaton? c = some a' ∧ s'.automaton? d = some b' ∧
        ∀ q, s'.graph.Reaches a'.start q → ¬ s'.graph.Reaches b'.start q := by
  intro a b s
  have ha : a.Within s.heap := by decide
  have hb : b.Within s.heap := by decide
  have hwithin : ∀ r ∈ [⟨0⟩, ⟨1⟩, ⟨0⟩], ∃ a, s.automaton? r = some a ∧ a.Within s.heap := by
    intro r hr
    simp only [List.mem_cons, List.not_mem_nil, or_false] at hr
    rcases hr with rfl | rfl | rfl
    · exact ⟨a, rfl, ha⟩
    · exact ⟨b, rfl, hb⟩
    · exact ⟨a, rfl, ha⟩
  obtain ⟨hiff, hall⟩ := copyAll_shares hwithin
  have hcopy : ∀ r ∈ [⟨0⟩, ⟨1⟩, ⟨0⟩], ∃ c s', Returns (copy r) s c s' := by
    have hstop : Graph.loop.Reaches ⟨0⟩ ⟨1⟩ := .step .refl (by decide)
    have hstop' : Graph.loop.Reaches ⟨1⟩ ⟨0⟩ := .step .refl (by decide)
    obtain ⟨_, _, _, _, -, -, hfirst⟩ := Automaton.exists_copy ha
      (.of_nodup (by decide) (by decide)) hstop fun r hr => List.mem_singleton.1 hr ▸ hstop
    obtain ⟨_, _, _, _, -, -, hsecond⟩ := Automaton.exists_copy hb
      (.of_nodup (by decide) (by decide)) hstop' fun r hr => List.mem_singleton.1 hr ▸ .refl
    intro r hr
    simp only [List.mem_cons, List.not_mem_nil, or_false] at hr
    rcases hr with rfl | rfl | rfl
    · exact ⟨_, _, returns_copy rfl hfirst⟩
    · exact ⟨_, _, returns_copy rfl hsecond⟩
    · exact ⟨_, _, returns_copy rfl hfirst⟩
  obtain ⟨_, s', hreturns⟩ := hiff.2 hcopy
  obtain ⟨-, hsame, hcopies, hapart, -⟩ := hall _ s' hreturns
  obtain ⟨c, _, ⟨_, a', -, ha', -⟩, hrest, rfl⟩ := List.forall₂_cons_left_iff.1 hcopies
  obtain ⟨d, _, ⟨_, b', -, hb', -⟩, hlast, rfl⟩ := List.forall₂_cons_left_iff.1 hrest
  obtain ⟨e, _, -, hnil, rfl⟩ := List.forall₂_cons_left_iff.1 hlast
  obtain rfl := List.forall₂_nil_left_iff.1 hnil
  have heq : c = e := Option.some.inj ((hsame 0 2).2 rfl)
  have hne : c ≠ d := fun heq => absurd ((hsame 0 1).1 (congrArg some heq)) (by decide)
  subst heq
  exact ⟨hwithin, c, d, a', b', s', hreturns, hne, ha', hb',
    (hapart c (by simp) d (by simp) a' b' ha' hb').1 hne⟩

end SessionM

end EpsilonNfa
