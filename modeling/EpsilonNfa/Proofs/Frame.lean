import EpsilonNfa.Proofs.Word

/-!
# What building automata leaves alone

Whether it returns or fails, an operation that builds an automaton changes no state that was there
before, and of the counters only that of the source from which it draws (`Heap.Keeps`). What it
returns refers to nothing that was there before (`Automaton.MadeSince`). Ids play no part in this: a
search by id may find the wrong state, but it finds one below the copy, and all of these are new.
-/

namespace EpsilonNfa

variable {h h' h'' : Heap} {src : Option IdSource} {ids : IdSource} {g : Graph} {r s t root : Ref}

/-- What was in the first heap is unchanged in the second, up to the counter of one source. -/
structure Heap.Keeps (src : Option IdSource) (h h' : Heap) : Prop where
  grows : h.Extends h'
  nextId_eq : ∀ {ids}, ids ∈ h → some ids ≠ src → h'.nextId ids = h.nextId ids

namespace Heap.Keeps

theorem refl (src : Option IdSource) (h : Heap) : h.Keeps src h :=
  ⟨.refl h, fun _ _ => rfl⟩

theorem trans (hh : h.Keeps src h') (hh' : h'.Keeps src h'') : h.Keeps src h'' where
  grows := hh.grows.trans hh'.grows
  nextId_eq hids hne := by
    rw [hh'.nextId_eq (hh.grows.source hids) hne, hh.nextId_eq hids hne]

/-- The counter of a source that is new may change. -/
theorem trans_new (hh : h.Keeps src h') (hids : ids ∉ h) (hh' : h'.Keeps (some ids) h'') :
    h.Keeps src h'' where
  grows := hh.grows.trans hh'.grows
  nextId_eq {ids'} hids' hne := by
    have hother : ids' ≠ ids := fun heq => hids (heq ▸ hids')
    rw [hh'.nextId_eq (hh.grows.source hids') (by simpa using hother), hh.nextId_eq hids' hne]

/-- A change to states that are not in the first heap. -/
theorem setGraph (hh : h.Keeps src h') (hmem : ∀ {r}, r ∈ h'.graph → r ∈ g)
    (hstate : ∀ r ∈ h.graph, g.state r = h'.graph.state r) :
    h.Keeps src { h' with graph := g } where
  grows := hh.grows.setGraph hmem hstate
  nextId_eq := hh.nextId_eq

end Heap.Keeps

theorem Heap.keeps_addState (h : Heap) (ids : IdSource) (isFinal : Bool) :
    h.Keeps (some ids) (h.addState ids isFinal).2 where
  grows := h.grows_addState ids isFinal
  nextId_eq {ids'} _ hne := by
    have hindex : ids.index ≠ ids'.index := by
      intro heq
      exact hne (congrArg some (congrArg IdSource.mk heq.symm))
    simp [addState_eq, nextId, Array.getElem?_modify, hindex]

theorem Heap.keeps_addSource (h : Heap) (first : Int) (src : Option IdSource) :
    h.Keeps src (h.addSource first).2 where
  grows := h.grows_addSource first
  nextId_eq {ids} hids _ := by
    have hlt : ids.index < h.nextIds.size := hids
    simp [addSource, nextId, Array.getElem?_push, Nat.ne_of_lt hlt]

theorem Copied.keeps {images images' : IdMap} {copies : List (Ref × Ref)}
    (hc : Copied h images ids s root images' h' copies) : h.Keeps (some ids) h' where
  grows := hc.grows
  nextId_eq {ids'} _ hne := by
    have hindex : ids.index ≠ ids'.index := by
      intro heq
      exact hne (congrArg some (congrArg IdSource.mk heq.symm))
    have hnext : h'.nextIds = h.nextIds.modify ids.index (· + (copies.length : Int)) :=
      hc.records.nextIds_eq
    simp [Heap.nextId, hnext, Array.getElem?_modify, hindex]

/-- The state was made after the first heap and before the second. -/
def Heap.New (h h' : Heap) (r : Ref) : Prop :=
  r ∉ h.graph ∧ r ∈ h'.graph

theorem Copied.new_of_reaches {images' : IdMap} {copies : List (Ref × Ref)}
    (hc : Copied h ∅ ids s root images' h' copies) (hr : h'.graph.Reaches root r) : h.New h' r :=
  hc.not_mem_of_reaches hr

namespace Heap.New

/-- What is new to a heap that has grown is new to the one before. -/
theorem of_grows (hh : h.Extends h') (hr : h'.New h'' r) : h.New h'' r :=
  ⟨fun hmem => hr.1 (hh.mem hmem), hr.2⟩

theorem mem_grows (hr : h.New h' r) (hh : h'.Extends h'') : h.New h'' r :=
  ⟨hr.1, hh.mem hr.2⟩

end Heap.New

namespace Automaton

variable {a b c : Automaton} {x : Symbol}

/-- Everything that the automaton refers to was made after the first heap and before the second. -/
structure MadeSince (h : Heap) (c : Automaton) (h' : Heap) : Prop where
  below : ∀ r, h'.graph.Reaches c.start r → h.New h' r
  stop : h.New h' c.stop
  current : ∀ r ∈ c.current, h.New h' r

theorem madeSince_ofStates {start stop : Ref} (hbelow : ∀ r, h'.graph.Reaches start r → h.New h' r)
    (hstop : h.New h' stop) (ids : IdSource) : (ofStates start stop ids).MadeSince h h' where
  below := hbelow
  stop := hstop
  current r hr := by
    rw [List.mem_singleton.1 hr]
    exact hbelow start .refl

/-- Whatever it finds lies below the root, also where ids collide. -/
theorem resolve_ensures {Q : Heap → Prop} (hQ : Q h) (root : Ref) (images : IdMap) (old : Ref) :
    Ensures (resolve root images old) h Q fun q h' => h = h' ∧ h.graph.Reaches root q := by
  unfold resolve
  refine .of_bind (.get h) ?_
  cases himage : images.find? (h.graph.state old).id with
  | none =>
    simp only [himage]
    exact .of_fails (t := h) (e := .notCopied _) rfl hQ
  | some new =>
    simp only [himage]
    unfold Graph.findById
    cases hfind : h.graph.findFirst? (m := Id) root fun r =>
        (h.graph.state r).id == (h.graph.state new).id with
    | none => exact .of_fails (t := h) (e := .unreachable _ _) rfl hQ
    | some q =>
      obtain ⟨⟨s, hs, hsq⟩, -⟩ := Graph.searchFrom_eq_some hfind
      rw [List.mem_singleton.1 hs] at hsq
      exact .of_returns (.lift rfl h) hQ ⟨rfl, hsq⟩

/-- A copy changes nothing but the counter of its source, and shares no state with the original. -/
theorem copy_ensures (h : Heap) (a : Automaton) :
    Ensures a.copy h (h.Keeps (some a.ids)) fun c h' => c.MadeSince h h' := by
  obtain ⟨start, images, h', copies, hcopy, hc⟩ := exists_copied_empty h a.ids a.start
  unfold copy
  refine .of_bind hcopy (.bind (resolve_ensures hc.keeps start images a.stop) ?_)
  rintro stop _ ⟨rfl, hstop⟩
  refine .bind (.mapM hc.keeps fun r => resolve_ensures hc.keeps start images r) ?_
  rintro current _ ⟨rfl, hcurrent⟩
  refine .of_returns (.pure _ _) hc.keeps
    ⟨fun r hr => hc.new_of_reaches hr, hc.new_of_reaches hstop, fun r hr => ?_⟩
  exact hc.new_of_reaches (hcurrent r (List.mem_eraseDups.1 hr))

/-- A concatenation changes nothing but the counter of the source of its first operand, also when a
stop is not found after both operands have been copied. The state that gives up being final is one
of the copies, whichever of them the search by id has found. -/
theorem concat_ensures (h : Heap) (a b : Automaton) :
    Ensures (a.concat b) h (h.Keeps (some a.ids)) fun c h' => c.MadeSince h h' := by
  obtain ⟨aStart, aImages, h₁, aCopies, hacopy, hca⟩ := exists_copied_empty h a.ids a.start
  obtain ⟨bStart, bImages, h₂, bCopies, hbcopy, hcb⟩ := exists_copied_empty h₁ a.ids b.start
  have hkeeps : h.Keeps (some a.ids) h₂ := hca.keeps.trans hcb.keeps
  have hfirst : ∀ {r}, h₂.graph.Reaches aStart r → h.New h₂ r := fun hr =>
    (hca.new_of_reaches ((hcb.grows.reaches_iff hca.root_mem).1 hr)).mem_grows hcb.grows
  have hsecond : ∀ {r}, h₂.graph.Reaches bStart r → h.New h₂ r := fun hr =>
    (hcb.new_of_reaches hr).of_grows hca.grows
  unfold concat
  refine .of_bind hacopy (.of_bind hbcopy ?_)
  refine .bind (resolve_ensures hkeeps aStart aImages a.stop) ?_
  rintro aStop _ ⟨rfl, haStop⟩
  refine .bind (resolve_ensures hkeeps bStart bImages b.stop) ?_
  rintro bStop _ ⟨rfl, hbStop⟩
  obtain ⟨g, hconnect, hjoined⟩ := Graph.exists_joined (hfirst haStop).2 hcb.root_mem
  have hmem : ∀ {r}, r ∈ g ↔ r ∈ h₂.graph := by
    intro r
    rw [Graph.mem_iff, Graph.mem_iff, hjoined.size_eq]
  have hnew : ∀ {r}, h.New h₂ r → h.New { h₂ with graph := g } r := fun hr => ⟨hr.1, hmem.2 hr.2⟩
  refine .of_returns (.bind (HeapM.returns_setFinal ..)
    (.bind (HeapM.returns_connect hconnect) (.pure _ _))) ?_ ?_
  · refine hkeeps.setGraph hmem.2 fun r hr => hjoined.state_eq fun heq => ?_
    exact (hfirst haStop).1 (heq ▸ hr)
  · refine madeSince_ofStates (fun r hr => ?_) (hnew (hsecond hbStop)) a.ids
    exact (hjoined.reaches hr).elim (fun hr => hnew (hfirst hr)) fun hr => hnew (hsecond hr)

theorem ofSymbol_some_ensures (hx : x ≠ .epsilon) (h : Heap) (ids : IdSource) :
    Ensures (ofSymbol x (some ids)) h (h.Keeps (some ids)) fun c h' => c.MadeSince h h' := by
  have hkeeps₁ := h.keeps_addState ids false
  have hkeeps := hkeeps₁.trans ((h.addState ids false).2.keeps_addState ids true)
  have hfirst := h.addsState ids false
  have hsecond := (h.addState ids false).2.addsState ids true
  rw [ofSymbol_of_ne hx]
  refine .of_bind (HeapM.returns_newState h ids false) ?_
  refine .of_bind (HeapM.returns_newState _ ids true) ?_
  generalize ((h.addState ids false).2.addState ids true).2 = h₂ at hkeeps hsecond ⊢
  have hstart : h.New h₂ ⟨h.graph.size⟩ :=
    ⟨fun hmem => Nat.lt_irrefl _ hmem, hsecond.mem hfirst.mem_new⟩
  have hstop : h.New h₂ ⟨(h.addState ids false).2.graph.size⟩ :=
    ⟨fun hmem => Nat.lt_irrefl _ (hkeeps₁.grows.mem hmem), hsecond.mem_new⟩
  -- neither of the two states has an edge so far
  have hstartState : h₂.graph.state ⟨h.graph.size⟩ = .isolated (h.nextId ids) false := by
    rw [hsecond.state_eq hfirst.mem_new, hfirst.state_new]
  have hstopState := hsecond.state_new
  cases hconnect : h₂.graph.connect ⟨h.graph.size⟩ x ⟨(h.addState ids false).2.graph.size⟩ with
  | error e =>
    refine .of_fails (t := h₂) (e := e) (.bind ?_ _) hkeeps
    unfold Fails
    rw [HeapM.run_connect, hconnect]
  | ok g =>
    have hmem : ∀ {r}, r ∈ g ↔ r ∈ h₂.graph := by
      intro r
      rw [Graph.mem_iff, Graph.mem_iff, Graph.size_of_connect hconnect]
    have hnew : ∀ {r}, h.New h₂ r → h.New { h₂ with graph := g } r := fun hr => ⟨hr.1, hmem.2 hr.2⟩
    have hbelow : ∀ {r}, g.Reaches ⟨h.graph.size⟩ r →
        r = ⟨h.graph.size⟩ ∨ r = ⟨(h.addState ids false).2.graph.size⟩ := by
      intro r hr
      induction hr with
      | refl => exact Or.inl rfl
      | step _ edge ih =>
        rcases Graph.mem_or_eq_of_mem_targets_connect hconnect edge with edge | heq
        · rcases ih with rfl | rfl
          · rw [hstartState] at edge
            cases edge
          · rw [hstopState] at edge
            cases edge
        · exact Or.inr heq
    refine .of_returns (.bind (HeapM.returns_connect hconnect) (.pure _ _)) ?_ ?_
    · refine hkeeps.setGraph hmem.2 fun r hr => Graph.state_of_connect_of_ne hconnect fun heq => ?_
      exact hstart.1 (heq ▸ hr)
    · refine madeSince_ofStates (fun r hr => hnew ?_) (hnew hstop) ids
      rcases hbelow hr with rfl | rfl
      · exact hstart
      · exact hstop

/-- Without a source a letter draws from a new one. -/
theorem ofSymbol_none_of_ne (hx : x ≠ .epsilon) :
    ofSymbol x none = HeapM.newSource >>= fun ids => ofSymbol x (some ids) := by
  simp only [ofSymbol_of_ne hx]
  unfold ofSymbol
  rw [if_neg hx]
  rfl

/-- A letter changes nothing but the counter of the source that is given, and if none is given it
changes nothing. -/
theorem ofSymbol_ensures (h : Heap) (x : Symbol) (src : Option IdSource) :
    Ensures (ofSymbol x src) h (h.Keeps src) fun c h' => c.MadeSince h h' := by
  by_cases hx : x = .epsilon
  · subst hx
    exact .of_fails (t := h) (e := .epsilonLetter) rfl (.refl src h)
  · cases src with
    | some ids => exact ofSymbol_some_ensures hx h ids
    | none =>
      have hkeeps := h.keeps_addSource 0 none
      have hnew : (h.addSource 0).1 ∉ h := Nat.lt_irrefl _
      have hletter := ofSymbol_some_ensures hx (h.addSource 0).2 (h.addSource 0).1
      have hsource : Returns HeapM.newSource h (h.addSource 0).1 (h.addSource 0).2 := .modifyGet _ h
      rw [ofSymbol_none_of_ne hx]
      refine .of_bind hsource ⟨hkeeps.trans_new hnew hletter.left, fun hreturns => ?_⟩
      have hmade := hletter.returned hreturns
      exact ⟨fun r hr => (hmade.below r hr).of_grows hkeeps.grows, hmade.stop.of_grows hkeeps.grows,
        fun r hr => (hmade.current r hr).of_grows hkeeps.grows⟩

end Automaton

end EpsilonNfa
