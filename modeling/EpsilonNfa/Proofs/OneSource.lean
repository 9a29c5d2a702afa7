import EpsilonNfa.Proofs.Word

/-!
# One source for all states

Where all states of a heap have drawn their ids from one source, no two have the same id, and the
source goes on with an id that none of them has (`Heap.DrawnFrom`). What is built with that source
keeps this, and takes no edge away (`Heap.Evolves`), also when it fails half way.
-/

namespace EpsilonNfa

/-- All states have drawn their ids from the source, which has given each once. -/
structure Heap.DrawnFrom (ids : IdSource) (h : Heap) : Prop where
  source : ids ∈ h
  id_lt : ∀ r ∈ h.graph, (h.graph.state r).id < h.nextId ids
  eq_of_id_eq : ∀ r ∈ h.graph, ∀ t ∈ h.graph, (h.graph.state r).id = (h.graph.state t).id → r = t

/-- What was in the first heap is in the second with all its edges, and states still draw from the
source. -/
structure Heap.Evolves (ids : IdSource) (h h' : Heap) : Prop where
  mem : ∀ {r}, r ∈ h.graph → r ∈ h'.graph
  targets : ∀ {r t}, r ∈ h.graph → t ∈ (h.graph.state r).targets → t ∈ (h'.graph.state r).targets
  drawnFrom : h.DrawnFrom ids → h'.DrawnFrom ids

variable {h h' h'' : Heap} {ids src : IdSource} {g : Graph} {r s t : Ref} {x : Symbol} {α β : Type}

namespace Heap.DrawnFrom

theorem distinctIds (hd : h.DrawnFrom ids) (hs : s ∈ h.graph) : h.graph.DistinctIds s :=
  fun r t hr ht hid => hd.eq_of_id_eq r (hr.mem hs) t (ht.mem hs) hid

/-- New states have ids that the source has given since, each of them once. -/
theorem grow (hd : h.DrawnFrom ids) (hh : h.Extends h') (hle : h.nextId ids ≤ h'.nextId ids)
    (hnew : ∀ r ∈ h'.graph, r ∉ h.graph →
      h.nextId ids ≤ (h'.graph.state r).id ∧ (h'.graph.state r).id < h'.nextId ids)
    (heq : ∀ r ∈ h'.graph, r ∉ h.graph → ∀ t ∈ h'.graph, t ∉ h.graph →
      (h'.graph.state r).id = (h'.graph.state t).id → r = t) : h'.DrawnFrom ids := by
  have hold : ∀ r ∈ h.graph, (h'.graph.state r).id < h.nextId ids := by
    intro r hr
    rw [hh.state_eq r hr]
    exact hd.id_lt r hr
  refine ⟨hh.source hd.source, fun r hr => ?_, fun r hr t ht hid => ?_⟩
  · by_cases hrold : r ∈ h.graph
    · exact Int.lt_of_lt_of_le (hold r hrold) hle
    · exact (hnew r hr hrold).2
  -- an old id is below what the source gave next in the first heap, a new one is not
  · by_cases hrold : r ∈ h.graph <;> by_cases htold : t ∈ h.graph
    · rw [hh.state_eq r hrold, hh.state_eq t htold] at hid
      exact hd.eq_of_id_eq r hrold t htold hid
    · have := hold r hrold
      have := (hnew t ht htold).1
      omega
    · have := hold t htold
      have := (hnew r hr hrold).1
      omega
    · exact heq r hr hrold t ht htold hid

end Heap.DrawnFrom

namespace Heap.Evolves

theorem refl (ids : IdSource) (h : Heap) : h.Evolves ids h :=
  ⟨id, fun _ ht => ht, id⟩

theorem trans (hh : h.Evolves ids h') (hh' : h'.Evolves ids h'') : h.Evolves ids h'' where
  mem hr := hh'.mem (hh.mem hr)
  targets hr ht := hh'.targets (hh.mem hr) (hh.targets hr ht)
  drawnFrom hd := hh'.drawnFrom (hh.drawnFrom hd)

/-- Paths stay, because edges do. -/
theorem reaches (hh : h.Evolves ids h') (hs : s ∈ h.graph) (ht : h.graph.Reaches s t) :
    h'.graph.Reaches s t := by
  induction ht with
  | refl => exact .refl
  | step hr edge ih => exact ih.step (hh.targets (hr.mem hs) edge)

/-- A heap that has only grown, by states that have drawn their ids. -/
theorem of_extends (hh : h.Extends h') (hd : h.DrawnFrom ids → h'.DrawnFrom ids) :
    h.Evolves ids h' where
  mem := hh.mem
  targets hr ht := by rwa [hh.state_eq _ hr]
  drawnFrom := hd

/-- A graph with the same states under the same ids, and with more edges. -/
theorem setGraph (hsize : g.size = h.graph.size)
    (hid : ∀ r, (g.state r).id = (h.graph.state r).id)
    (htargets : ∀ r, ∀ t ∈ (h.graph.state r).targets, t ∈ (g.state r).targets) :
    h.Evolves ids { h with graph := g } := by
  have hmem : ∀ {r}, r ∈ g ↔ r ∈ h.graph := by
    intro r
    rw [Graph.mem_iff, Graph.mem_iff, hsize]
  refine ⟨hmem.2, fun _ ht => htargets _ _ ht, fun hd => ⟨hd.source, ?_, ?_⟩⟩
  · intro r hr
    rw [hid]
    exact hd.id_lt r (hmem.1 hr)
  · intro r hr t ht heq
    rw [hid, hid] at heq
    exact hd.eq_of_id_eq r (hmem.1 hr) t (hmem.1 ht) heq

end Heap.Evolves

/-! ## States and edges -/

theorem Heap.evolves_addState (h : Heap) (ids : IdSource) (isFinal : Bool) :
    h.Evolves ids (h.addState ids isFinal).2 := by
  have hadds := h.addsState ids isFinal
  refine .of_extends (h.grows_addState ids isFinal) fun hd => ?_
  have hnext := Heap.nextId_addState hd.source isFinal
  have hnew : ∀ r ∈ (h.addState ids isFinal).2.graph, r ∉ h.graph → r = ⟨h.graph.size⟩ := by
    intro r hr hnot
    rw [Graph.mem_iff, hadds.size_eq] at hr
    rw [Graph.mem_iff] at hnot
    exact Ref.ext (by show r.index = h.graph.size; omega)
  refine hd.grow (h.grows_addState ids isFinal) ?_ ?_ ?_
  · rw [hnext]
    omega
  · intro r hr hnot
    rw [hnew r hr hnot, hadds.state_new, hnext]
    show h.nextId ids ≤ h.nextId ids ∧ h.nextId ids < h.nextId ids + 1
    omega
  · intro r hr hrnot t ht htnot _
    rw [hnew r hr hrnot, hnew t ht htnot]

theorem Heap.evolves_addSource (h : Heap) (ids : IdSource) (first : Int) :
    h.Evolves ids (h.addSource first).2 := by
  refine .of_extends (h.grows_addSource first) fun hd => ?_
  have hnext : (h.addSource first).2.nextId ids = h.nextId ids := by
    have hlt : ids.index < h.nextIds.size := hd.source
    simp [Heap.addSource, Heap.nextId, Array.getElem?_push, Nat.ne_of_lt hlt]
  refine hd.grow (h.grows_addSource first) ?_ ?_ ?_
  · rw [hnext]
  · exact fun r hr hnot => absurd hr hnot
  · exact fun r hr hnot => absurd hr hnot

theorem Heap.evolves_connect (ids : IdSource) (hconnect : h.graph.connect s x t = .ok g) :
    h.Evolves ids { h with graph := g } := by
  refine .setGraph (Graph.size_of_connect hconnect) (Graph.id_of_connect hconnect) fun r q hq => ?_
  obtain ⟨new, inside, ht, hnew, rfl⟩ := Graph.connect_eq_ok_iff.1 hconnect
  rw [Graph.state_replace]
  split
  · next heq =>
    rw [heq.1] at hq
    exact (State.mem_targets_of_connect hnew).2 (Or.inl hq)
  · exact hq

theorem Heap.evolves_setFinal (h : Heap) (ids : IdSource) (r : Ref) (isFinal : Bool) :
    h.Evolves ids { h with graph := h.graph.setFinal r isFinal } := by
  refine .setGraph (Graph.size_setFinal ..) (fun q => ?_) fun q t ht => ?_
  · unfold Graph.setFinal
    rw [Graph.state_replace]
    split
    · next heq => rw [heq.1]
    · rfl
  · unfold Graph.setFinal
    rw [Graph.state_replace]
    split
    · next heq => rwa [heq.1] at ht
    · exact ht

/-! ## Copies -/

theorem Copied.evolves {images images' : IdMap} {start root : Ref} {copies : List (Ref × Ref)}
    (hc : Copied h images ids start root images' h' copies) : h.Evolves ids h' := by
  refine .of_extends hc.grows fun hd => ?_
  have hnext : h'.nextId ids = h.nextId ids + copies.length := by
    rw [hc.records.nextId_eq, Heap.laterId_eq hd.source]
  -- the new states are the copies
  have hnew : ∀ r ∈ h'.graph, r ∉ h.graph → ∃ p ∈ copies, p.2 = r := by
    intro r hr hnot
    rw [Graph.mem_iff] at hr hnot
    rw [hc.records.size_eq] at hr
    apply List.mem_map.1
    rw [hc.records.refs_eq]
    exact List.mem_map.2 ⟨r.index, List.mem_range'_1.2 ⟨by omega, hr⟩, rfl⟩
  refine hd.grow hc.grows ?_ ?_ ?_
  · omega
  · intro r hr hnot
    obtain ⟨p, hp, rfl⟩ := hnew r hr hnot
    obtain ⟨n, hn, hid⟩ := hc.exists_id_eq hp
    rw [hid, Heap.laterId_eq hd.source]
    omega
  · intro r hr hrnot t ht htnot hid
    obtain ⟨p, hp, rfl⟩ := hnew r hr hrnot
    obtain ⟨q, hq, rfl⟩ := hnew t ht htnot
    rw [List.inj_on_of_nodup_map (hc.nodup_ids hd.source) hp hq hid]

theorem Heap.evolves_copyGraph {images : IdMap} (start : Ref)
    (hvalues : ∀ q ∈ images.values, q ∈ h.graph) :
    h.Evolves ids ((HeapM.copyGraph start images (some ids)).run.run h).2 := by
  obtain ⟨root, images', h', copies, hreturns, hc⟩ := exists_copied ids start hvalues
  unfold Returns at hreturns
  rw [hreturns]
  exact hc.evolves

/-! ## Operations on heaps -/

/-- The operation lets a heap evolve, whether or not it returns. -/
def HeapM.Evolves (ids : IdSource) (m : HeapM α) : Prop :=
  ∀ h : Heap, h.Evolves ids (m.run.run h).2

namespace HeapM.Evolves

theorem of_snd_eq {m : HeapM α} (hm : ∀ h, (m.run.run h).2 = h) : m.Evolves ids := by
  intro h
  rw [hm]
  exact .refl ids h

theorem pure (a : α) : HeapM.Evolves ids (Pure.pure a) :=
  of_snd_eq fun _ => rfl

theorem lift (m : Except Error α) : HeapM.Evolves ids (liftM m) :=
  of_snd_eq fun h => by rw [run_liftM]

theorem get : HeapM.Evolves ids MonadState.get :=
  of_snd_eq fun _ => rfl

theorem throw (e : Error) : HeapM.Evolves ids (throw e : HeapM α) :=
  of_snd_eq fun _ => rfl

theorem bind {m : HeapM α} {f : α → HeapM β} (hm : m.Evolves ids) (hf : ∀ a, (f a).Evolves ids) :
    (m >>= f).Evolves ids := by
  intro h
  have hfirst := hm h
  rw [run_bind]
  generalize m.run.run h = result at hfirst
  rcases result with ⟨_ | a, h'⟩
  · exact hfirst
  · exact hfirst.trans (hf a h')

theorem mapM {f : α → HeapM β} (hf : ∀ a, (f a).Evolves ids) (l : List α) :
    (l.mapM f).Evolves ids := by
  induction l with
  | nil => exact pure []
  | cons a l ih =>
    rw [List.mapM_cons]
    exact bind (hf a) fun b => bind ih fun bs => pure (b :: bs)

theorem newState (isFinal : Bool) : (HeapM.newState ids isFinal).Evolves ids :=
  fun h => h.evolves_addState ids isFinal

theorem newSource (first : Int) : (HeapM.newSource first).Evolves ids :=
  fun h => h.evolves_addSource ids first

theorem setFinal (r : Ref) (isFinal : Bool) : (HeapM.setFinal r isFinal).Evolves ids :=
  fun h => h.evolves_setFinal ids r isFinal

theorem connect (s : Ref) (x : Symbol) (t : Ref) : (HeapM.connect s x t).Evolves ids := by
  intro h
  rw [run_connect]
  cases hconnect : h.graph.connect s x t with
  | ok g => exact Heap.evolves_connect ids hconnect
  | error e => exact .refl ids h

theorem copyGraph (start : Ref) : (HeapM.copyGraph start ∅ (some ids)).Evolves ids :=
  fun _ => Heap.evolves_copyGraph start fun _ hq => absurd hq List.not_mem_nil

theorem resolve (root : Ref) (images : IdMap) (old : Ref) :
    (Automaton.resolve root images old).Evolves ids := by
  refine bind get fun h => ?_
  dsimp only
  split
  · exact throw _
  · exact lift _

end HeapM.Evolves

namespace Automaton

variable {a b : Automaton}

theorem evolves_ofSymbol (x : Symbol) (ids : IdSource) : (ofSymbol x (some ids)).Evolves ids := by
  by_cases hx : x = .epsilon
  · unfold ofSymbol
    rw [if_pos hx]
    exact .of_snd_eq fun _ => rfl
  · rw [ofSymbol_of_ne hx]
    refine .bind (.newState _) fun start => .bind (.newState _) fun stop => ?_
    exact .bind (.connect start x stop) fun _ => .pure _

theorem evolves_copy (a : Automaton) : a.copy.Evolves a.ids := by
  unfold copy
  refine .bind (.copyGraph _) fun _ => .bind (.resolve _ _ _) fun _ => ?_
  exact .bind (.mapM (fun _ => .resolve _ _ _) _) fun _ => .pure _

theorem evolves_concat (a b : Automaton) : (a.concat b).Evolves a.ids := by
  unfold concat
  refine .bind (.copyGraph _) fun _ => .bind (.copyGraph _) fun _ => ?_
  refine .bind (.resolve _ _ _) fun _ => .bind (.resolve _ _ _) fun _ => ?_
  exact .bind (.setFinal _ _) fun _ => .bind (.connect _ _ _) fun _ => .pure _

end Automaton

end EpsilonNfa
