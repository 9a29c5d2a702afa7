import EpsilonNfa.Copy
import EpsilonNfa.Graph.Path
import EpsilonNfa.Proofs.CopyQueue
import EpsilonNfa.Proofs.Edge
import Mathlib.Data.List.Nodup

/-!
# What a copy in progress has made

A copy is described by the list of its *copies*, pairs of a state and the state made for it in the
order in which they were made. `Copying.Records` says what the list determines: references and ids
in their order, the table of images, and that nothing else has changed. `Copying.HasEdges` says how
far a copy has its edges: a prefix of the edges of the state that it stands for, each leading to the
image of its target. Making an edge never fails, because the letters of one table differ.
-/

namespace EpsilonNfa

/-- The id that a source gives after `n` others. -/
def Heap.laterId (h : Heap) (ids : IdSource) (n : Nat) : Int :=
  (h.nextIds[ids.index]?.map (· + (n : Int))).getD 0

namespace Heap

theorem modify_modify (a : Array Int) (i : Nat) (f g : Int → Int) :
    (a.modify i f).modify i g = a.modify i (g ∘ f) := by
  apply Array.ext_getElem?
  intro j
  simp only [Array.getElem?_modify]
  split
  · simp
  · rfl

theorem modify_zero (h : Heap) (ids : IdSource) :
    h.nextIds = h.nextIds.modify ids.index (· + ((0 : Nat) : Int)) := by
  apply Array.ext_getElem?
  intro j
  rw [Array.getElem?_modify]
  split
  · simp
  · rfl

theorem addState_eq (h : Heap) (ids : IdSource) (isFinal : Bool) :
    h.addState ids isFinal = (⟨h.graph.size⟩,
      { graph := (h.graph.addState (h.nextId ids) isFinal).2
        nextIds := h.nextIds.modify ids.index (· + 1) }) := rfl

end Heap

/-- A path from `s` to the given state on which no state, `s` included, has an id of the table. -/
inductive Graph.ReachesOutside (g : Graph) (m : IdMap) (s : Ref) : Ref → Prop
  | refl (new : (g.state s).id ∉ m) : ReachesOutside g m s s
  | step {r t : Ref} (h : ReachesOutside g m s r) (edge : t ∈ (g.state r).targets)
      (new : (g.state t).id ∉ m) : ReachesOutside g m s t

/-- The edge `e'` has the label of the edge `e` of `g` and leads to the image of its target. -/
def Graph.IsEdgeImage (g : Graph) (m : IdMap) (e e' : Symbol × Ref) : Prop :=
  e'.1 = e.1 ∧ m.find? (g.state e.2).id = some e'.2

namespace IdMap

theorem entries_insert_of_not_mem {m : IdMap} {id : Int} {r : Ref} (h : id ∉ m) :
    (m.insert id r).entries = m.entries ++ [(id, r)] := by
  unfold insert
  rw [dif_neg h]

end IdMap

namespace Copying

/-- What has been copied so far of a copy that began on the heap `h` with the table `images`. -/
structure Records (h : Heap) (images : IdMap) (ids : IdSource) (start : Ref) (c : Copying)
    (copies : List (Ref × Ref)) : Prop where
  size_eq : c.heap.graph.size = h.graph.size + copies.length
  nextIds_eq : c.heap.nextIds = h.nextIds.modify ids.index (· + (copies.length : Int))
  kept : ∀ q ∈ h.graph, c.heap.graph.state q = h.graph.state q
  entries_eq : c.images.entries =
    images.entries ++ copies.map fun p => ((h.graph.state p.1).id, p.2)
  refs_eq : copies.map (·.2) = (List.range' h.graph.size copies.length).map Ref.mk
  ids_eq : copies.map (fun p => (c.heap.graph.state p.2).id) =
    (List.range copies.length).map (h.laterId ids)
  isFinal_eq : ∀ p ∈ copies, (c.heap.graph.state p.2).isFinal = (h.graph.state p.1).isFinal
  below : ∀ p ∈ copies, h.graph.ReachesOutside images start p.1

/-- The edges of `q` are the images of the edges `l`, in their order. -/
def HasEdges (source : Graph) (c : Copying) (q : Ref) (l : List (Symbol × Ref)) : Prop :=
  List.Forall₂ (source.IsEdgeImage c.images) l (c.heap.graph.state q).edges

/-- What changes while `new` gets edges: states without edges are added, and nothing else. -/
structure Extends (c : Copying) (new : Ref) (c' : Copying) (added : List (Ref × Ref)) : Prop where
  pending_eq : c'.pending = c.pending ++ added
  find? : ∀ {i r}, c.images.find? i = some r → c'.images.find? i = some r
  mem : ∀ {q}, q ∈ c.heap.graph → q ∈ c'.heap.graph
  state_eq : ∀ {q}, q ∈ c.heap.graph → q ≠ new → c'.heap.graph.state q = c.heap.graph.state q
  fresh : ∀ p ∈ added,
    p.2 ∉ c.heap.graph ∧ p.2 ∈ c'.heap.graph ∧ (c'.heap.graph.state p.2).edges = []

variable {h : Heap} {images : IdMap} {ids : IdSource} {start old new : Ref} {c c' c'' : Copying}
variable {copies added added' : List (Ref × Ref)} {source : Graph} {q : Ref}
variable {l : List (Symbol × Ref)} {e : Symbol × Ref}

/-! ## Growing -/

theorem Extends.refl (c : Copying) (new : Ref) : c.Extends new c [] :=
  ⟨by simp, id, id, fun _ _ => rfl, by simp⟩

theorem Extends.trans (hnew : new ∈ c.heap.graph) (h : c.Extends new c' added)
    (h' : c'.Extends new c'' added') : c.Extends new c'' (added ++ added') := by
  refine ⟨?_, fun hi => h'.find? (h.find? hi), fun hq => h'.mem (h.mem hq), ?_, ?_⟩
  · rw [h'.pending_eq, h.pending_eq, List.append_assoc]
  · intro q hq hne
    rw [h'.state_eq (h.mem hq) hne, h.state_eq hq hne]
  · intro p hp
    rcases List.mem_append.1 hp with hp | hp
    · obtain ⟨hbefore, hafter, hedges⟩ := h.fresh p hp
      refine ⟨hbefore, h'.mem hafter, ?_⟩
      rw [h'.state_eq hafter fun heq => hbefore (heq ▸ hnew), hedges]
    · obtain ⟨hbefore, hafter, hedges⟩ := h'.fresh p hp
      exact ⟨fun hq => hbefore (h.mem hq), hafter, hedges⟩

theorem HasEdges.mono (hq : HasEdges source c q l)
    (hfind : ∀ {i r}, c.images.find? i = some r → c'.images.find? i = some r)
    (hstate : c'.heap.graph.state q = c.heap.graph.state q) : HasEdges source c' q l := by
  unfold HasEdges at *
  rw [hstate]
  exact hq.imp fun _ _ he => ⟨he.1, hfind he.2⟩

theorem Extends.hasEdges (hc : c.Extends new c' added) (hq : q ∈ c.heap.graph) (hne : q ≠ new)
    (hedges : HasEdges source c q l) : HasEdges source c' q l :=
  hedges.mono hc.find? (hc.state_eq hq hne)

theorem Extends.add {i : Int} (hfind : c.images.find? i = none) {isFinal : Bool} {g : Graph}
    {id : Int} (hg : c.heap.graph.AddsState (.isolated id isFinal) g) (new : Ref)
    (nextIds : Array Int) :
    c.Extends new
      { heap := { graph := g, nextIds }
        images := c.images.insert i ⟨c.heap.graph.size⟩
        pending := c.pending ++ [(old, ⟨c.heap.graph.size⟩)] }
      [(old, ⟨c.heap.graph.size⟩)] where
  pending_eq := rfl
  find? {j r} hj := by
    have hne : j ≠ i := by
      rintro rfl
      rw [hfind] at hj
      cases hj
    rwa [IdMap.find?_insert_of_ne hne]
  mem hq := hg.mem hq
  state_eq hq _ := hg.state_eq hq
  fresh p hp := by
    rw [List.mem_singleton.1 hp]
    refine ⟨Nat.lt_irrefl _, hg.mem_new, ?_⟩
    rw [hg.state_new]
    rfl

/-! ## The image of a state -/

namespace Records

theorem init (h : Heap) (images : IdMap) (ids : IdSource) (start : Ref) :
    Records h images ids start ⟨h, images, []⟩ [] :=
  ⟨by simp, h.modify_zero ids, fun _ _ => rfl, by simp, by simp, by simp, by simp, by simp⟩

theorem snd_mem (hr : Records h images ids start c copies) {p : Ref × Ref} (hp : p ∈ copies) :
    p.2 ∉ h.graph ∧ p.2 ∈ c.heap.graph := by
  have hmem : p.2 ∈ copies.map (·.2) := List.mem_map.2 ⟨p, hp, rfl⟩
  rw [hr.refs_eq, List.mem_map] at hmem
  obtain ⟨i, hi, heq⟩ := hmem
  rw [List.mem_range'_1] at hi
  rw [← heq, Graph.mem_iff, Graph.mem_iff, hr.size_eq]
  exact ⟨by simpa using hi.1, hi.2⟩

theorem nodup_snd (hr : Records h images ids start c copies) : (copies.map (·.2)).Nodup := by
  rw [hr.refs_eq]
  exact (List.nodup_range' 1).map fun _ _ heq => congrArg Ref.index heq

theorem mem_of_find? (hr : Records h images ids start c copies)
    (hvalues : ∀ q ∈ images.values, q ∈ h.graph) {i : Int} (hi : c.images.find? i = some q) :
    q ∈ c.heap.graph := by
  have hentry := IdMap.find?_eq_some_iff.1 hi
  rw [hr.entries_eq, List.mem_append] at hentry
  rcases hentry with hentry | hentry
  · have hq : q ∈ h.graph := hvalues q (List.mem_map.2 ⟨_, hentry, rfl⟩)
    rw [Graph.mem_iff] at hq ⊢
    rw [hr.size_eq]
    omega
  · obtain ⟨p, hp, heq⟩ := List.mem_map.1 hentry
    cases heq
    exact (hr.snd_mem hp).2

theorem not_mem_images (hr : Records h images ids start c copies) {i : Int}
    (hi : i ∉ c.images) : i ∉ images := by
  intro hmem
  apply hi
  rw [← IdMap.mem_keys, IdMap.keys, hr.entries_eq, List.map_append]
  exact List.mem_append_left _ hmem

theorem nextId_eq (hr : Records h images ids start c copies) :
    c.heap.nextId ids = h.laterId ids copies.length := by
  unfold Heap.nextId Heap.laterId
  rw [hr.nextIds_eq]
  simp [Array.getElem?_modify]

/-- A new state without edges is the next copy. -/
theorem add (hr : Records h images ids start c copies) (hnew : (h.graph.state old).id ∉ c.images)
    (hold : h.graph.ReachesOutside images start old) {g : Graph}
    (hg : c.heap.graph.AddsState (.isolated (c.heap.nextId ids) (h.graph.state old).isFinal) g) :
    Records h images ids start
      { heap := { graph := g, nextIds := c.heap.nextIds.modify ids.index (· + 1) }
        images := c.images.insert (h.graph.state old).id ⟨c.heap.graph.size⟩
        pending := c.pending ++ [(old, ⟨c.heap.graph.size⟩)] }
      (copies ++ [(old, ⟨c.heap.graph.size⟩)]) where
  size_eq := by simp [hg.size_eq, hr.size_eq, Nat.add_assoc]
  nextIds_eq := by
    have hadd : ((· + 1) ∘ (· + (copies.length : Int)) : Int → Int) =
        (· + ((copies.length + 1 : Nat) : Int)) := by
      funext i
      simp [Int.add_assoc]
    simp only [hr.nextIds_eq, Heap.modify_modify, hadd, List.length_append, List.length_singleton]
  kept q hq := by
    have hmem : q ∈ c.heap.graph := Nat.lt_of_lt_of_le hq (by rw [hr.size_eq]; omega)
    rw [hg.state_eq hmem, hr.kept q hq]
  entries_eq := by simp [IdMap.entries_insert_of_not_mem hnew, hr.entries_eq]
  refs_eq := by simp [hr.refs_eq, hr.size_eq, List.range'_concat]
  ids_eq := by
    have hids : copies.map (fun p => (g.state p.2).id) =
        copies.map fun p => (c.heap.graph.state p.2).id :=
      List.map_congr_left fun p hp => by rw [hg.state_eq (hr.snd_mem hp).2]
    simp only [List.map_append, hids, hr.ids_eq, List.length_append, List.length_singleton,
      List.range_succ, List.map_singleton, hg.state_new, ← hr.nextId_eq]
    rfl
  isFinal_eq p hp := by
    rcases List.mem_append.1 hp with hp | hp
    · rw [hg.state_eq (hr.snd_mem hp).2, hr.isFinal_eq p hp]
    · rw [List.mem_singleton.1 hp, hg.state_new]
      rfl
  below p hp := by
    rcases List.mem_append.1 hp with hp | hp
    · exact hr.below p hp
    · rwa [List.mem_singleton.1 hp]

/-- A state whose id has no image is copied next. -/
theorem image (hr : Records h images ids start c copies)
    (hold : (h.graph.state old).id ∉ images → h.graph.ReachesOutside images start old) :
    ∃ added, Records h images ids start (c.image h.graph ids old).2 (copies ++ added) ∧
      (∀ new, c.Extends new (c.image h.graph ids old).2 added) ∧
      (c.image h.graph ids old).2.images.find? (h.graph.state old).id =
        some (c.image h.graph ids old).1 := by
  unfold Copying.image
  cases hfind : c.images.find? (h.graph.state old).id with
  | some new => exact ⟨[], by simpa using hr, fun new => .refl c new, hfind⟩
  | none =>
    have hnew : (h.graph.state old).id ∉ c.images := IdMap.find?_eq_none_iff.1 hfind
    have hg := c.heap.graph.addsState (c.heap.nextId ids) (h.graph.state old).isFinal
    simp only [Heap.addState_eq]
    exact ⟨_, hr.add hnew (hold (hr.not_mem_images hnew)) hg, fun new => .add hfind hg new _,
      IdMap.find?_insert_self⟩

/-- A copy that gets an edge changes nothing that is recorded. -/
theorem addEdge (hr : Records h images ids start c copies) (hnew : new ∉ h.graph) {x : Symbol}
    {t : Ref} {g : Graph} (hg : c.heap.graph.AddsEdge new x t g) :
    Records h images ids start { c with heap := { c.heap with graph := g } } copies where
  size_eq := hg.size_eq.trans hr.size_eq
  nextIds_eq := hr.nextIds_eq
  kept q hq := by
    have hne : q ≠ new := fun heq => hnew (heq ▸ hq)
    rw [hg.state_eq hne, hr.kept q hq]
  entries_eq := hr.entries_eq
  refs_eq := hr.refs_eq
  ids_eq := by
    rw [← hr.ids_eq]
    exact List.map_congr_left fun p _ => hg.id_eq' p.2
  isFinal_eq p hp := (hg.isFinal_eq' p.2).trans (hr.isFinal_eq p hp)
  below := hr.below

end Records

/-! ## The edges of a copy -/

theorem HasEdges.map_fst (hq : HasEdges source c q l) :
    (c.heap.graph.state q).edges.map (·.1) = l.map (·.1) := by
  unfold HasEdges at hq
  generalize (c.heap.graph.state q).edges = l' at hq
  induction hq with
  | nil => rfl
  | cons he _ ih => rw [List.map_cons, List.map_cons, he.1, ih]

theorem HasEdges.nil (hq : (c.heap.graph.state q).edges = []) : HasEdges source c q [] := by
  unfold HasEdges
  rw [hq]
  exact .nil

/-- What holds of the labels that were copied holds of the labels of the copy. -/
theorem HasEdges.forall_label {P : Symbol → Prop} (hq : HasEdges source c q l)
    (hl : ∀ d ∈ l, P d.1) : ∀ d ∈ (c.heap.graph.state q).edges, P d.1 := by
  intro d hd
  have hlabel : d.1 ∈ (c.heap.graph.state q).edges.map (·.1) := List.mem_map.2 ⟨d, hd, rfl⟩
  rw [hq.map_fst, List.mem_map] at hlabel
  obtain ⟨d', hd', heq⟩ := hlabel
  rw [← heq]
  exact hl d' hd'

theorem Extends.addEdge (hext : c.Extends new c' added) (hmem : new ∈ c.heap.graph) {x : Symbol}
    {t : Ref} {g : Graph} (hg : c'.heap.graph.AddsEdge new x t g) :
    c.Extends new { c' with heap := { c'.heap with graph := g } } added := by
  refine ⟨hext.pending_eq, hext.find?, ?_, ?_, ?_⟩
  · exact fun hq => hg.mem_iff.2 (hext.mem hq)
  · intro q hq hne
    rw [hg.state_eq hne, hext.state_eq hq hne]
  · intro p hp
    obtain ⟨hbefore, hafter, hnone⟩ := hext.fresh p hp
    have hne : p.2 ≠ new := fun heq => hbefore (heq ▸ hmem)
    refine ⟨hbefore, hg.mem_iff.2 hafter, ?_⟩
    rw [hg.state_eq hne, hnone]

/-- The next edge of a state is copied to the end of the edges that its copy has. -/
theorem Records.copyEdge (hr : Records h images ids start c copies)
    (hvalues : ∀ q ∈ images.values, q ∈ h.graph) (hnew : new ∉ h.graph)
    (hmem : new ∈ c.heap.graph) (hedges : HasEdges h.graph c new l) (hx : e.1.isHashable = true)
    (hfresh : ∀ d ∈ l, e.1 ≠ .epsilon → d.1 ≠ .epsilon ∧ ¬ d.1.Same e.1)
    (hold : (h.graph.state e.2).id ∉ images → h.graph.ReachesOutside images start e.2) :
    ∃ c' added, Copying.copyEdge h.graph ids new c e = .ok c' ∧
      Records h images ids start c' (copies ++ added) ∧ c.Extends new c' added ∧
      HasEdges h.graph c' new (l ++ [e]) := by
  obtain ⟨added, hr₁, hext₁, hfind₁⟩ := hr.image hold
  rcases himage : c.image h.graph ids e.2 with ⟨t, c₁⟩
  rw [himage] at hr₁ hext₁ hfind₁
  have hstate : c₁.heap.graph.state new = c.heap.graph.state new :=
    -- no state that exists is touched, so any reference beyond them serves as the exception
    (hext₁ ⟨c.heap.graph.size⟩).state_eq hmem fun heq => by
      rw [heq] at hmem
      exact Nat.lt_irrefl _ hmem
  have hedges₁ : HasEdges h.graph c₁ new l := hedges.mono (hext₁ new).find? hstate
  have hlabels : e.1 ≠ .epsilon →
      ∀ d ∈ (c₁.heap.graph.state new).edges, d.1 ≠ .epsilon ∧ ¬ d.1.Same e.1 :=
    fun hne => hedges₁.forall_label (P := fun y => y ≠ .epsilon ∧ ¬ y.Same e.1)
      fun d hd => hfresh d hd hne
  obtain ⟨g, hconnect, hg⟩ := Graph.exists_connect ((hext₁ new).mem hmem)
    (hr₁.mem_of_find? hvalues hfind₁) hx hlabels
  refine ⟨{ c₁ with heap := { c₁.heap with graph := g } }, added, ?_, hr₁.addEdge hnew hg,
    (hext₁ new).addEdge hmem hg, ?_⟩
  · unfold Copying.copyEdge
    rw [himage]
    simp only [hconnect]
    rfl
  · unfold HasEdges at hedges₁ ⊢
    rw [hg.edges_eq]
    exact List.rel_append hedges₁ (.cons ⟨rfl, hfind₁⟩ .nil)

/-- All edges of a state are copied one after the other. -/
theorem Records.foldlM_copyEdge (hr : Records h images ids start c copies)
    (hvalues : ∀ q ∈ images.values, q ∈ h.graph) (hnew : new ∉ h.graph)
    (hmem : new ∈ c.heap.graph) {done rest : List (Symbol × Ref)}
    (hedges : HasEdges h.graph c new done) (hx : ∀ e ∈ rest, e.1.isHashable = true)
    (hfresh : (done ++ rest).Pairwise fun d e => e.1 ≠ .epsilon → d.1 ≠ .epsilon ∧ ¬ d.1.Same e.1)
    (hold : ∀ e ∈ rest, (h.graph.state e.2).id ∉ images →
      h.graph.ReachesOutside images start e.2) :
    ∃ c' added, rest.foldlM (Copying.copyEdge h.graph ids new) c = .ok c' ∧
      Records h images ids start c' (copies ++ added) ∧ c.Extends new c' added ∧
      HasEdges h.graph c' new (done ++ rest) := by
  induction rest generalizing c copies done with
  | nil => exact ⟨c, [], rfl, by simpa using hr, .refl c new, by simpa using hedges⟩
  | cons e rest ih =>
    have hbefore : ∀ d ∈ done, e.1 ≠ .epsilon → d.1 ≠ .epsilon ∧ ¬ d.1.Same e.1 := fun d hd =>
      (List.pairwise_append.1 hfresh).2.2 d hd e List.mem_cons_self
    obtain ⟨c₁, added₁, hstep, hr₁, hext₁, hedges₁⟩ := hr.copyEdge hvalues hnew hmem hedges
      (hx e List.mem_cons_self) hbefore (hold e List.mem_cons_self)
    obtain ⟨c₂, added₂, hrest, hr₂, hext₂, hedges₂⟩ := ih hr₁ (hext₁.mem hmem) hedges₁
      (fun d hd => hx d (List.mem_cons_of_mem _ hd)) (by simpa using hfresh)
      fun d hd => hold d (List.mem_cons_of_mem _ hd)
    refine ⟨c₂, added₁ ++ added₂, ?_, ?_, hext₁.trans hmem hext₂, ?_⟩
    · rw [List.foldlM_cons, hstep]
      exact hrest
    · rwa [← List.append_assoc]
    · rwa [List.append_assoc] at hedges₂

/-! ## The whole copy -/

/-- Between two turns of the loop: the copies that do not wait have all their edges, and the others
have none. -/
structure Invariant (h : Heap) (images : IdMap) (ids : IdSource) (start : Ref) (c : Copying)
    (finished : List (Ref × Ref)) : Prop where
  records : Records h images ids start c (finished ++ c.pending)
  finished_edges : ∀ p ∈ finished, HasEdges h.graph c p.2 (h.graph.state p.1).edges
  pending_edges : ∀ p ∈ c.pending, (c.heap.graph.state p.2).edges = []

variable {finished rest : List (Ref × Ref)}

theorem Records.setPending (hr : Records h images ids start c copies)
    (pending : List (Ref × Ref)) : Records h images ids start { c with pending } copies :=
  ⟨hr.size_eq, hr.nextIds_eq, hr.kept, hr.entries_eq, hr.refs_eq, hr.ids_eq, hr.isFinal_eq,
    hr.below⟩

theorem Invariant.turn (hi : Invariant h images ids start c finished)
    (hvalues : ∀ q ∈ images.values, q ∈ h.graph) (hpending : c.pending = (old, new) :: rest) :
    ∃ c', copyEdges h.graph ids { c with pending := rest } old new = .ok c' ∧
      (∀ {i r}, c.images.find? i = some r → c'.images.find? i = some r) ∧
      Invariant h images ids start c' (finished ++ [(old, new)]) := by
  have hr := hi.records.setPending rest
  rw [hpending] at hr
  have hthis : (old, new) ∈ finished ++ (old, new) :: rest := by simp
  have hnodup := hr.nodup_snd
  rw [List.map_append, List.map_cons, List.nodup_append, List.nodup_cons] at hnodup
  have hfinished : ∀ p ∈ finished, p.2 ≠ new := fun p hp heq =>
    hnodup.2.2 p.2 (List.mem_map.2 ⟨p, hp, rfl⟩) new List.mem_cons_self heq
  have hrest : ∀ p ∈ rest, p.2 ≠ new := fun p hp heq =>
    hnodup.2.1.1 (heq ▸ List.mem_map.2 ⟨p, hp, rfl⟩)
  have hnone : HasEdges h.graph { c with pending := rest } new [] :=
    .nil (hi.pending_edges (old, new) (by rw [hpending]; exact List.mem_cons_self))
  obtain ⟨c', added, hrun, hr', hext, hedges⟩ := hr.foldlM_copyEdge hvalues (hr.snd_mem hthis).1
    (hr.snd_mem hthis).2 hnone (fun e he => State.isHashable_of_mem_edges he)
    (by simpa using (h.graph.state old).pairwise_edges) fun e he hnew =>
      (hr.below _ hthis).step (State.map_snd_edges _ ▸ List.mem_map.2 ⟨e, he, rfl⟩) hnew
  refine ⟨c', hrun, hext.find?, ?_, ?_, ?_⟩
  · rw [hext.pending_eq]
    simpa using hr'
  · intro p hp
    rcases List.mem_append.1 hp with hp | hp
    · exact hext.hasEdges (hr.snd_mem (List.mem_append_left _ hp)).2 (hfinished p hp)
        (hi.finished_edges p hp)
    · rw [List.mem_singleton.1 hp]
      simpa using hedges
  · intro p hp
    rw [hext.pending_eq] at hp
    rcases List.mem_append.1 hp with hp | hp
    · have hmem := (hr.snd_mem (List.mem_append_right finished (List.mem_cons_of_mem _ hp))).2
      rw [hext.state_eq hmem (hrest p hp)]
      exact hi.pending_edges p (by rw [hpending]; exact List.mem_cons_of_mem _ hp)
    · exact (hext.fresh p hp).2.2

/-- The ids that have images when some copies have been made. -/
def idsBefore (source : Graph) (images : IdMap) (copies : List (Ref × Ref)) : List Int :=
  images.keys ++ copies.map fun p => (source.state p.1).id

theorem idsBefore_concat (source : Graph) (images : IdMap) (copies : List (Ref × Ref))
    (p : Ref × Ref) : idsBefore source images (copies ++ [p]) =
      idsBefore source images copies ++ [(source.state p.1).id] := by
  simp [idsBefore]

theorem Records.keys_eq (hr : Records h images ids start c copies) :
    c.images.keys = idsBefore h.graph images copies := by
  unfold IdMap.keys idsBefore
  rw [hr.entries_eq, List.map_append, List.map_map]
  rfl

/-- After a turn the states that wait are those behind the one that was copied, and the new ones
that its edges lead to. -/
theorem Invariant.pending_turn (hi : Invariant h images ids start c finished)
    (hpending : c.pending = (old, new) :: rest)
    (hturn : copyEdges h.graph ids { c with pending := rest } old new = .ok c') :
    c'.pending.map (·.1) = rest.map (·.1) ++ h.graph.fresh
      (idsBefore h.graph images finished ++
        (h.graph.state old).id :: (rest.map (·.1)).map fun r => (h.graph.state r).id)
      (h.graph.state old).targets := by
  have hkeys := hi.records.keys_eq
  rw [hpending, idsBefore, List.map_append, List.map_cons, ← List.append_assoc] at hkeys
  rw [(queued_copyEdges hturn).pending_eq, hkeys, List.map_map]
  rfl

/-- The loop never fails, and at its end no copy waits. States are copied in the order of a
traversal that has seen the ids with images. -/
theorem Invariant.run (hi : Invariant h images ids start c finished)
    (hvalues : ∀ q ∈ images.values, q ∈ h.graph) :
    ∃ c' copies, c.run h.graph ids = .ok c' ∧ c'.pending = [] ∧
      (∀ {i r}, c.images.find? i = some r → c'.images.find? i = some r) ∧
      Invariant h images ids start c' copies ∧
      ∀ queue, h.graph.fresh (idsBefore h.graph images finished) queue = c.pending.map (·.1) →
        ∃ order, h.graph.Visits (idsBefore h.graph images finished) queue order ∧
          copies.map (·.1) = finished.map (·.1) ++ order := by
  fun_induction Copying.run h.graph ids c generalizing finished with
  | case1 c hpending =>
    refine ⟨c, finished, rfl, hpending, id, hi, fun queue hqueue => ⟨[], ?_, by simp⟩⟩
    rw [hpending] at hqueue
    exact .of_fresh_eq_nil hqueue
  | case2 c old new rest hpending e hfail =>
    obtain ⟨c', hturn, -⟩ := hi.turn hvalues hpending
    rw [hturn] at hfail
    cases hfail
  | case3 c old new rest hpending next hnext ih =>
    obtain ⟨c₁, hturn, hfind₁, hi₁⟩ := hi.turn hvalues hpending
    rw [hturn] at hnext
    cases hnext
    obtain ⟨c₂, copies, hrun, hdone, hfind₂, hi₂, horder⟩ := ih hi₁
    refine ⟨c₂, copies, hrun, hdone, fun hi => hfind₂ (hfind₁ hi), hi₂, fun queue hqueue => ?_⟩
    rw [hpending, List.map_cons] at hqueue
    obtain ⟨queue', hqueue', hvisits⟩ :=
      Visits.exists_queue_of_fresh_eq_cons (fun r => (h.graph.state r).targets) hqueue
    rw [hi.pending_turn hpending hturn, idsBefore_concat] at horder
    obtain ⟨order, horder, hcopies⟩ := horder queue' hqueue'
    exact ⟨old :: order, hvisits order horder, by rw [hcopies]; simp⟩

end Copying

end EpsilonNfa
