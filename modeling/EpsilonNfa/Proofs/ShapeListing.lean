import EpsilonNfa.Export.Listing
import EpsilonNfa.Proofs.Shape
import Mathlib.Data.List.Nodup

/-!
# Listings of shapes

A shape whose nodes stand in an order has a listing, in which the place of a node is its number. In
breadth-first order isomorphic shapes have one listing (`Shape.IsIso.listing_eq`). A listing is read
back as a shape with numbers as nodes (`Listing.shape`), and where all labels are texts this is the
shape that was listed (`Shape.isIso_listing`). So the listing of a shape in breadth-first order is a
canonical form of it (`Shape.listing_eq_iff`).
-/

namespace EpsilonNfa

/-- The shape that a listing describes, with numbers as nodes. -/
def Listing.shape (l : Listing) : Shape Nat where
  start := l.start
  isFinal n := decide (n ∈ l.finals)
  edges n := (l.transitions.filter (·.source = n)).map fun t => (.text t.label, t.target)

namespace Shape

variable {ν μ : Type} [DecidableEq ν] [DecidableEq μ]

/-- The place of a node, counted from one. -/
def numberIn (order : List ν) (x : ν) : Nat :=
  1 + order.idxOf x

/-- The edges that leave a node, in terms of numbers and labels. -/
def transitionsFrom (S : Shape ν) (order : List ν) (x : ν) : List Listing.Transition :=
  (S.edges x).map fun e => ⟨numberIn order x, e.1.label, numberIn order e.2⟩

/-- The listing of a shape whose nodes are numbered by their places in the order. -/
def listing (S : Shape ν) (order : List ν) : Listing :=
  let transitions := order.flatMap (S.transitionsFrom order)
  { states := List.range' 1 order.length
    letters := ((transitions.map (·.label)).filter (· ≠ "")).eraseDups.mergeSort
    transitions
    start := numberIn order S.start
    finals := (order.filter S.isFinal).map (numberIn order) }

/-- All labels below the start are texts. -/
def HasTextLabels (S : Shape ν) : Prop :=
  ∀ x, S.Reaches x → ∀ e ∈ S.edges x, ∃ content, e.1 = .text content

variable {S : Shape ν} {T : Shape μ} {f : ν → μ} {order : List ν} {order' : List μ} {x y : ν}

theorem numberIn_inj (hx : x ∈ order) : numberIn order x = numberIn order y ↔ x = y := by
  rw [numberIn, numberIn, Nat.add_left_cancel_iff, List.idxOf_inj hx]

theorem numberIn_map (hf : ∀ x ∈ order, ∀ y ∈ order, f x = f y → x = y) (hx : x ∈ order) :
    numberIn (order.map f) (f x) = numberIn order x := by
  unfold numberIn
  induction order with
  | nil => cases hx
  | cons y order ih =>
    by_cases hyx : y = x
    · subst hyx
      rw [List.map_cons, List.idxOf_cons_self, List.idxOf_cons_self]
    · have hne : f y ≠ f x := fun heq => hyx (hf y List.mem_cons_self x hx heq)
      have hmem : x ∈ order := (List.mem_cons.1 hx).resolve_left (Ne.symm hyx)
      rw [List.map_cons, List.idxOf_cons_ne _ hne, List.idxOf_cons_ne _ hyx]
      have := ih (fun u hu v hv => hf u (List.mem_cons_of_mem _ hu) v (List.mem_cons_of_mem _ hv))
        hmem
      omega

/-! ## Isomorphic shapes have one listing -/

namespace IsIso

variable (h : S.IsIso f T) (horder : S.Order order)
include h horder

theorem numberIn_eq (hx : S.Reaches x) : numberIn (order.map f) (f x) = numberIn order x :=
  numberIn_map
    (fun _ hy _ hz heq => h.eq_of_apply_eq (horder.mem_iff.1 hy) (horder.mem_iff.1 hz) heq)
    (horder.mem_iff.2 hx)

theorem transitionsFrom_eq (hx : S.Reaches x) :
    T.transitionsFrom (order.map f) (f x) = S.transitionsFrom order x := by
  unfold transitionsFrom
  rw [h.edges_eq hx, List.map_map]
  refine List.map_congr_left fun e he => ?_
  rw [Function.comp, h.numberIn_eq horder hx,
    h.numberIn_eq horder (hx.step (mem_targets_of_mem_edges he))]

theorem listing_map : T.listing (order.map f) = S.listing order := by
  have htransitions : (order.map f).flatMap (T.transitionsFrom (order.map f)) =
      order.flatMap (S.transitionsFrom order) := by
    rw [List.flatMap_map]
    exact List.flatMap_congr fun x hx => h.transitionsFrom_eq horder (horder.mem_iff.1 hx)
  have hstart : numberIn (order.map f) T.start = numberIn order S.start := by
    rw [← h.start_eq, h.numberIn_eq horder .start]
  have hfinals : ((order.map f).filter T.isFinal).map (numberIn (order.map f)) =
      (order.filter S.isFinal).map (numberIn order) := by
    have hfilter : order.filter (T.isFinal ∘ f) = order.filter S.isFinal :=
      List.filter_congr fun x hx => h.isFinal_eq (horder.mem_iff.1 hx)
    rw [List.filter_map, hfilter, List.map_map]
    refine List.map_congr_left fun x hx => h.numberIn_eq horder ?_
    exact horder.mem_iff.1 (List.mem_filter.1 hx).1
  simp only [listing, htransitions, hstart, hfinals, List.length_map]

theorem listing_eq (horder' : T.Order order') : T.listing order' = S.listing order := by
  rw [horder'.unique (h.order_map horder), h.listing_map horder]

end IsIso

/-! ## A listing read back -/

omit [DecidableEq ν] in
/-- Where one member of a list without repetitions has parts, these are all the parts. -/
theorem flatMap_eq_of_forall_ne {β : Type} {l : List ν} (hl : l.Nodup) (hx : x ∈ l)
    (parts : ν → List β) (hparts : ∀ y ∈ l, y ≠ x → parts y = []) : l.flatMap parts = parts x := by
  induction l with
  | nil => cases hx
  | cons y l ih =>
    rw [List.nodup_cons] at hl
    rw [List.flatMap_cons]
    by_cases hyx : y = x
    · subst hyx
      have hnil : l.flatMap parts = [] := List.flatMap_eq_nil_iff.2 fun z hz =>
        hparts z (List.mem_cons_of_mem _ hz) fun heq => hl.1 (heq ▸ hz)
      rw [hnil, List.append_nil]
    · rw [hparts y List.mem_cons_self hyx, List.nil_append]
      exact ih hl.2 ((List.mem_cons.1 hx).resolve_left (Ne.symm hyx)) fun z hz =>
        hparts z (List.mem_cons_of_mem _ hz)

/-- Of the transitions those with the number of a node are the ones that leave it. -/
theorem filter_transitions (hnodup : order.Nodup) (hx : x ∈ order) :
    (order.flatMap (S.transitionsFrom order)).filter (·.source = numberIn order x) =
      S.transitionsFrom order x := by
  rw [List.filter_flatMap, flatMap_eq_of_forall_ne hnodup hx]
  · refine List.filter_eq_self.2 fun t ht => ?_
    obtain ⟨e, -, rfl⟩ := List.mem_map.1 ht
    simp
  · intro y hy hne
    refine List.filter_eq_nil_iff.2 fun t ht => ?_
    obtain ⟨e, -, rfl⟩ := List.mem_map.1 ht
    simpa [numberIn_inj hy] using hne

theorem numberIn_mem_finals (hx : x ∈ order) :
    numberIn order x ∈ (S.listing order).finals ↔ S.isFinal x = true := by
  show numberIn order x ∈ (order.filter S.isFinal).map (numberIn order) ↔ _
  rw [List.mem_map]
  constructor
  · rintro ⟨y, hy, heq⟩
    rw [List.mem_filter] at hy
    rw [← (numberIn_inj hy.1).1 heq]
    exact hy.2
  · exact fun hfinal => ⟨x, List.mem_filter.2 ⟨hx, hfinal⟩, rfl⟩

/-- Nothing is lost in a listing but the kinds of the labels. -/
theorem isIso_listing (horder : S.Order order) (htext : S.HasTextLabels) :
    S.IsIso (numberIn order) (S.listing order).shape where
  start_eq := rfl
  isFinal_eq {x} hx := by
    rw [Bool.eq_iff_iff, ← numberIn_mem_finals (horder.mem_iff.2 hx)]
    exact decide_eq_true_iff
  edges_eq {x} hx := by
    have hfrom := filter_transitions (S := S) horder.nodup (horder.mem_iff.2 hx)
    show ((order.flatMap (S.transitionsFrom order)).filter (·.source = numberIn order x)).map _ = _
    rw [hfrom, transitionsFrom, List.map_map]
    refine List.map_congr_left fun e he => ?_
    obtain ⟨content, hcontent⟩ := htext x hx e he
    rw [Function.comp, hcontent]
    rfl
  eq_of_apply_eq hx _ heq := (numberIn_inj (horder.mem_iff.2 hx)).1 heq

/-- Shapes with texts on their edges have one listing exactly when they are isomorphic. -/
theorem listing_eq_iff (horder : S.Order order) (horder' : T.Order order') (htext : S.HasTextLabels)
    (htext' : T.HasTextLabels) :
    S.listing order = T.listing order' ↔ ∃ f, S.IsIso f T := by
  constructor
  · intro heq
    have hback := isIso_listing horder htext
    rw [heq] at hback
    obtain ⟨e, he, -⟩ := (isIso_listing horder' htext').exists_symm
    exact ⟨_, hback.comp he⟩
  · rintro ⟨f, hf⟩
    exact (hf.listing_eq horder horder').symm

end Shape

end EpsilonNfa
