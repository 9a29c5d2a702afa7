import EpsilonNfa.Proofs.Traversal
import EpsilonNfa.Symbol.Basic
import Mathlib.Data.Set.Function

/-!
# Rooted graphs up to isomorphism

A shape is a rooted graph with labelled edges in their order, whatever its nodes are. What can be
said about a graph without naming its nodes is said about shapes: two shapes are the same when one
is renamed to the other below its start (`Shape.IsIso`), and then they are traversed alike
(`Shape.IsIso.order_map`). Putting one shape behind another (`Shape.join`) is associative up to the
names of nodes (`Shape.isIso_join_assoc`).
-/

namespace EpsilonNfa

variable {ν μ κ : Type}

/-- A rooted graph whose edges have labels and an order. -/
structure Shape (ν : Type) where
  start : ν
  isFinal : ν → Bool
  edges : ν → List (Symbol × ν)

namespace Shape

def targets (S : Shape ν) (x : ν) : List ν :=
  (S.edges x).map (·.2)

/-- The node is the start or lies beyond it along edges. -/
inductive Reaches (S : Shape ν) : ν → Prop
  | start : Reaches S S.start
  | step {x y : ν} (h : Reaches S x) (edge : y ∈ S.targets x) : Reaches S y

/-- The nodes below the start in breadth-first order. -/
def Order (S : Shape ν) (order : List ν) : Prop :=
  Visits id S.targets [] [S.start] order

/-- Below its start the shape `T` is the shape `S` with its nodes renamed by `f`. -/
structure IsIso (S : Shape ν) (f : ν → μ) (T : Shape μ) : Prop where
  start_eq : f S.start = T.start
  isFinal_eq : ∀ {x}, S.Reaches x → T.isFinal (f x) = S.isFinal x
  edges_eq : ∀ {x}, S.Reaches x → T.edges (f x) = (S.edges x).map fun e => (e.1, f e.2)
  eq_of_apply_eq : ∀ {x y}, S.Reaches x → S.Reaches y → f x = f y → x = y

variable {S S' : Shape ν} {T T' : Shape μ} {U : Shape κ} {f : ν → μ} {f' : μ → κ} {x y p : ν}
variable {order order' : List ν}

theorem mem_targets_of_mem_edges {e : Symbol × ν} (he : e ∈ S.edges x) : e.2 ∈ S.targets x :=
  List.mem_map.2 ⟨e, he, rfl⟩

/-! ## Orders -/

namespace Order

theorem unique (h : S.Order order) (h' : S.Order order') : order = order' :=
  Visits.unique h h'

theorem nodup (h : S.Order order) : order.Nodup := by
  simpa using h.nodup_keys

theorem mem_iff (h : S.Order order) : x ∈ order ↔ S.Reaches x := by
  constructor
  · refine h.forall_mem (fun y hy => ?_) (fun _ hy _ hz => hy.step hz) x
    rw [List.mem_singleton.1 hy]
    exact .start
  · intro hx
    induction hx with
    | start => simpa using h.covers_queue S.start List.mem_cons_self
    | @step x y _ edge ih => simpa using h.covers_next x ih y edge

/-- The start comes first. -/
theorem idxOf_start [DecidableEq ν] (h : S.Order order) : order.idxOf S.start = 0 := by
  cases h with
  | skip old => cases old
  | visit => exact List.idxOf_cons_self

end Order

/-! ## Isomorphisms -/

namespace IsIso

theorem targets_eq (h : S.IsIso f T) (hx : S.Reaches x) :
    T.targets (f x) = (S.targets x).map f := by
  rw [targets, targets, h.edges_eq hx, List.map_map, List.map_map]
  rfl

theorem reaches_iff (h : S.IsIso f T) {q : μ} : T.Reaches q ↔ ∃ x, S.Reaches x ∧ f x = q := by
  constructor
  · intro hq
    induction hq with
    | start => exact ⟨S.start, .start, h.start_eq⟩
    | step _ edge ih =>
      obtain ⟨x, hx, rfl⟩ := ih
      obtain ⟨y, hy, rfl⟩ := List.mem_map.1 (h.targets_eq hx ▸ edge)
      exact ⟨y, hx.step hy, rfl⟩
  · rintro ⟨x, hx, rfl⟩
    induction hx with
    | start => exact h.start_eq ▸ .start
    | step hx edge ih => exact ih.step (h.targets_eq hx ▸ List.mem_map.2 ⟨_, edge, rfl⟩)

theorem comp (h : S.IsIso f T) (h' : T.IsIso f' U) : S.IsIso (f' ∘ f) U where
  start_eq := by rw [Function.comp, h.start_eq, h'.start_eq]
  isFinal_eq hx := by
    rw [Function.comp, h'.isFinal_eq (h.reaches_iff.2 ⟨_, hx, rfl⟩), h.isFinal_eq hx]
  edges_eq hx := by
    rw [Function.comp, h'.edges_eq (h.reaches_iff.2 ⟨_, hx, rfl⟩), h.edges_eq hx, List.map_map]
    rfl
  eq_of_apply_eq hx hy heq :=
    h.eq_of_apply_eq hx hy
      (h'.eq_of_apply_eq (h.reaches_iff.2 ⟨_, hx, rfl⟩) (h.reaches_iff.2 ⟨_, hy, rfl⟩) heq)

theorem refl (S : Shape ν) : S.IsIso id S where
  start_eq := rfl
  isFinal_eq _ := rfl
  edges_eq _ := by simp
  eq_of_apply_eq _ _ heq := heq

/-- The names can be taken back. -/
theorem exists_symm (h : S.IsIso f T) : ∃ e, T.IsIso e S ∧ ∀ x, S.Reaches x → e (f x) = x := by
  have : Nonempty ν := ⟨S.start⟩
  have hinv : ∀ x, S.Reaches x → Function.invFunOn f {x | S.Reaches x} (f x) = x := fun x hx =>
    Set.InjOn.leftInvOn_invFunOn (s := {x | S.Reaches x})
      (fun _ hx _ hy => h.eq_of_apply_eq hx hy) hx
  refine ⟨Function.invFunOn f {x | S.Reaches x}, ⟨?_, ?_, ?_, ?_⟩, hinv⟩
  · rw [← h.start_eq, hinv _ .start]
  · intro q hq
    obtain ⟨x, hx, rfl⟩ := h.reaches_iff.1 hq
    rw [hinv x hx, h.isFinal_eq hx]
  · intro q hq
    obtain ⟨x, hx, rfl⟩ := h.reaches_iff.1 hq
    rw [hinv x hx, h.edges_eq hx, List.map_map]
    refine (List.map_id _).symm.trans (List.map_congr_left fun e he => ?_)
    exact Prod.ext rfl (hinv _ (hx.step (mem_targets_of_mem_edges he))).symm
  · intro q r hq hr heq
    obtain ⟨x, hx, rfl⟩ := h.reaches_iff.1 hq
    obtain ⟨y, hy, rfl⟩ := h.reaches_iff.1 hr
    rw [hinv x hx, hinv y hy] at heq
    rw [heq]

/-- Two shapes that are one shape under different names are isomorphic. -/
theorem exists_of_isIso {g : ν → κ} (h : S.IsIso f T) (h' : S.IsIso g U) :
    ∃ e, T.IsIso e U ∧ ∀ x, S.Reaches x → e (f x) = g x := by
  obtain ⟨e, he, hef⟩ := h.exists_symm
  exact ⟨g ∘ e, he.comp h', fun x hx => congrArg g (hef x hx)⟩

/-- Isomorphic shapes are traversed alike. -/
theorem order_map (h : S.IsIso f T) (horder : S.Order order) : T.Order (order.map f) := by
  have hmap := Visits.map (P := S.Reaches) id T.targets f f horder
    (fun x hx => List.mem_singleton.1 hx ▸ .start) (fun _ hx _ hy => hx.step hy) (fun _ _ => rfl)
    (fun x hx => h.targets_eq (horder.mem_iff.1 hx)) (fun _ _ hmem => by simp at hmem)
    fun _ _ hx hy heq => h.eq_of_apply_eq hx hy heq
  rwa [List.map_singleton, h.start_eq] at hmap

end IsIso

/-! ## One shape behind another -/

variable [DecidableEq ν]

/-- The shape `S` with `T` behind its node `p`, which is not final and has an edge more, to the
start of `T` on epsilon. -/
def join (S : Shape ν) (p : ν) (T : Shape μ) : Shape (ν ⊕ μ) where
  start := .inl S.start
  isFinal := Sum.elim (fun x => S.isFinal x && x ≠ p) T.isFinal
  edges :=
    Sum.elim
      (fun x => (S.edges x).map (fun e => (e.1, .inl e.2)) ++
        if x = p then [(.epsilon, .inr T.start)] else [])
      fun y => (T.edges y).map fun e => (e.1, .inr e.2)

theorem targets_join_inl (S : Shape ν) (p : ν) (T : Shape μ) (x : ν) :
    (S.join p T).targets (.inl x) =
      (S.targets x).map .inl ++ if x = p then [.inr T.start] else [] := by
  by_cases hx : x = p <;> simp [targets, join, hx, Function.comp_def]

theorem targets_join_inr (S : Shape ν) (p : ν) (T : Shape μ) (y : μ) :
    (S.join p T).targets (.inr y) = (T.targets y).map .inr := by
  simp [targets, join, Function.comp_def]

theorem mem_targets_join_inl {z : ν ⊕ μ} : z ∈ (S.join p T).targets (.inl x) ↔
    (∃ y ∈ S.targets x, .inl y = z) ∨ x = p ∧ .inr T.start = z := by
  rw [targets_join_inl, List.mem_append, List.mem_map]
  by_cases hx : x = p <;> simp [hx, eq_comm]

theorem mem_targets_join_inr {z : ν ⊕ μ} {y : μ} : z ∈ (S.join p T).targets (.inr y) ↔
    ∃ y' ∈ T.targets y, .inr y' = z := by
  rw [targets_join_inr, List.mem_map]

/-- Below the start of a join are the nodes of the first shape, and those of the second if the first
one leads to them. -/
theorem reaches_join_iff {z : ν ⊕ μ} : (S.join p T).Reaches z ↔
    (∃ x, S.Reaches x ∧ .inl x = z) ∨ S.Reaches p ∧ ∃ y, T.Reaches y ∧ .inr y = z := by
  constructor
  · intro hz
    induction hz with
    | start => exact Or.inl ⟨S.start, .start, rfl⟩
    | step _ edge ih =>
      rcases ih with ⟨x, hx, rfl⟩ | ⟨hp, y, hy, rfl⟩
      · rcases mem_targets_join_inl.1 edge with ⟨x', hx', rfl⟩ | ⟨rfl, rfl⟩
        · exact Or.inl ⟨x', hx.step hx', rfl⟩
        · exact Or.inr ⟨hx, T.start, .start, rfl⟩
      · obtain ⟨y', hy', rfl⟩ := mem_targets_join_inr.1 edge
        exact Or.inr ⟨hp, y', hy.step hy', rfl⟩
  · have hfirst : ∀ {x}, S.Reaches x → (S.join p T).Reaches (.inl x) := by
      intro x hx
      induction hx with
      | start => exact .start
      | step _ edge ih => exact ih.step (mem_targets_join_inl.2 (Or.inl ⟨_, edge, rfl⟩))
    rintro (⟨x, hx, rfl⟩ | ⟨hp, y, hy, rfl⟩)
    · exact hfirst hx
    · induction hy with
      | start => exact (hfirst hp).step (mem_targets_join_inl.2 (Or.inr ⟨rfl, rfl⟩))
      | step _ edge ih => exact ih.step (mem_targets_join_inr.2 ⟨_, edge, rfl⟩)

@[simp] theorem reaches_join_inl : (S.join p T).Reaches (.inl x) ↔ S.Reaches x := by
  simp [reaches_join_iff]

@[simp] theorem reaches_join_inr {y : μ} :
    (S.join p T).Reaches (.inr y) ↔ S.Reaches p ∧ T.Reaches y := by
  simp [reaches_join_iff]

/-- The order in which three shapes are put behind each other does not matter. -/
theorem isIso_join_assoc [DecidableEq μ] (S : Shape ν) (p : ν) (T : Shape μ) (q : μ) (U : Shape κ) :
    ((S.join p T).join (.inr q) U).IsIso (Equiv.sumAssoc ν μ κ) (S.join p (T.join q U)) where
  start_eq := rfl
  isFinal_eq {z} _ := by
    rcases z with (x | y) | z <;> simp [join]
  edges_eq {z} _ := by
    rcases z with (x | y) | z
    · by_cases hx : x = p <;> simp [join, hx]
    · by_cases hy : y = q <;> simp [join, hy]
    · simp [join]
  eq_of_apply_eq _ _ heq := (Equiv.sumAssoc ν μ κ).injective heq

end Shape

end EpsilonNfa
