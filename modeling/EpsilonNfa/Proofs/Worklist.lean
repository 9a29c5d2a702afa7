import Mathlib.Logic.Basic
import Mathlib.Tactic.Choose

/-!
# Worklist loops

A worklist loop takes something off a list in each turn for as long as there is something on it, and
may be left in between. It ends within a number of turns with an outcome that is known otherwise, if
an invariant and a number go from one turn to the next and the number gets smaller
(`Worklist.Bounded.endsWithin`). The turns are actions of any monad.
-/

namespace EpsilonNfa

variable {m : Type → Type} [Monad m] {σ α β γ : Type}

/-! ## What actions give -/

section Yields

variable {p : α → Prop}

/-- Whatever the action gives has the property. -/
def Yields (action : m α) (p : α → Prop) : Prop :=
  ∃ refined : m { x // p x }, Subtype.val <$> refined = action

theorem Yields.pure [LawfulMonad m] {x : α} (hx : p x) : Yields (pure x : m α) p :=
  ⟨Pure.pure ⟨x, hx⟩, map_pure _ _⟩

theorem Yields.bind [LawfulMonad m] (action : m γ) {f : γ → m α} (h : ∀ y, Yields (f y) p) :
    Yields (action >>= f) p := by
  choose refined hrefined using h
  refine ⟨action >>= refined, ?_⟩
  rw [map_bind]
  exact bind_congr hrefined

/-- A turn that goes on does so with what it says. -/
theorem Yields.inr [LawfulMonad m] {q : σ → Prop} {x : σ} (hx : q x) :
    Yields (Pure.pure (.inr x) : m (β ⊕ σ)) fun y => ∀ x', y = .inr x' → q x' := by
  refine .pure fun x' hx' => ?_
  cases hx'
  exact hx

/-- A turn that leaves the loop does not go on. -/
theorem Yields.inl [LawfulMonad m] {q : σ → Prop} (r : β) :
    Yields (Pure.pure (.inl r) : m (β ⊕ σ)) fun y => ∀ x', y = .inr x' → q x' := by
  refine .pure fun x' hx' => ?_
  cases hx'

theorem Yields.of_ok {ε : Type} {action : Except ε α} (h : ∀ x, action = .ok x → p x) :
    Yields action p := by
  cases action with
  | error e => exact ⟨.error e, rfl⟩
  | ok x => exact ⟨.ok ⟨x, h x rfl⟩, rfl⟩

end Yields

/-! ## Loops -/

/-- A loop with the state `σ` that works off a list. -/
structure Worklist (m : Type → Type) (σ α β : Type) where
  /-- What is on the list. -/
  waiting : σ → List α
  /-- What the loop gives when the list is empty. -/
  result : σ → β
  /-- The turn for the first of the list, which leaves the loop with a result or goes on. -/
  turn : σ → α → List α → m (β ⊕ σ)

namespace Worklist

variable {loop : Worklist m σ α β} {x : σ} {n : Nat} {a : α} {rest : List α}

/-- What a loop gives, if no more than the given number of turns lead to it. -/
def within (loop : Worklist m σ α β) : Nat → σ → m (Option β)
  | 0, x =>
    match loop.waiting x with
    | [] => pure (some (loop.result x))
    | _ :: _ => pure none
  | turns + 1, x =>
    match loop.waiting x with
    | [] => pure (some (loop.result x))
    | a :: rest => loop.turn x a rest >>= Sum.elim (pure ∘ some) (within loop turns)

theorem within_of_nil (h : loop.waiting x = []) (n : Nat) :
    loop.within n x = pure (some (loop.result x)) := by
  cases n <;> rw [within, h]

theorem within_succ_of_cons (h : loop.waiting x = a :: rest) (n : Nat) :
    loop.within (n + 1) x = loop.turn x a rest >>= Sum.elim (pure ∘ some) (loop.within n) := by
  rw [within, h]

/-- No more than the given number of turns lead to the outcome. -/
def EndsWithin (loop : Worklist m σ α β) (turns : Nat) (x : σ) (outcome : m β) : Prop :=
  loop.within turns x = some <$> outcome

/-- The loop keeps the invariant, the number gets smaller in each turn, and a turn does not change
what the outcome will be. -/
structure Bounded (loop : Worklist m σ α β) (Inv : σ → Prop) (size : σ → Nat)
    (outcome : σ → m β) : Prop where
  nil : ∀ {x}, Inv x → loop.waiting x = [] → outcome x = pure (loop.result x)
  cons : ∀ {x a rest}, Inv x → loop.waiting x = a :: rest →
    outcome x = loop.turn x a rest >>= Sum.elim pure outcome ∧ 0 < size x ∧
      Yields (loop.turn x a rest) fun y => ∀ x', y = .inr x' → Inv x' ∧ size x' < size x

theorem Bounded.endsWithin [LawfulMonad m] {Inv : σ → Prop} {size : σ → Nat} {outcome : σ → m β}
    (h : loop.Bounded Inv size outcome) (hx : Inv x) (hn : size x ≤ n) :
    loop.EndsWithin n x (outcome x) := by
  unfold EndsWithin
  induction n generalizing x with
  | zero =>
    cases hwaiting : loop.waiting x with
    | nil => rw [within_of_nil hwaiting, h.nil hx hwaiting, map_pure]
    | cons a rest =>
      obtain ⟨-, hpos, -⟩ := h.cons hx hwaiting
      omega
  | succ n ih =>
    cases hwaiting : loop.waiting x with
    | nil => rw [within_of_nil hwaiting, h.nil hx hwaiting, map_pure]
    | cons a rest =>
      obtain ⟨houtcome, -, refined, hrefined⟩ := h.cons hx hwaiting
      rw [within_succ_of_cons hwaiting, houtcome, ← hrefined, map_bind, bind_map_left,
        bind_map_left]
      refine bind_congr fun y => ?_
      obtain ⟨r | x', hy⟩ := y
      · exact (map_pure _ _).symm
      · obtain ⟨hx', hsize⟩ := hy x' rfl
        exact ih hx' (by omega)

end Worklist

end EpsilonNfa
