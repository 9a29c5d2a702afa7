import EpsilonNfa.Session.Basic

/-!
# Outcomes of operations

An operation on a heap or on a session that returns a value and leaves a state behind, without its
monad: `Returns` composes along `bind`, and each primitive operation has its own lemma.
-/

namespace EpsilonNfa

variable {α β σ : Type}

theorem bind_eq_ok {ε : Type} {m : Except ε α} {f : α → Except ε β} {b : β} :
    (m >>= f) = .ok b ↔ ∃ a, m = .ok a ∧ f a = .ok b := by
  cases m with
  | error e =>
    constructor
    · intro h; cases h
    · rintro ⟨a, h, -⟩; cases h
  | ok a =>
    constructor
    · exact fun h => ⟨a, rfl, h⟩
    · rintro ⟨_, h, hf⟩
      cases h
      exact hf

/-- What an operation does that begins with another: nothing more if that one fails. -/
theorem run_bind (m : ExceptT Error (StateM σ) α) (f : α → ExceptT Error (StateM σ) β) (s : σ) :
    (m >>= f).run.run s = match m.run.run s with
      | (.ok a, s') => (f a).run.run s'
      | (.error e, s') => (.error e, s') := by
  have hrun : (m >>= f).run.run s =
      ExceptT.bindCont (fun a => f a) (m.run.run s).1 (m.run.run s).2 := rfl
  rw [hrun]
  rcases m.run.run s with ⟨_ | a, s'⟩ <;> rfl

theorem run_pure (a : α) (s : σ) :
    (Pure.pure a : ExceptT Error (StateM σ) α).run.run s = (.ok a, s) := rfl

theorem run_get (s : σ) :
    (MonadState.get : ExceptT Error (StateM σ) σ).run.run s = (.ok s, s) := rfl

theorem run_liftM (m : Except Error α) (s : σ) :
    (liftM m : ExceptT Error (StateM σ) α).run.run s = (m, s) := by
  cases m <;> rfl

/-- Begun at `s` the operation returns `a` and leaves `s'` behind. -/
def Returns (m : ExceptT Error (StateM σ) α) (s : σ) (a : α) (s' : σ) : Prop :=
  m.run.run s = (.ok a, s')

namespace Returns

variable {m : ExceptT Error (StateM σ) α} {f : α → ExceptT Error (StateM σ) β}
variable {s s' s'' : σ} {a a' : α} {b : β}

theorem unique (h : Returns m s a s') (h' : Returns m s a' s'') : a = a' ∧ s' = s'' := by
  unfold Returns at h h'
  rw [h] at h'
  cases h'
  exact ⟨rfl, rfl⟩

theorem pure (a : α) (s : σ) : Returns (Pure.pure a) s a s := rfl

theorem bind (h : Returns m s a s') (h' : Returns (f a) s' b s'') : Returns (m >>= f) s b s'' := by
  unfold Returns at *
  have hrun : (m >>= f).run.run s =
      ExceptT.bindCont (fun a => f a) (m.run.run s).1 (m.run.run s).2 := rfl
  rw [hrun, h]
  exact h'

/-- What returns went through its parts. -/
theorem exists_of_bind (h : Returns (m >>= f) s b s'') :
    ∃ a s', Returns m s a s' ∧ Returns (f a) s' b s'' := by
  unfold Returns at *
  rw [run_bind] at h
  generalize m.run.run s = result at h
  rcases result with ⟨_ | a, s'⟩
  · cases h
  · exact ⟨a, s', rfl, h⟩

theorem lift {m : Except Error α} (h : m = .ok a) (s : σ) :
    Returns (liftM m : ExceptT Error (StateM σ) α) s a s := by
  rw [h]
  rfl

theorem get (s : σ) : Returns MonadState.get s s s := rfl

theorem modifyGet (f : σ → α × σ) (s : σ) :
    Returns (MonadState.modifyGet f) s (f s).1 (f s).2 := rfl

/-- An operation that leaves the state alone can be run on all members of a list. -/
theorem mapM {γ : Type} {f : γ → ExceptT Error (StateM σ) α} {g : γ → α} {l : List γ}
    (h : ∀ x ∈ l, Returns (f x) s (g x) s) : Returns (l.mapM f) s (l.map g) s := by
  induction l with
  | nil => exact .pure [] s
  | cons x l ih =>
    rw [List.mapM_cons]
    have hrest := ih fun y hy => h y (List.mem_cons_of_mem _ hy)
    exact (h x List.mem_cons_self).bind (hrest.bind (.pure _ s))

end Returns

/-- Begun at `s` the operation fails with `e` and leaves `s'` behind. -/
def Fails (m : ExceptT Error (StateM σ) α) (s : σ) (e : Error) (s' : σ) : Prop :=
  m.run.run s = (.error e, s')

section Fails

variable {m : ExceptT Error (StateM σ) α} {f : α → ExceptT Error (StateM σ) β}
variable {s s' s'' : σ} {a : α} {e e' : Error}

theorem Fails.unique (h : Fails m s e s') (h' : Fails m s e' s'') : e = e' ∧ s' = s'' := by
  unfold Fails at h h'
  rw [h] at h'
  cases h'
  exact ⟨rfl, rfl⟩

theorem exists_fails_iff : (∃ e s', Fails m s e s') ↔ ∃ e, (m.run.run s).1 = .error e := by
  unfold Fails
  constructor
  · rintro ⟨e, s', h⟩
    exact ⟨e, by rw [h]⟩
  · rintro ⟨e, h⟩
    exact ⟨e, (m.run.run s).2, Prod.ext h rfl⟩

theorem Fails.not_returns (h : Fails m s e s') : ¬ Returns m s a s'' := by
  unfold Fails Returns at *
  rw [h]
  intro heq
  cases heq

theorem Fails.bind (h : Fails m s e s') (f : α → ExceptT Error (StateM σ) β) :
    Fails (m >>= f) s e s' := by
  unfold Fails at *
  rw [run_bind, h]

theorem Fails.of_bind (h : Returns m s a s') (h' : Fails (f a) s' e s'') :
    Fails (m >>= f) s e s'' := by
  unfold Returns at h
  unfold Fails at *
  rw [run_bind, h]
  exact h'

end Fails

/-- Begun at `s` the operation leaves a state behind of which `Q` holds, also when it fails, and of
what it returns `P` holds. -/
structure Ensures (m : ExceptT Error (StateM σ) α) (s : σ) (Q : σ → Prop) (P : α → σ → Prop) :
    Prop where
  left : Q (m.run.run s).2
  returned : ∀ {a s'}, Returns m s a s' → P a s'

namespace Ensures

variable {m : ExceptT Error (StateM σ) α} {f : α → ExceptT Error (StateM σ) β}
variable {s s' : σ} {a : α} {e : Error} {Q : σ → Prop} {P : α → σ → Prop} {P' : β → σ → Prop}

theorem of_returns (h : Returns m s a s') (hQ : Q s') (hP : P a s') : Ensures m s Q P where
  left := by
    unfold Returns at h
    rwa [h]
  returned h' := by
    obtain ⟨rfl, rfl⟩ := h.unique h'
    exact hP

theorem of_fails {t : σ} (h : Fails m s e t) (hQ : Q t) : Ensures m s Q P where
  left := by
    unfold Fails at h
    rwa [h]
  returned h' := absurd h' h.not_returns

theorem of_bind (h : Returns m s a s') (hf : Ensures (f a) s' Q P') : Ensures (m >>= f) s Q P' where
  left := by
    unfold Returns at h
    rw [run_bind, h]
    exact hf.left
  returned hreturns := by
    obtain ⟨b, s₁, hfirst, hrest⟩ := hreturns.exists_of_bind
    obtain ⟨rfl, rfl⟩ := h.unique hfirst
    exact hf.returned hrest

theorem bind (h : Ensures m s Q P) (hf : ∀ a s', P a s' → Ensures (f a) s' Q P') :
    Ensures (m >>= f) s Q P' := by
  rcases hrun : m.run.run s with ⟨e | a, s'⟩
  · have hleft := h.left
    rw [hrun] at hleft
    exact of_fails (Fails.bind hrun f) hleft
  · exact of_bind hrun (hf a s' (h.returned hrun))

/-- An operation that leaves the state alone does so for all members of a list. -/
theorem mapM {γ : Type} {f : γ → ExceptT Error (StateM σ) α} {l : List γ} {P : α → Prop} (hQ : Q s)
    (hf : ∀ x, Ensures (f x) s Q fun a s' => s = s' ∧ P a) :
    Ensures (l.mapM f) s Q fun l' s' => s = s' ∧ ∀ a ∈ l', P a := by
  induction l with
  | nil => exact of_returns (.pure [] s) hQ ⟨rfl, by simp⟩
  | cons x l ih =>
    rw [List.mapM_cons]
    refine (hf x).bind ?_
    rintro a _ ⟨rfl, ha⟩
    refine ih.bind ?_
    rintro l' _ ⟨rfl, hl'⟩
    refine of_returns (.pure (a :: l') _) hQ ⟨rfl, fun b hb => ?_⟩
    rcases List.mem_cons.1 hb with rfl | hb
    · exact ha
    · exact hl' b hb

end Ensures

/-! ## Heaps -/

namespace HeapM

variable {h : Heap} {g : Graph} {p q : Ref}

theorem returns_newState (h : Heap) (ids : IdSource) (isFinal : Bool) :
    Returns (newState ids isFinal) h ⟨h.graph.size⟩ (h.addState ids isFinal).2 := rfl

theorem returns_setFinal (h : Heap) (p : Ref) (isFinal : Bool) :
    Returns (setFinal p isFinal) h ⟨⟩ { h with graph := h.graph.setFinal p isFinal } := rfl

theorem run_connect (h : Heap) (s : Ref) (x : Symbol) (t : Ref) :
    (connect s x t).run.run h = match h.graph.connect s x t with
      | .ok g => (.ok ⟨⟩, { h with graph := g })
      | .error e => (.error e, h) := by
  simp only [connect, run_bind, run_liftM, run_get]
  cases h.graph.connect s x t <;> rfl

theorem returns_connect {x : Symbol} (hconnect : h.graph.connect p x q = .ok g) :
    Returns (connect p x q) h ⟨⟩ { h with graph := g } := by
  unfold connect
  exact .bind (.get h) (.bind (.lift hconnect h) rfl)

end HeapM

/-! ## Sessions -/

namespace SessionM

variable {s : Session} {r : AutomatonRef} {a : Automaton}

theorem run_onHeap {α : Type} (action : HeapM α) (s : Session) :
    (onHeap action).run.run s =
      ((action.run.run s.heap).1, { s with heap := (action.run.run s.heap).2 }) := rfl

theorem returns_onHeap {α : Type} {action : HeapM α} {x : α} {h' : Heap}
    (h : Returns action s.heap x h') : Returns (onHeap action) s x { s with heap := h' } := by
  unfold Returns at *
  rw [run_onHeap, h]

theorem returns_build {action : HeapM Automaton} {h' : Heap} (h : Returns action s.heap a h') :
    Returns (build action) s ⟨s.automata.size⟩ { heap := h', automata := s.automata.push a } :=
  .bind (returns_onHeap h) (.modifyGet _ _)

/-- What fails builds nothing, and leaves the heap as it comes to be. -/
theorem run_build (action : HeapM Automaton) (s : Session) :
    (build action).run.run s = match action.run.run s.heap with
      | (.ok a, heap) => (.ok ⟨s.automata.size⟩, { heap, automata := s.automata.push a })
      | (.error e, heap) => (.error e, { s with heap }) := by
  unfold build
  rw [run_bind, run_onHeap]
  generalize action.run.run s.heap = result
  rcases result with ⟨_ | a, heap⟩ <;> rfl

theorem returns_automaton (hr : s.automaton? r = some a) : Returns (automaton r) s a s := by
  unfold automaton
  refine .bind (.get s) ?_
  simp only [hr]
  exact .pure a s

theorem returns_graph (s : Session) : Returns graph s s.graph s :=
  .bind (.get s) (.pure _ s)

end SessionM

end EpsilonNfa
