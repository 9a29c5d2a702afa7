import EpsilonNfa.Graph.Path
import Mathlib.Data.List.Forall2
import Mathlib.Data.List.Nodup

/-!
# Paths that stop with their last letter

A path of `Graph.Reads` may have epsilon edges behind its last letter. The paths of `Graph.Lands`
have none there, and so they are the ones that a simulation follows which keeps states before
epsilon edges: a path of the one kind is a path of the other with epsilon edges behind it
(`Graph.reads_iff_lands`).
-/

namespace EpsilonNfa.Graph

/-- A path from the first state to the second reads the word and ends with its last letter; where
the word is empty the path is. -/
inductive Lands (g : Graph) : Ref → List Symbol → Ref → Prop
  | nil (r : Ref) : Lands g r [] r
  | letter {r p s t : Ref} {x y : Symbol} {word : List Symbol} (pass : g.EpsilonReaches r p)
      (edge : (x, s) ∈ (g.state p).onSymbol.entries) (same : x.Same y) (rest : Lands g s word t) :
      Lands g r (y :: word) t

variable {g : Graph} {root r s t : Ref} {x y : Symbol} {word : List Symbol}

theorem Reaches.step_symbol (h : g.Reaches root r) (edge : (x, s) ∈ (g.state r).onSymbol.entries) :
    g.Reaches root s :=
  h.step (List.mem_append_left _ (List.mem_map.2 ⟨_, edge, rfl⟩))

theorem EpsilonReaches.head (edge : s ∈ (g.state r).onEpsilon) (h : g.EpsilonReaches s t) :
    g.EpsilonReaches r t :=
  (EpsilonReaches.refl.step edge).trans h

theorem Lands.reads (h : g.Lands r word s) : g.Reads r word s := by
  induction h with
  | nil => exact .nil _
  | letter pass edge same _ ih => exact pass.reads (.letter edge same ih)

theorem reads_iff_lands : g.Reads r word t ↔ ∃ s, g.Lands r word s ∧ g.EpsilonReaches s t := by
  constructor
  · intro h
    induction h with
    | nil r => exact ⟨r, .nil r, .refl⟩
    | @pass r s t word edge _ ih =>
      obtain ⟨q, hlands, hq⟩ := ih
      cases hlands with
      | nil => exact ⟨r, .nil r, .head edge hq⟩
      | letter pass edge' same rest => exact ⟨q, .letter (.head edge pass) edge' same rest, hq⟩
    | letter edge same _ ih =>
      obtain ⟨q, hlands, hq⟩ := ih
      exact ⟨q, .letter .refl edge same hlands, hq⟩
  · rintro ⟨s, hlands, hst⟩
    have h := hlands.reads.append (hst.reads (.nil t))
    rwa [List.append_nil] at h

/-- What a path reads can key a table, since the letters of tables can. -/
theorem Reads.isHashable (h : g.Reads r word t) : ∀ y ∈ word, y.isHashable = true := by
  induction h with
  | nil => simp
  | pass _ _ ih => exact ih
  | @letter r s t x y word edge same _ ih =>
    intro z hz
    rcases List.mem_cons.1 hz with rfl | hz
    · rw [← same.isHashable_eq]
      exact ((g.state r).onSymbol.letters _ edge).1
    · exact ih z hz

/-- No path reads the empty text: it is the same as no letter of a table. -/
theorem Reads.epsilon_not_mem (h : g.Reads r word t) : Symbol.epsilon ∉ word := by
  induction h with
  | nil => simp
  | pass _ _ ih => exact ih
  | @letter r s t x y word edge same _ ih =>
    intro hmem
    rcases List.mem_cons.1 hmem with rfl | hmem
    · exact ((g.state r).onSymbol.letters _ edge).2 (Symbol.same_epsilon_iff.1 same)
    · exact ih hmem

theorem Lands.reaches (h : g.Lands r word t) : g.Reaches r t :=
  h.reads.reaches

theorem lands_cons : g.Lands r (x :: word) t ↔ ∃ s, g.Lands r [x] s ∧ g.Lands s word t := by
  constructor
  · rintro (_ | ⟨pass, edge, same, rest⟩)
    exact ⟨_, .letter pass edge same (.nil _), rest⟩
  · rintro ⟨s, hfirst, hrest⟩
    cases hfirst with
    | letter pass edge same rest =>
      cases rest
      exact .letter pass edge same hrest

/-- Words that are the same letter by letter end in the same states. -/
theorem Lands.congr {word' : List Symbol} (h : g.Lands r word t)
    (hsame : List.Forall₂ Symbol.Same word word') : g.Lands r word' t := by
  induction h generalizing word' with
  | nil r =>
    cases hsame
    exact .nil r
  | letter pass edge same _ ih =>
    cases hsame with
    | cons hxy hrest => exact .letter pass edge (same.trans hxy) (ih hrest)

theorem lands_congr {word' : List Symbol} (hsame : List.Forall₂ Symbol.Same word word') :
    g.Lands r word t ↔ g.Lands r word' t :=
  ⟨fun h => h.congr hsame, fun h => h.congr (hsame.flip.imp fun _ _ hs => Symbol.Same.symm hs)⟩

/-- Where no two states of a graph have one id, none below a state have. -/
theorem DistinctIds.of_nodup (hs : s ∈ g) (h : (g.refs.map fun r => (g.state r).id).Nodup) :
    g.DistinctIds s := by
  intro r t hr ht hid
  exact List.inj_on_of_nodup_map h (mem_refs.2 (hr.mem hs)) (mem_refs.2 (ht.mem hs)) hid

end EpsilonNfa.Graph
