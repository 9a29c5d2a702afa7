import EpsilonNfa.Proofs.LineListing
import EpsilonNfa.Proofs.Word
import Mathlib.Data.List.Lex
import Mathlib.Data.Set.List

/-!
# The listing of the automaton of a word

The automaton of a word is a line of two states for each letter, so its document is known from the
word alone (`Automaton.Spells.document_listing`). The labels in it are the letters of the word in
their order with an empty one between any two (`Symbol.filter_wordLabels`).
-/

namespace EpsilonNfa

variable {h : Heap} {a : Automaton} {content : String}

namespace Symbol

/-- The labels along the automaton of a word, with the empty one on the edges that read nothing. -/
def wordLabels (content : String) : List String :=
  (content.toList.map String.singleton).intersperse ""

theorem map_label_spaced (word : List Symbol) :
    (spaced word).map label = (word.map label).intersperse "" := by
  induction word with
  | nil => rfl
  | cons x word ih =>
    cases word with
    | nil => rfl
    | cons y word =>
      rw [spaced_cons x (List.cons_ne_nil y word), List.map_cons, List.map_cons, ih]
      rfl

theorem map_label_spaced_ofText (content : String) :
    (spaced (ofText content)).map label = wordLabels content := by
  rw [map_label_spaced, ofText, List.map_map]
  rfl

/-- The labels that read something are the letters of the word in their order. -/
theorem filter_wordLabels (content : String) :
    (wordLabels content).filter (· ≠ "") = content.toList.map String.singleton := by
  have hlabel : (fun l => decide (l ≠ "")) ∘ label = fun x => decide (x ≠ .epsilon) := by
    funext x
    simp only [Function.comp, ne_eq, label_eq_empty_iff]
  rw [← map_label_spaced_ofText, List.filter_map, hlabel,
    filter_spaced (epsilon_not_mem_ofText content), ofText, List.map_map]
  rfl

end Symbol

namespace Automaton.Spells

theorem labels_listing (ha : a.Spells h (Symbol.ofText content)) :
    (h.graph.listing a.start).transitions.map (·.label) = Symbol.wordLabels content := by
  obtain ⟨rest, hline⟩ := ha.line
  rw [hline.labels_listing ha.tracked.distinctIds, Symbol.map_label_spaced_ofText]

theorem mem_letters_listing (ha : a.Spells h (Symbol.ofText content)) {x : String} :
    x ∈ (h.graph.listing a.start).letters ↔ x ∈ content.toList.map String.singleton := by
  rw [(h.graph.wellFormed_listing a.start).mem_letters, ← List.mem_map, ha.labels_listing,
    ← Symbol.filter_wordLabels, List.mem_filter, decide_eq_true_eq, and_comm]

/-- The letters that are listed are those of the word, each once, by their code points. -/
theorem exists_letters_listing (ha : a.Spells h (Symbol.ofText content)) :
    ∃ letters : List Char, letters.Pairwise (· < ·) ∧ (∀ c, c ∈ letters ↔ c ∈ content.toList) ∧
      (h.graph.listing a.start).letters = letters.map String.singleton := by
  have hrange : (h.graph.listing a.start).letters ∈ Set.range (List.map String.singleton) := by
    rw [Set.range_list_map]
    intro x hx
    obtain ⟨c, -, hc⟩ := List.mem_map.1 (ha.mem_letters_listing.1 hx)
    exact ⟨c, hc⟩
  obtain ⟨letters, hletters⟩ := hrange
  have hinj : Function.Injective String.singleton := fun _ _ => String.singleton_inj.1
  have hsorted := (h.graph.wellFormed_listing a.start).letters
  rw [← hletters, List.pairwise_map] at hsorted
  refine ⟨letters, hsorted.imp fun {c d} hlex => ?_, fun c => ?_, hletters.symm⟩
  · have hlt : c.toNat < d.toNat := by simpa [List.lex_singleton_iff] using hlex
    exact Char.lt_def.2 (UInt32.lt_iff_toNat_lt.2 hlt)
  · rw [← List.mem_map_of_injective hinj, hletters, ha.mem_letters_listing,
      List.mem_map_of_injective hinj]

theorem document_listing (ha : a.Spells h (Symbol.ofText content)) {letters : List Char}
    (hletters : (h.graph.listing a.start).letters = letters.map String.singleton) :
    (h.graph.listing a.start).document = .record [
      ("states", .list ((List.range' 1 (2 * content.length)).map fun k => .text (toString k))),
      ("letters", .list (letters.map fun c => .text (String.singleton c))),
      ("transition_function", .list (((Symbol.wordLabels content).zipIdx 1).map fun x =>
        .list [.text (toString x.2), .text x.1, .text (toString (x.2 + 1))])),
      ("start_states", .list [.text "1"]),
      ("final_states", .list [.text (toString (2 * content.length))])] := by
  obtain ⟨rest, hline⟩ := ha.line
  rw [hline.document_listing ha.tracked.distinctIds, hletters, Symbol.map_label_spaced_ofText,
    Symbol.length_spaced ha.nonempty, Symbol.length_ofText, List.map_map]
  rfl

end Automaton.Spells

end EpsilonNfa
