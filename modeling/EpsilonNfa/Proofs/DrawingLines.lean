import EpsilonNfa.Proofs.Drawing
import Mathlib.Tactic.Tauto

/-!
# The lines of a drawing, read back

The line of a state is made of words with blanks between them, so that what it shows can be told
from it whatever follows (`Automaton.stateLine_inj`). The line of an edge ends behind its label, and
a label is written as it is. It can hold the end of a line and the beginning of another one
(`Automaton.seam`); where no label does, the lines of edges can be told apart as well
(`Automaton.edgeText_inj`).
-/

namespace EpsilonNfa

/-! ## Texts up to a mark -/

section Marks

variable {α : Type} {c : α} {u u' v v' p : List α}

/-- A text that is free of the mark ends before the first mark. -/
theorem prefix_of_append_cons_eq (hp : c ∉ p) (h : u ++ c :: v = p ++ c :: v') : p <+: u := by
  obtain ⟨rest, hrest, htail⟩ | ⟨rest, hrest, -⟩ := List.append_eq_append_iff.1 h
  · cases rest with
    | nil =>
      have hpu : p = u := by rw [hrest, List.append_nil]
      exact hpu ▸ List.prefix_rfl
    | cons d rest =>
      rw [List.cons_append, List.cons.injEq] at htail
      refine absurd ?_ hp
      rw [hrest, htail.1]
      exact List.mem_append_right _ List.mem_cons_self
  · exact ⟨rest, hrest.symm⟩

/-- What stands before the first mark, and what stands behind it. -/
theorem append_cons_inj (hu : c ∉ u) (hu' : c ∉ u') (h : u ++ c :: v = u' ++ c :: v') :
    u = u' ∧ v = v' := by
  have hle := (prefix_of_append_cons_eq hu h.symm).length_le
  have heq : u' = u :=
    (prefix_of_append_cons_eq hu' h).eq_of_length_le hle
  subst heq
  exact ⟨rfl, (List.cons.inj (List.append_cancel_left h)).2⟩

end Marks

/-! ## Numbers -/

theorem isDigit_of_mem_toString {n : Nat} {c : Char} (h : c ∈ (toString n).toList) :
    c.isDigit = true := by
  rw [Nat.toString_eq_ofList_toDigits, String.toList_ofList] at h
  exact Nat.isDigit_of_mem_toDigits (by decide) (by decide) h

theorem not_mem_toString {n : Nat} {c : Char} (hc : c.isDigit = false) :
    c ∉ (toString n).toList := by
  intro h
  rw [isDigit_of_mem_toString h] at hc
  cases hc

theorem toString_nat_inj {m n : Nat} (h : (toString m).toList = (toString n).toList) : m = n :=
  Listing.numberDocument_injective (congrArg Text.Document.text (String.toList_inj.1 h))

/-- A sign comes before the digits of a number below zero. -/
theorem toList_toString_int (i : Int) :
    (toString i).toList =
      if 0 ≤ i then (toString i.toNat).toList else '-' :: (toString (-i).toNat).toList := by
  rw [Int.toString_eq_repr, Int.repr_eq_if]
  split
  · rfl
  · rw [String.toList_append]
    rfl

theorem blank_not_mem_toString_int (i : Int) : ' ' ∉ (toString i).toList := by
  rw [toList_toString_int]
  split
  · exact not_mem_toString rfl
  · exact List.not_mem_cons_of_ne_of_not_mem (by decide) (not_mem_toString rfl)

theorem toString_int_inj {i j : Int} (h : (toString i).toList = (toString j).toList) : i = j := by
  have hsign : ∀ {n : Nat} {l : List Char}, (toString n).toList ≠ '-' :: l := fun heq =>
    not_mem_toString (c := '-') rfl (heq ▸ List.mem_cons_self)
  rw [toList_toString_int, toList_toString_int] at h
  split at h <;> split at h
  · have hnat := toString_nat_inj h
    omega
  · exact absurd h hsign
  · exact absurd h.symm hsign
  · have hnat := toString_nat_inj (List.cons.inj h).2
    omega

namespace Automaton

variable {g g' : Graph} {a b : Automaton} {r r' : Ref} {k k' l l' : Nat} {u v : List Char}

/-! ## States -/

/-- The words of the line of a state, with the blanks between them. -/
theorem toList_stateLine (g : Graph) (a : Automaton) (k : Nat) (r : Ref) :
    (a.stateLine g k r).toList =
      "    ".toList ++ ((toString k).toList ++ ' ' :: ("[ label = \"".toList ++
        ((toString (g.state r).id).toList ++ ' ' ::
          (((Symbol.boolText (g.state r).isFinal).toList ++ ['"']) ++ ' ' :: ("shape = ".toList ++
            ((if ∃ q ∈ a.current, (g.state q).id = (g.state r).id then "box"
              else "ellipse").toList ++ ' ' :: "]\n".toList)))))) := by
  unfold stateLine
  simp [toString]

theorem boolText_inj {p q : Bool}
    (h : (Symbol.boolText p).toList ++ ['"'] = (Symbol.boolText q).toList ++ ['"']) : p = q := by
  revert p q
  decide

theorem shape_inj {p q : Prop} [Decidable p] [Decidable q]
    (h : (if p then "box" else "ellipse").toList = (if q then "box" else "ellipse").toList) :
    p ↔ q := by
  by_cases hp : p <;> by_cases hq : q <;> simp [hp, hq] at h ⊢

/-- The cursor is at the state, or at another one with its id. -/
def AtCursor (g : Graph) (a : Automaton) (r : Ref) : Prop :=
  ∃ q ∈ a.current, (g.state q).id = (g.state r).id

instance (g : Graph) (a : Automaton) (r : Ref) : Decidable (AtCursor g a r) :=
  inferInstanceAs (Decidable (∃ q ∈ a.current, (g.state q).id = (g.state r).id))

/-- Two states are drawn alike: with the same id and finality, and both at the cursor or both
not. -/
structure DrawnAlike (g : Graph) (a : Automaton) (r : Ref) (g' : Graph) (b : Automaton) (r' : Ref) :
    Prop where
  id_eq : (g'.state r').id = (g.state r).id
  isFinal_eq : (g'.state r').isFinal = (g.state r).isFinal
  atCursor_iff : b.AtCursor g' r' ↔ a.AtCursor g r

/-- The line of a state shows what is drawn of it, whatever follows. -/
theorem stateLine_inj
    (h : (a.stateLine g k r).toList ++ u = (b.stateLine g' k' r').toList ++ v) :
    DrawnAlike g a r g' b r' ∧ u = v := by
  have hbool : ∀ p, ' ' ∉ (Symbol.boolText p).toList ++ ['"'] := by decide
  have hshape : ∀ (p : Prop) [Decidable p], ' ' ∉ (if p then "box" else "ellipse").toList := by
    intro p _
    by_cases hp : p <;> simp [hp]
  rw [toList_stateLine, toList_stateLine] at h
  simp only [List.append_assoc _ _ u, List.append_assoc _ _ v, List.cons_append,
    List.append_cancel_left_eq] at h
  obtain ⟨-, h⟩ := append_cons_inj (not_mem_toString rfl) (not_mem_toString rfl) h
  rw [List.append_cancel_left_eq] at h
  obtain ⟨hid, h⟩ := append_cons_inj (blank_not_mem_toString_int _) (blank_not_mem_toString_int _) h
  obtain ⟨hfinal, h⟩ := append_cons_inj (hbool _) (hbool _) h
  rw [List.append_cancel_left_eq] at h
  obtain ⟨hbox, h⟩ := append_cons_inj (hshape _) (hshape _) h
  rw [List.append_cancel_left_eq] at h
  exact ⟨⟨(toString_int_inj hid).symm, (boolText_inj hfinal).symm, (shape_inj hbox).symm⟩, h⟩

/-! ## Edges -/

/-- The line of an edge up to the quote before its label. -/
def lineStart (source target : Nat) : List Char :=
  (s!"    {source} -> {target} [ label = ").toList

/-- The line of an edge behind its label. -/
def lineEnd : List Char :=
  ['"', ' ', ']', '\n']

/-- What stands between the labels of two edges that are drawn on one line after the other, but for
the last quote. -/
def seam (source target : Nat) : List Char :=
  lineEnd ++ lineStart source target

/-- Within the label no line ends and no line of another edge begins. -/
def KeepsLine (label : String) : Prop :=
  ∀ source target, ¬ seam source target <:+: label.toList

/-- The lines of edges with what closes the drawing. -/
def edgeText (l : List Listing.Transition) : List Char :=
  l.flatMap (fun t => (edgeLine t).toList) ++ ['\x7d']

theorem toList_edgeLine (t : Listing.Transition) :
    (edgeLine t).toList =
      lineStart (t.source - 1) (t.target - 1) ++ '"' :: (t.label.toList ++ lineEnd) := by
  simp [edgeLine, lineStart, lineEnd, toString]

theorem edgeText_cons (t : Listing.Transition) (l : List Listing.Transition) :
    edgeText (t :: l) = lineStart (t.source - 1) (t.target - 1) ++
      '"' :: (t.label.toList ++ (lineEnd ++ edgeText l)) := by
  simp [edgeText, toList_edgeLine]

/-- The words of the beginning of a line, with the blanks between them. -/
theorem lineStart_eq (source target : Nat) :
    lineStart source target = "    ".toList ++ ((toString source).toList ++ ' ' ::
      ("-> ".toList ++ ((toString target).toList ++ ' ' :: "[ label = ".toList))) := by
  simp [lineStart, toString]

theorem quote_not_mem_lineStart (source target : Nat) : '"' ∉ lineStart source target := by
  rw [lineStart_eq]
  simp only [List.mem_append, List.mem_cons, not_or]
  exact ⟨by decide, not_mem_toString rfl, by decide, by decide, not_mem_toString rfl, by decide,
    by decide⟩

/-- A short label keeps its line, whatever its characters are. -/
theorem keepsLine_of_length_lt {label : String} (h : label.length < 23) : KeepsLine label := by
  intro source target hinfix
  have hle := hinfix.length_le
  rw [seam, lineStart_eq, String.length_toList] at hle
  simp [lineEnd] at hle
  omega

theorem lineStart_inj (h : lineStart k l ++ u = lineStart k' l' ++ v) :
    k = k' ∧ l = l' ∧ u = v := by
  rw [lineStart_eq, lineStart_eq] at h
  simp only [List.append_assoc _ _ u, List.append_assoc _ _ v, List.cons_append,
    List.append_cancel_left_eq] at h
  obtain ⟨hsource, h⟩ := append_cons_inj (not_mem_toString rfl) (not_mem_toString rfl) h
  rw [List.append_cancel_left_eq] at h
  obtain ⟨htarget, h⟩ := append_cons_inj (not_mem_toString rfl) (not_mem_toString rfl) h
  rw [List.append_cancel_left_eq] at h
  exact ⟨toString_nat_inj hsource, toString_nat_inj htarget, h⟩

/-- A text that begins where a label ends is a line of an edge, or closes the drawing. Where it goes
on with the rest of a longer label, this label has the end of a line in it, and the beginning of the
next one up to its quote. -/
theorem eq_nil_or_seam_prefix {edges : List Listing.Transition}
    (h : lineEnd ++ edgeText edges = u ++ (lineEnd ++ v)) :
    u = [] ∨ ∃ source target, seam source target <+: u := by
  -- the end of a line has no proper beginning that is also an end of it
  have hend : u = [] ∨ ∃ rest, u = lineEnd ++ rest := by
    match u with
    | [] => exact Or.inl rfl
    | [_] | [_, _] | [_, _, _] => simp [lineEnd] at h
    | _ :: _ :: _ :: _ :: rest =>
      simp only [lineEnd, List.cons_append, List.nil_append, List.cons.injEq] at h
      exact Or.inr ⟨rest, by rw [← h.1, ← h.2.1, ← h.2.2.1, ← h.2.2.2.1]; rfl⟩
  refine hend.imp_right fun hrest => ?_
  obtain ⟨rest, rfl⟩ := hrest
  rw [List.append_assoc, List.append_cancel_left_eq] at h
  cases edges with
  | nil =>
    rcases rest with _ | ⟨_, _ | ⟨_, _⟩⟩ <;> simp [edgeText, lineEnd] at h
  | cons t edges =>
    rw [edgeText_cons] at h
    have hprefix := prefix_of_append_cons_eq (quote_not_mem_lineStart _ _) h.symm
    exact ⟨_, _, (List.prefix_append_right_inj lineEnd).2 hprefix⟩

/-- A label that keeps its line is the same as any other one that does, or does not go on beyond
it. -/
theorem label_inj {x y : List Char} {edges edges' : List Listing.Transition}
    (hx : ∀ source target, ¬ seam source target <:+: x)
    (hy : ∀ source target, ¬ seam source target <:+: y)
    (h : x ++ (lineEnd ++ edgeText edges) = y ++ (lineEnd ++ edgeText edges')) :
    x = y ∧ edgeText edges = edgeText edges' := by
  have hlonger : ∀ {x y : List Char} {edges edges' : List Listing.Transition} {rest : List Char},
      (∀ source target, ¬ seam source target <:+: y) → y = x ++ rest →
      lineEnd ++ edgeText edges = rest ++ (lineEnd ++ edgeText edges') →
      x = y ∧ edgeText edges = edgeText edges' := by
    intro x y edges edges' rest hy hrest htail
    obtain rfl | ⟨source, target, hseam⟩ := eq_nil_or_seam_prefix htail
    · rw [List.append_nil] at hrest
      rw [List.nil_append, List.append_cancel_left_eq] at htail
      exact ⟨hrest.symm, htail⟩
    · refine absurd ?_ (hy source target)
      exact hrest ▸ hseam.isInfix.trans (List.suffix_append x rest).isInfix
  obtain ⟨rest, hrest, htail⟩ | ⟨rest, hrest, htail⟩ := List.append_eq_append_iff.1 h
  · exact hlonger hy hrest htail
  · obtain ⟨hlabel, htext⟩ := hlonger hx hrest htail
    exact ⟨hlabel.symm, htext.symm⟩

/-- The lines of edges show the edges, where all labels keep their lines. -/
theorem edgeText_inj {edges edges' : List Listing.Transition}
    (hkeeps : ∀ t ∈ edges, KeepsLine t.label) (hkeeps' : ∀ t ∈ edges', KeepsLine t.label)
    (hpos : ∀ t ∈ edges ++ edges', 1 ≤ t.source ∧ 1 ≤ t.target)
    (h : edgeText edges = edgeText edges') : edges = edges' := by
  induction edges generalizing edges' with
  | nil =>
    cases edges' with
    | nil => rfl
    | cons t edges' =>
      rw [edgeText_cons, lineStart_eq] at h
      simp [edgeText] at h
  | cons t edges ih =>
    cases edges' with
    | nil =>
      rw [edgeText_cons, lineStart_eq] at h
      simp [edgeText] at h
    | cons t' edges' =>
      rw [edgeText_cons, edgeText_cons] at h
      obtain ⟨hsource, htarget, h⟩ := lineStart_inj h
      obtain ⟨hlabel, h⟩ := label_inj (hkeeps t List.mem_cons_self) (hkeeps' t' List.mem_cons_self)
        (List.cons.inj h).2
      have ht := hpos t (by simp)
      have ht' := hpos t' (by simp)
      have hedge : t = t' := by
        obtain ⟨source, label, target⟩ := t
        obtain ⟨source', label', target'⟩ := t'
        simp only [Listing.Transition.mk.injEq] at hsource htarget ht ht' ⊢
        exact ⟨by omega, String.toList_inj.1 hlabel, by omega⟩
      rw [hedge, ih (fun u hu => hkeeps u (List.mem_cons_of_mem _ hu))
        (fun u hu => hkeeps' u (List.mem_cons_of_mem _ hu)) (fun u hu => hpos u ?_) h]
      simp only [List.cons_append, List.mem_cons, List.mem_append] at hu ⊢
      tauto

/-! ## All lines -/

/-- The line of a state is not that of an edge. -/
theorem stateLine_ne_edgeText (edges : List Listing.Transition) :
    (a.stateLine g k r).toList ++ u ≠ edgeText edges := by
  intro h
  rw [toList_stateLine] at h
  cases edges with
  | nil => simp [edgeText] at h
  | cons t edges =>
    rw [edgeText_cons, lineStart_eq] at h
    simp only [List.append_assoc _ _ u, List.append_assoc "    ".toList,
      List.append_assoc (toString _).toList, List.cons_append, List.append_cancel_left_eq] at h
    obtain ⟨-, h⟩ := append_cons_inj (not_mem_toString rfl) (not_mem_toString rfl) h
    simp at h

/-- What lines of states and of edges show of the states, and the text of the edges. -/
theorem stateLines_inj {states states' : List Ref} {edges edges' : List Listing.Transition}
    {place place' : Ref → Nat}
    (h : states.flatMap (fun r => (a.stateLine g (place r) r).toList) ++ edgeText edges =
      states'.flatMap (fun r => (b.stateLine g' (place' r) r).toList) ++ edgeText edges') :
    List.Forall₂ (fun r r' => DrawnAlike g a r g' b r') states states' ∧
      edgeText edges = edgeText edges' := by
  induction states generalizing states' with
  | nil =>
    cases states' with
    | nil => exact ⟨.nil, h⟩
    | cons r' states' =>
      rw [List.flatMap_cons, List.append_assoc] at h
      exact absurd h.symm (stateLine_ne_edgeText edges)
  | cons r states ih =>
    cases states' with
    | nil =>
      rw [List.flatMap_cons, List.append_assoc] at h
      exact absurd h (stateLine_ne_edgeText edges')
    | cons r' states' =>
      rw [List.flatMap_cons, List.flatMap_cons, List.append_assoc, List.append_assoc] at h
      obtain ⟨hstate, h⟩ := stateLine_inj h
      obtain ⟨hstates, hedges⟩ := ih h
      exact ⟨.cons hstate hstates, hedges⟩

end Automaton

end EpsilonNfa
