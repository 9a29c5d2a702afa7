/-!
# Lines of a text

A text is cut at every line break. A carriage return followed by a newline is one break, and the
break at the end of a text opens no further line.
-/

namespace EpsilonNfa.Text

/-- The characters that end a line: newline, vertical tab, form feed, carriage return, the three
information separators above the unit separator, next line, and the two Unicode separators. -/
def lineBreaks : List Char :=
  ['\n', '\x0b', '\x0c', '\r', '\x1c', '\x1d', '\x1e', '\u0085', '\u2028', '\u2029']

/-- Puts a character in front of the first line. -/
def consToFirst (c : Char) : List (List Char) → List (List Char)
  | [] => [[c]]
  | line :: lines => (c :: line) :: lines

/-- The lines of a text, without their breaks. -/
def splitLines : List Char → List (List Char)
  | [] => []
  | '\r' :: '\n' :: rest => [] :: splitLines rest
  | c :: rest => if c ∈ lineBreaks then [] :: splitLines rest else consToFirst c (splitLines rest)

/-- No line holds a break. -/
theorem not_mem_lineBreaks_of_mem_splitLines {text line : List Char} {c : Char}
    (hline : line ∈ splitLines text) (hc : c ∈ line) : c ∉ lineBreaks := by
  fun_induction splitLines text generalizing line with
  | case1 => simp at hline
  | case2 rest ih =>
    rcases List.mem_cons.1 hline with rfl | h
    · simp at hc
    · exact ih h hc
  | case3 c' rest _ hbreak ih =>
    rcases List.mem_cons.1 hline with rfl | h
    · simp at hc
    · exact ih h hc
  | case4 c' rest _ hbreak ih =>
    cases hlines : splitLines rest with
    | nil =>
      rw [hlines, consToFirst, List.mem_singleton] at hline
      rw [hline, List.mem_singleton] at hc
      exact hc ▸ hbreak
    | cons first lines =>
      rw [hlines] at hline ih
      rcases List.mem_cons.1 hline with rfl | h
      · rcases List.mem_cons.1 hc with rfl | hc
        · exact hbreak
        · exact ih List.mem_cons_self hc
      · exact ih (List.mem_cons_of_mem _ h) hc

/-- A text with no break in it is one line. -/
theorem splitLines_of_forall_not_mem {text : List Char} (hne : text ≠ [])
    (h : ∀ c ∈ text, c ∉ lineBreaks) : splitLines text = [text] := by
  induction text with
  | nil => exact absurd rfl hne
  | cons c rest ih =>
    have hc : c ∉ lineBreaks := h c List.mem_cons_self
    have hnotReturn : c ≠ '\r' := fun hr => hc (hr ▸ by decide)
    have step : splitLines (c :: rest) = consToFirst c (splitLines rest) := by
      rw [splitLines]
      · rw [if_neg hc]
      · intro _ hr _
        exact hnotReturn hr
    rw [step]
    cases rest with
    | nil => rfl
    | cons d rest =>
      rw [ih (by simp) fun x hx => h x (List.mem_cons_of_mem _ hx)]
      rfl

end EpsilonNfa.Text
