/-!
# Numbering by first mention

Exports write small numbers for ids. An id gets the next number when it is first mentioned and
keeps it from then on.
-/

namespace EpsilonNfa

/-- The ids that have a number. -/
structure Numbering where
  first : Nat
  /-- The ids in the order of their numbers. -/
  ids : List Int := []
deriving DecidableEq, Repr

namespace Numbering

/-- The number of an id, which is mentioned now. -/
def mention (n : Numbering) (id : Int) : Nat × Numbering :=
  match n.ids.idxOf? id with
  | some position => (n.first + position, n)
  | none => (n.first + n.ids.length, { n with ids := n.ids ++ [id] })

/-- The number of an id, in a computation that hands numbers out as it goes. -/
def number (id : Int) : StateM Numbering Nat :=
  modifyGet (·.mention id)

end Numbering

end EpsilonNfa
