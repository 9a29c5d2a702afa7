import EpsilonNfa.Symbol.Basic
import EpsilonNfa.Text.Quoted

/-!
# Symbols as text

A symbol is shown in two ways. Its *literal* can be told apart from the literal of any other kind
of value: texts and bytes are quoted. Its *label* is the literal, except that a text stands for
itself; exports write the labels of edges.
-/

namespace EpsilonNfa.Symbol

def boolText (b : Bool) : String :=
  if b then "True" else "False"

mutual

/-- The text of a symbol in which quoted parts are told apart from all else. -/
def literal : Symbol → String
  | .text s => Text.quote s
  | .int n => toString n
  | .bool b => boolText b
  | .null => "None"
  | .tuple [x] => "(" ++ literal x ++ ",)"
  | .tuple xs => "(" ++ ", ".intercalate (literals xs) ++ ")"
  | .bytes s => Text.quoteBytes s
  | .list xs => "[" ++ ", ".intercalate (literals xs) ++ "]"

def literals : List Symbol → List String
  | [] => []
  | x :: xs => literal x :: literals xs

end

/-- The text of a symbol on an edge: a text is its own label, any other symbol has its literal. -/
def label : Symbol → String
  | .text s => s
  | x => x.literal

end EpsilonNfa.Symbol
