/-!
# Hexadecimal digits

Numbers in base sixteen at a fixed width, with the digits `a` to `f` in lower case.
-/

namespace EpsilonNfa.Text

/-- The last `width` digits of `n` in base sixteen, padded with zeros on the left. -/
def hexDigits : (width n : Nat) → List Char
  | 0, _ => []
  | width + 1, n => hexDigits width (n / 16) ++ [Nat.digitChar (n % 16)]

@[simp] theorem length_hexDigits (width n : Nat) : (hexDigits width n).length = width := by
  induction width generalizing n with
  | zero => rfl
  | succ width ih => simp [hexDigits, ih]

example : hexDigits 4 0xe9 = ['0', '0', 'e', '9'] := by decide

end EpsilonNfa.Text
