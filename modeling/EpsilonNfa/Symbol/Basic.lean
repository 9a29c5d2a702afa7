/-!
# Symbols

The values that label the edges of an automaton, and when two of them count as one.

## Main definitions

* `Symbol`: a text, an integer, a truth value, the null value, a tuple, a string of bytes or a
  list.
* `Symbol.epsilon`: the empty text, the label of an edge that is followed without reading.
* `Symbol.Same`: the truth values count as the integers one and zero, also inside tuples.
* `Symbol.isHashable`: lists can be compared, but nothing that holds one can key a table.
-/

namespace EpsilonNfa

/-- A value that can be read as one letter of a word. -/
inductive Symbol where
  /-- A text of any length. -/
  | text (content : String)
  /-- An integer of any size. -/
  | int (value : Int)
  | bool (value : Bool)
  | null
  | tuple (items : List Symbol)
  | bytes (content : List UInt8)
  /-- A growable sequence, which cannot key a table. -/
  | list (items : List Symbol)
deriving Repr, Inhabited

namespace Symbol

/-- The label of an edge that reads nothing. -/
def epsilon : Symbol :=
  .text ""

/-- The letter of one character. -/
def ofChar (c : Char) : Symbol :=
  .text (String.singleton c)

/-- The letters of a text, one for each character. -/
def ofText (content : String) : List Symbol :=
  content.toList.map ofChar

/-! ### Decidable equality -/

mutual

/-- Whether two symbols are written alike. -/
def beq : Symbol → Symbol → Bool
  | .text s, .text t => decide (s = t)
  | .int m, .int n => decide (m = n)
  | .bool p, .bool q => decide (p = q)
  | .null, .null => true
  | .tuple xs, .tuple ys => beqAll xs ys
  | .bytes s, .bytes t => decide (s = t)
  | .list xs, .list ys => beqAll xs ys
  | _, _ => false

/-- Whether two lists of symbols are written alike. -/
def beqAll : List Symbol → List Symbol → Bool
  | [], [] => true
  | x :: xs, y :: ys => beq x y && beqAll xs ys
  | _, _ => false

end

mutual

theorem beq_self : ∀ x : Symbol, beq x x = true
  | .text _ => by simp [beq]
  | .int _ => by simp [beq]
  | .bool _ => by simp [beq]
  | .null => by simp [beq]
  | .tuple xs => by simpa [beq] using beqAll_self xs
  | .bytes _ => by simp [beq]
  | .list xs => by simpa [beq] using beqAll_self xs

theorem beqAll_self : ∀ xs : List Symbol, beqAll xs xs = true
  | [] => by simp [beqAll]
  | x :: xs => by simp [beqAll, beq_self x, beqAll_self xs]

end

mutual

theorem eq_of_beq : ∀ {x y : Symbol}, beq x y = true → x = y
  | .text _, y, h => by cases y <;> simp_all [beq]
  | .int _, y, h => by cases y <;> simp_all [beq]
  | .bool _, y, h => by cases y <;> simp_all [beq]
  | .null, y, h => by cases y <;> simp_all [beq]
  | .tuple xs, .tuple ys, h => by
    have := eq_of_beqAll (show beqAll xs ys = true by simpa [beq] using h)
    rw [this]
  | .tuple _, .text _, h | .tuple _, .int _, h | .tuple _, .bool _, h | .tuple _, .null, h
  | .tuple _, .bytes _, h | .tuple _, .list _, h => by simp [beq] at h
  | .bytes _, y, h => by cases y <;> simp_all [beq]
  | .list xs, .list ys, h => by
    have := eq_of_beqAll (show beqAll xs ys = true by simpa [beq] using h)
    rw [this]
  | .list _, .text _, h | .list _, .int _, h | .list _, .bool _, h | .list _, .null, h
  | .list _, .bytes _, h | .list _, .tuple _, h => by simp [beq] at h

theorem eq_of_beqAll : ∀ {xs ys : List Symbol}, beqAll xs ys = true → xs = ys
  | [], [], _ => rfl
  | x :: xs, y :: ys, h => by
    simp only [beqAll, Bool.and_eq_true] at h
    rw [eq_of_beq h.1, eq_of_beqAll h.2]
  | [], _ :: _, h | _ :: _, [], h => by simp [beqAll] at h

end

instance : DecidableEq Symbol := fun x y =>
  decidable_of_iff (beq x y = true) ⟨eq_of_beq, fun h => h ▸ beq_self x⟩

/-! ### Symbols that count as one -/

mutual

/-- The symbol with every truth value replaced by the integer that it counts as. -/
def canonical : Symbol → Symbol
  | .text s => .text s
  | .int n => .int n
  | .bool b => .int (if b then 1 else 0)
  | .null => .null
  | .tuple xs => .tuple (canonicalAll xs)
  | .bytes s => .bytes s
  | .list xs => .list (canonicalAll xs)

/-- The symbols of a list, each in canonical form. -/
def canonicalAll : List Symbol → List Symbol
  | [] => []
  | x :: xs => canonical x :: canonicalAll xs

end

/-- Two symbols are the same letter when they agree in canonical form. -/
def Same (x y : Symbol) : Prop :=
  x.canonical = y.canonical

instance (x y : Symbol) : Decidable (Same x y) :=
  inferInstanceAs (Decidable (x.canonical = y.canonical))

namespace Same

theorem refl (x : Symbol) : Same x x := rfl

theorem symm {x y : Symbol} (h : Same x y) : Same y x := Eq.symm h

theorem trans {x y z : Symbol} (hxy : Same x y) (hyz : Same y z) : Same x z := Eq.trans hxy hyz

end Same

/-- The empty text is the only symbol that counts as epsilon. -/
theorem same_epsilon_iff {x : Symbol} : Same x epsilon ↔ x = epsilon := by
  constructor
  · intro h
    cases x <;> simp_all [Same, epsilon, canonical]
  · rintro rfl
    exact Same.refl _

/-! ### Symbols that can key a table -/

mutual

/-- Whether no list occurs in the symbol, at any depth. -/
def isHashable : Symbol → Bool
  | .tuple xs => allHashable xs
  | .list _ => false
  | _ => true

/-- Whether no list occurs in any of the symbols. -/
def allHashable : List Symbol → Bool
  | [] => true
  | x :: xs => isHashable x && allHashable xs

end

mutual

/-- Same symbols are alike in whether they can key a table. -/
theorem isHashable_canonical : ∀ x : Symbol, x.canonical.isHashable = x.isHashable
  | .text _ | .int _ | .bool _ | .null | .bytes _ => by simp [canonical, isHashable]
  | .tuple xs => by simpa [canonical, isHashable] using allHashable_canonicalAll xs
  | .list _ => by simp [canonical, isHashable]

theorem allHashable_canonicalAll : ∀ xs : List Symbol,
    allHashable (canonicalAll xs) = allHashable xs
  | [] => by simp [canonicalAll]
  | x :: xs => by
    simp [canonicalAll, allHashable, isHashable_canonical x, allHashable_canonicalAll xs]

end

theorem Same.isHashable_eq {x y : Symbol} (h : Same x y) : x.isHashable = y.isHashable := by
  rw [← isHashable_canonical x, h, isHashable_canonical y]

example : Same (.tuple [.bool true, .text "a"]) (.tuple [.int 1, .text "a"]) := by decide

example : ¬ Same (.text "1") (.int 1) := by decide

end Symbol

end EpsilonNfa
