import EpsilonNfa.Text.Hex
import EpsilonNfa.Text.Printable

/-!
# Quoted literals

A text or a string of bytes written between quotes, so that no character of it can be taken for
the end of the literal and every character that has no glyph is shown by its number.

The apostrophe is the quote, unless the content holds an apostrophe and no double quote. Within
the literal the quote and the backslash follow a backslash, and newline, carriage return and tab
have their letter escapes.
-/

namespace EpsilonNfa.Text

/-- The quote around a literal: the one that spares escapes, and the apostrophe if both occur. -/
def quoteFor (content : List Char) : Char :=
  if '\'' ∈ content ∧ '"' ∉ content then '"' else '\''

/-- The escapes that texts and bytes have in common: the quote, the backslash and the three
characters with a letter of their own. -/
def sharedEscape? (quote c : Char) : Option (List Char) :=
  if c = quote ∨ c = '\\' then some ['\\', c]
  else if c = '\n' then some ['\\', 'n']
  else if c = '\r' then some ['\\', 'r']
  else if c = '\t' then some ['\\', 't']
  else none

/-- A character by its code point, at the shortest of the widths two, four and eight. -/
def escapeByCodePoint (c : Char) : List Char :=
  if c.toNat < 0x100 then '\\' :: 'x' :: hexDigits 2 c.toNat
  else if c.toNat < 0x10000 then '\\' :: 'u' :: hexDigits 4 c.toNat
  else '\\' :: 'U' :: hexDigits 8 c.toNat

/-- A character of a text as it stands between the quotes. -/
def quoteChar (quote c : Char) : List Char :=
  (sharedEscape? quote c).getD (if isPrintable c then [c] else escapeByCodePoint c)

/-- A text as a literal. -/
def quote (content : String) : String :=
  let quote := quoteFor content.toList
  String.ofList (quote :: content.toList.flatMap (quoteChar quote) ++ [quote])

/-- A byte as it stands between the quotes: itself from the space to the tilde, and otherwise by
its two hexadecimal digits. -/
def quoteByte (quote : Char) (byte : UInt8) : List Char :=
  let c := Char.ofNat byte.toNat
  (sharedEscape? quote c).getD
    (if 0x20 ≤ byte.toNat ∧ byte.toNat < 0x7f then [c] else '\\' :: 'x' :: hexDigits 2 byte.toNat)

/-- A string of bytes as a literal: the letter `b`, and the bytes between quotes. -/
def quoteBytes (content : List UInt8) : String :=
  let quote := quoteFor (content.map fun byte => Char.ofNat byte.toNat)
  String.ofList ('b' :: quote :: content.flatMap (quoteByte quote) ++ [quote])

end EpsilonNfa.Text
