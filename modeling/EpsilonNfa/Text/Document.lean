import EpsilonNfa.Text.Hex

/-!
# Indented documents

A document is a text, a list of documents or a record of named documents, written in the notation
of JSON with every element on a line of its own and in plain ASCII.
-/

namespace EpsilonNfa.Text

/-- A tree of texts, lists and records. -/
inductive Document where
  | text (content : String)
  | list (items : List Document)
  /-- The named fields in their order. -/
  | record (fields : List (String × Document))

namespace Document

/-- A sixteen-bit code unit by its number. -/
def escapeUnit (unit : Nat) : List Char :=
  '\\' :: 'u' :: hexDigits 4 unit

/-- A character inside the quotes of a document. Seven characters have an escape of their own; the
other control characters and everything beyond ASCII are written as code units, one in the basic
plane and a surrogate pair above it. -/
def escapeChar (c : Char) : List Char :=
  match c with
  | '"' => ['\\', '"']
  | '\\' => ['\\', '\\']
  | '\n' => ['\\', 'n']
  | '\r' => ['\\', 'r']
  | '\t' => ['\\', 't']
  | '\x08' => ['\\', 'b']
  | '\x0c' => ['\\', 'f']
  | c =>
    if 0x20 ≤ c.toNat ∧ c.toNat < 0x7f then [c]
    else if c.toNat < 0x10000 then escapeUnit c.toNat
    else
      let offset := c.toNat - 0x10000
      escapeUnit (0xd800 + offset / 0x400) ++ escapeUnit (0xdc00 + offset % 0x400)

/-- A text between double quotes. -/
def quoted (content : String) : List Char :=
  '"' :: content.toList.flatMap escapeChar ++ ['"']

/-- A new line with the indentation of the given depth, four spaces a level. -/
def newline (depth : Nat) : List Char :=
  '\n' :: List.replicate (4 * depth) ' '

mutual

/-- The text of a document that stands at the given depth. -/
def renderAt (depth : Nat) : Document → List Char
  | .text content => quoted content
  | .list [] => ['[', ']']
  | .list (item :: items) =>
    '[' :: newline (depth + 1) ++ renderAt (depth + 1) item ++ renderItems (depth + 1) items
      ++ newline depth ++ [']']
  | .record [] => ['\x7b', '\x7d']
  | .record ((name, value) :: fields) =>
    '\x7b' :: newline (depth + 1) ++ quoted name ++ [':', ' '] ++ renderAt (depth + 1) value
      ++ renderFields (depth + 1) fields ++ newline depth ++ ['\x7d']

/-- The further elements of a list, each after a comma. -/
def renderItems (depth : Nat) : List Document → List Char
  | [] => []
  | item :: items => ',' :: newline depth ++ renderAt depth item ++ renderItems depth items

/-- The further fields of a record, each after a comma. -/
def renderFields (depth : Nat) : List (String × Document) → List Char
  | [] => []
  | (name, value) :: fields =>
    ',' :: newline depth ++ quoted name ++ [':', ' '] ++ renderAt depth value
      ++ renderFields depth fields

end

def render (d : Document) : String :=
  String.ofList (d.renderAt 0)

end Document

end EpsilonNfa.Text
