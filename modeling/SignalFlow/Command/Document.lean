import SignalFlow.Decimal.Layout

/-!
# Reports

A report is a document of records, lists, texts and numbers. It is written with one item or field on a line, indented by
two spaces for every level; an empty list or record is written on one line.
-/

namespace SignalFlow.Command

/-- **A document.** -/
inductive Document where
  | real (x : Float)
  | text (s : String)
  | list (items : List Document)
  | record (fields : List (String × Document))

namespace Document

/-- A character inside a text: the quote, the backslash and the control characters are escaped. -/
def escape (c : Char) : List Char :=
  match c with
  | '"' => ['\\', '"']
  | '\\' => ['\\', '\\']
  | '\x08' => ['\\', 'b']
  | '\x0c' => ['\\', 'f']
  | '\n' => ['\\', 'n']
  | '\r' => ['\\', 'r']
  | '\t' => ['\\', 't']
  | c =>
    if c.toNat < 0x20 then ['\\', 'u', '0', '0', Nat.digitChar (c.toNat / 16), Nat.digitChar (c.toNat % 16)] else [c]

/-- A text between quotes. -/
def quoted (s : String) : String := String.ofList ('"' :: s.toList.flatMap escape ++ ['"'])

/-- A number; one that is not finite is written `null`. -/
def numeral (x : Float) : String := if x.isFinite then Decimal.report.text x else "null"

/-- The beginning of a line. -/
def newline (depth : Nat) : String := "\n" ++ String.ofList (List.replicate (2 * depth) ' ')

/-- Lines between brackets; no lines at all are written as the brackets alone. -/
def enclose (opening closing : String) (depth : Nat) (lines : List String) : String :=
  if lines.isEmpty then opening ++ closing
  else opening ++ ",".intercalate (lines.map (newline (depth + 1) ++ ·)) ++ newline depth ++ closing

mutual

/-- The text of a document at some depth of indentation. -/
def render (depth : Nat) : Document → String
  | .real x => numeral x
  | .text s => quoted s
  | .list items => enclose "[" "]" depth (renderItems (depth + 1) items)
  | .record fields => enclose "\x7b" "\x7d" depth (renderFields (depth + 1) fields)

/-- The texts of the items of a list. -/
def renderItems (depth : Nat) : List Document → List String
  | [] => []
  | d :: rest => render depth d :: renderItems depth rest

/-- The texts of the fields of a record. -/
def renderFields (depth : Nat) : List (String × Document) → List String
  | [] => []
  | (name, d) :: rest => (quoted name ++ ": " ++ render depth d) :: renderFields depth rest

end

/-- **The text of a document.** -/
def pretty (d : Document) : String := d.render 0

end Document

end SignalFlow.Command
