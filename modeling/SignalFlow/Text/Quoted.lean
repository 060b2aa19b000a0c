import SignalFlow.Text.Concealed

/-!
# Quoted text in diagnostics

A character or a text in a diagnostic stands between quotes. The quote itself, the backslash and the common control
characters are written with a backslash; every other character that does not show is written by its number.
-/

namespace SignalFlow.Text

/-- A character inside quotes of the kind `quote`. -/
def escape (quote c : Char) : List Char :=
  if c == '\x00' then ['\\', '0']
  else if c == '\t' then ['\\', 't']
  else if c == '\r' then ['\\', 'r']
  else if c == '\n' then ['\\', 'n']
  else if c == '\\' || c == quote then ['\\', c]
  else if isConcealed c then '\\' :: 'u' :: '\x7b' :: Nat.toDigits 16 c.toNat ++ ['\x7d']
  else [c]

/-- A character in single quotes. -/
def quotedChar (c : Char) : String := String.ofList ('\'' :: escape '\'' c ++ ['\''])

/-- **A text in double quotes.** -/
def quoted (s : String) : String := String.ofList ('"' :: s.toList.flatMap (escape '"') ++ ['"'])

end SignalFlow.Text
