import SignalFlow.Double

/-!
# Reading doubles from text

The text of a double is a numeral with an optional sign, or one of the words for infinity and for no number, in letters
of either case. Nothing may stand around it.
-/

namespace SignalFlow.Decimal

/-- The float of a text without its sign. -/
def unsigned? (cs : List Char) : Option Float :=
  let word := cs.map Char.toLower
  if word = "inf".toList || word = "infinity".toList then some (1.0 / 0.0)
  else if word = "nan".toList then some (0.0 / 0.0)
  else
    match Numeral.scan cs with
    | (n, []) => if n.hasDigit then some (toFloat n.digits n.scale) else none
    | _ => none

/-- **The double of a text.** A NaN has the sign that is written. -/
def ofText? (s : String) : Option Double :=
  match splitSign s.toList with
  | (true, cs) => (unsigned? cs).map fun x => (Double.ofFloat x false).neg
  | (false, cs) => (unsigned? cs).map fun x => .ofFloat x false

end SignalFlow.Decimal
