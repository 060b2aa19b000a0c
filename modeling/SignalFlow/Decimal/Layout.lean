import SignalFlow.Binary64
import SignalFlow.Decimal.Shortest

/-!
# The text of a double

The digits of a double are the fewest that read back (`SignalFlow.Decimal.Shortest`). A `Layout` says how they are
written: which exponents are positional, whether a whole number keeps its point, which way a tie between two nearest
decimals goes. `plain` is the layout of literals and results, `report` the layout of numbers in a report.
-/

namespace SignalFlow.Decimal

/-- **The decisions of a number format.** The exponent of a number is that of its leading digit. -/
structure Layout where
  tie : Tie
  /-- Exponents that are written positionally. -/
  positional : Int → Bool
  /-- Whether a whole number in positional form ends in `.0`. -/
  keepsPoint : Bool

/-- Literals and results: always positional, whole numbers without a point, the larger of two equally near decimals. -/
def plain : Layout where
  tie := .up
  positional := fun _ => true
  keepsPoint := false

/-- Numbers in reports: positional from `10^-5` up to below `10^16`, always recognisable as not an integer, ties to
even. -/
def report : Layout where
  tie := .toEven
  positional := fun e => decide (-5 ≤ e) && decide (e < 16)
  keepsPoint := true

/-- The digits of a decimal, without trailing zeros, and the exponent of the last digit kept. -/
def strip (ds : List Char) (k : Int) : List Char × Int :=
  let zeros := (ds.reverse.takeWhile (· == '0')).length
  (ds.take (ds.length - zeros), k + (zeros : Nat))

/-- `d.ddd · 10^e` with the digits `ds`: one digit before the point, no point after a single digit. -/
def scientific (ds : List Char) (e : Int) : List Char :=
  let mantissa := match ds with
    | [] => ['0']
    | [d] => [d]
    | d :: rest => d :: '.' :: rest
  mantissa ++ 'e' :: (if e < 0 then '-' else '+') :: (toString e.natAbs).toList

/-- The digits `ds`, of which the last one counts `10^k`, with the point in its place. -/
def positionalText (keepsPoint : Bool) (ds : List Char) (k : Int) : List Char :=
  if 0 ≤ k then
    ds ++ List.replicate k.toNat '0' ++ if keepsPoint then ['.', '0'] else []
  else
    let places := (-k).toNat
    if places < ds.length then
      ds.take (ds.length - places) ++ '.' :: ds.drop (ds.length - places)
    else
      '0' :: '.' :: List.replicate (places - ds.length) '0' ++ ds

/-- The text of a decimal in a layout. -/
def Layout.write (l : Layout) (d : Scaled) : List Char :=
  if d.digits == 0 then
    if l.keepsPoint then ['0', '.', '0'] else ['0']
  else
    let (ds, k) := strip (toString d.digits).toList d.exponent
    let e := k + (ds.length : Nat) - 1
    if l.positional e then positionalText l.keepsPoint ds k else scientific ds e

/-- The text of a finite double. -/
def Layout.finiteText (l : Layout) (negative : Bool) (m : Nat) (q : Int) : String :=
  let d : Scaled := if m == 0 then ⟨0, 0⟩ else
    shortest l.tie ⟨m, q, m == Nat.pow 2 52 && decide (Binary64.minExponent < q)⟩
  String.ofList ((if negative then ['-'] else []) ++ l.write d)

/-- **The text of a double** in a layout. -/
def Layout.text (l : Layout) (x : Float) : String :=
  match Binary64.decode x with
  | .nan => "NaN"
  | .infinite negative => if negative then "-inf" else "inf"
  | .finite negative m q => l.finiteText negative m q

end SignalFlow.Decimal
