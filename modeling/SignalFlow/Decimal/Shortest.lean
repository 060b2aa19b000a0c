/-!
# The fewest digits that read back

A number `m · 2^q` stands for all reals that round to it: an interval that ends halfway to the two neighbours, the ends
included exactly when `m` is even. `shortest` searches the decimal grids from coarse to fine for a point of that
interval. On each grid it suffices to look at the two points around the number, for if any point of a grid lies in the
interval, so does one of these two. All arithmetic is exact.
-/

namespace SignalFlow.Decimal

/-- **The decimal number** `digits · 10^exponent`. -/
structure Scaled where
  digits : Nat
  exponent : Int
deriving DecidableEq, Repr

/-- Which of two equally near decimals is taken. -/
inductive Tie where
  /-- The larger one. -/
  | up
  /-- The one whose last digit is even. -/
  | toEven
deriving DecidableEq, Repr

/-- A binary number `mantissa · 2^exponent`. The gap to the number below is half the gap to the number above when
`narrowBelow`. -/
structure Binary where
  mantissa : Nat
  exponent : Int
  narrowBelow : Bool
deriving DecidableEq, Repr

/-- How `a · 2^p` compares with `b · 10^k`, by cross-multiplication. -/
def compareScaled (a : Nat) (p : Int) (b : Nat) (k : Int) : Ordering :=
  compare (a * Nat.pow 2 p.toNat * Nat.pow 10 (-k).toNat) (b * Nat.pow 10 k.toNat * Nat.pow 2 (-p).toNat)

/-- Whether `digits · 10^k` lies in the interval of reals that round to `x`. The ends are given in quarters of the unit
of the mantissa. -/
def readsBack (x : Binary) (digits : Nat) (k : Int) : Bool :=
  let lower := compareScaled (4 * x.mantissa - if x.narrowBelow then 1 else 2) (x.exponent - 2) digits k
  let upper := compareScaled (4 * x.mantissa + 2) (x.exponent - 2) digits k
  if x.mantissa % 2 == 0 then lower != .gt && upper != .lt else lower == .lt && upper == .gt

/-- The whole part of `m · 2^q / 10^k`. -/
def wholePart (m : Nat) (q k : Int) : Nat :=
  (m * Nat.pow 2 q.toNat * Nat.pow 10 (-k).toNat) / (Nat.pow 10 k.toNat * Nat.pow 2 (-q).toNat)

/-- The least `k` with `m · 2^q < 10^k`, found by steps up from `k`. -/
def scaleFrom (m : Nat) (q : Int) : Nat → Int → Int
  | 0, k => k
  | fuel + 1, k => if compareScaled m q 1 k == .lt then k else scaleFrom m q fuel (k + 1)

/-- The least `k` with `m · 2^q < 10^k`, for `m ≠ 0`: the binary logarithm gives a bound from below that is short by a
few steps at most. -/
def scale (m : Nat) (q : Int) : Int :=
  scaleFrom m q 8 ((q + m.log2) * 30103 / 100000 - 1)

/-- The point of the grid of step `10^k` for `x`, if one of the two points around `x` reads back. -/
def onGrid? (tie : Tie) (x : Binary) (k : Int) : Option Scaled :=
  let low := wholePart x.mantissa x.exponent k
  match readsBack x low k, readsBack x (low + 1) k with
  | true, false => some ⟨low, k⟩
  | false, true => some ⟨low + 1, k⟩
  | false, false => none
  | true, true =>
    match compareScaled (2 * x.mantissa) x.exponent (2 * low + 1) k with
    | .lt => some ⟨low, k⟩
    | .gt => some ⟨low + 1, k⟩
    | .eq =>
      match tie with
      | .up => some ⟨low + 1, k⟩
      | .toEven => if low % 2 == 0 then some ⟨low, k⟩ else some ⟨low + 1, k⟩

/-- The exact decimal value of `m · 2^q`. -/
def exact (m : Nat) (q : Int) : Scaled :=
  if 0 ≤ q then ⟨m * Nat.pow 2 q.toNat, 0⟩ else ⟨m * Nat.pow 5 (-q).toNat, q⟩

/-- **The decimal with the fewest digits that reads back as `x`**, of those the nearest to `x`. Seventeen digits suffice
for every double; a number that needs more keeps its exact value. -/
def shortest (tie : Tie) (x : Binary) : Scaled :=
  let k := scale x.mantissa x.exponent
  match (List.range 17).findSome? fun n => onGrid? tie x (k - (n + 1 : Nat)) with
  | some d => d
  | none => exact x.mantissa x.exponent

end SignalFlow.Decimal
