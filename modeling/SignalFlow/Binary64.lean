/-!
# Doubles as exact numbers

A finite double is `m · 2^q` with a sign. `decode` reads the three parts off the bits, `encode` puts them back, and
`remainder` computes with them the exact remainder of a division, which takes the sign of the dividend.
-/

namespace SignalFlow.Binary64

/-- **A double, taken apart.** A finite one is `± mantissa · 2^exponent`. -/
inductive Decoded where
  | nan
  | infinite (negative : Bool)
  | finite (negative : Bool) (mantissa : Nat) (exponent : Int)
deriving DecidableEq, Repr

/-- The exponent of the smallest doubles: every double is a multiple of `2^minExponent`. -/
def minExponent : Int := -1074

/-- The parts of a double. -/
def decode (x : Float) : Decoded :=
  let bits := x.toBits.toNat
  let negative := bits / Nat.pow 2 63 == 1
  let biased := bits / Nat.pow 2 52 % Nat.pow 2 11
  let fraction := bits % Nat.pow 2 52
  if biased == 2047 then
    if fraction == 0 then .infinite negative else .nan
  else if biased == 0 then
    .finite negative fraction minExponent
  else
    .finite negative (Nat.pow 2 52 + fraction) (minExponent + (biased - 1 : Nat))

/-- The bits of `m · 2^q`, for `m < 2^53` and `minExponent ≤ q`: the mantissa is shifted up as far as the exponent
allows, so that its leading bit is the implicit one. -/
def magnitudeBits (m : Nat) (q : Int) : Nat :=
  let room := (q - minExponent).toNat
  let shift := min room (52 - m.log2)
  let m := m * Nat.pow 2 shift
  if m < Nat.pow 2 52 then m else (room - shift) * Nat.pow 2 52 + m

/-- The double `± m · 2^q`, for `m < 2^53` and `minExponent ≤ q`. -/
def encode (negative : Bool) (m : Nat) (q : Int) : Float :=
  let magnitude := if m == 0 then 0 else magnitudeBits m q
  Float.ofBits (UInt64.ofNat (magnitude + if negative then Nat.pow 2 63 else 0))

/-- The remainder of `a · 2^p` by `b · 2^q`, in units of `2^(min p q)`. -/
def remainderUnits (a : Nat) (p : Int) (b : Nat) (q : Int) : Nat :=
  let unit := min p q
  (a * Nat.pow 2 (p - unit).toNat) % (b * Nat.pow 2 (q - unit).toNat)

/-- **The remainder of a division**, exact and with the sign of the dividend. There is none of an infinite dividend, nor
by zero; an infinite divisor leaves the dividend as it is. -/
def remainder (x y : Float) : Float :=
  match decode x, decode y with
  | .finite negative a p, .finite _ b q =>
    if b == 0 then 0.0 / 0.0 else encode negative (remainderUnits a p b q) (min p q)
  | .finite _ _ _, .infinite _ => x
  | _, _ => 0.0 / 0.0

end SignalFlow.Binary64
