/-!
# Reading decimal numbers

A numeral is a run of digits with an optional point and an optional exponent. Its value is `digits · 10^exponent`, and a
double is read from it by rounding to nearest (`toFloat`).
-/

namespace SignalFlow.Decimal

/-- The value of one decimal digit. -/
def digitValue (c : Char) : Nat := c.toNat - '0'.toNat

/-- The number written by a run of digits. -/
def natOfDigits (ds : List Char) : Nat := ds.foldl (fun n c => 10 * n + digitValue c) 0

/-- **An unsigned numeral**: digits before the point, digits after it, and the exponent. -/
structure Numeral where
  whole : List Char
  fraction : List Char
  exponent : Int
deriving DecidableEq, Repr

/-- A numeral has a value when there is a digit before the exponent. -/
def Numeral.hasDigit (n : Numeral) : Bool := !(n.whole.isEmpty && n.fraction.isEmpty)

/-- The digits of a numeral as one number. -/
def Numeral.digits (n : Numeral) : Nat := natOfDigits (n.whole ++ n.fraction)

/-- The power of ten that the last digit counts. -/
def Numeral.scale (n : Numeral) : Int := n.exponent - (n.fraction.length : Nat)

/-- A leading sign, and the text after it: `true` for a minus. -/
def splitSign : List Char → Bool × List Char
  | '-' :: rest => (true, rest)
  | '+' :: rest => (false, rest)
  | rest => (false, rest)

/-- The digits after a leading point, and the rest of the text. -/
def splitFraction : List Char → List Char × List Char
  | '.' :: rest => (rest.takeWhile Char.isDigit, rest.dropWhile Char.isDigit)
  | rest => ([], rest)

/-- An exponent, if `e` or `E` is followed by a digit, optionally signed: its value, and the rest of the text. -/
def exponent? : List Char → Option (Int × List Char)
  | [] => none
  | c :: rest =>
    if c == 'e' || c == 'E' then
      let after := (splitSign rest).2
      let digits := after.takeWhile Char.isDigit
      if digits.isEmpty then none
      else
        let n : Int := natOfDigits digits
        some (if (splitSign rest).1 then -n else n, after.dropWhile Char.isDigit)
    else none

/-- **The numeral at the head of a text**, as long as it can be, and the rest of the text. The exponent is taken only
when it has a digit. -/
def Numeral.scan (cs : List Char) : Numeral × List Char :=
  let whole := cs.takeWhile Char.isDigit
  let fraction := splitFraction (cs.dropWhile Char.isDigit)
  match exponent? fraction.2 with
  | some (e, rest) => (⟨whole, fraction.1, e⟩, rest)
  | none => (⟨whole, fraction.1, 0⟩, fraction.2)

/-! ## Lengths -/

theorem length_dropWhile_le {β : Type} (p : β → Bool) (l : List β) : (l.dropWhile p).length ≤ l.length :=
  (List.dropWhile_sublist p).length_le

theorem length_splitSign_le (cs : List Char) : (splitSign cs).2.length ≤ cs.length := by
  unfold splitSign
  split <;> simp

theorem length_splitFraction_le (cs : List Char) : (splitFraction cs).2.length ≤ cs.length := by
  unfold splitFraction
  split
  · have := length_dropWhile_le Char.isDigit ‹List Char›
    simp only [List.length_cons]
    omega
  · exact Nat.le_refl _

/-- A point is taken with the digits after it. -/
theorem length_splitFraction_lt (cs : List Char) : (splitFraction ('.' :: cs)).2.length ≤ cs.length :=
  length_dropWhile_le _ _

theorem length_exponent_le {cs rest : List Char} {e : Int} (h : exponent? cs = some (e, rest)) :
    rest.length ≤ cs.length := by
  cases cs with
  | nil => cases h
  | cons c r =>
    simp only [exponent?] at h
    split at h
    · split at h
      · cases h
      · simp only [Option.some.injEq, Prod.mk.injEq] at h
        have h1 := length_splitSign_le r
        have h2 := length_dropWhile_le Char.isDigit (splitSign r).2
        rw [← h.2, List.length_cons]
        omega
    · cases h

/-- What follows a numeral is no longer than what follows its digits and its fraction. -/
theorem length_scan_le_fraction (cs : List Char) :
    (Numeral.scan cs).2.length ≤ (splitFraction (cs.dropWhile Char.isDigit)).2.length := by
  simp only [Numeral.scan]
  split
  · rename_i h
    exact length_exponent_le h
  · exact Nat.le_refl _

/-- A numeral that begins with a digit or a point takes at least that character. -/
theorem length_scan_le {c : Char} {cs : List Char} (h : (c.isDigit || c == '.') = true) :
    (Numeral.scan (c :: cs)).2.length ≤ cs.length := by
  refine Nat.le_trans (length_scan_le_fraction _) ?_
  by_cases hd : c.isDigit = true
  · rw [List.dropWhile_cons, if_pos hd]
    exact Nat.le_trans (length_splitFraction_le _) (length_dropWhile_le _ _)
  · have hc : c = '.' := by simpa [hd] using h
    subst hc
    rw [List.dropWhile_cons, if_neg hd]
    exact length_splitFraction_lt cs

/-! ## Rounding -/

/-- The double nearest to `digits · 10^exponent`. Numbers far outside the range of doubles are decided by their size
alone. -/
def toFloat (digits : Nat) (exponent : Int) : Float :=
  if digits == 0 then 0.0
  else if 400 < exponent then 1.0 / 0.0
  else if exponent + ((toString digits).length : Nat) < -400 then 0.0
  else if exponent < 0 then Float.ofScientific digits true exponent.natAbs
  else Float.ofScientific digits false exponent.toNat

end SignalFlow.Decimal
