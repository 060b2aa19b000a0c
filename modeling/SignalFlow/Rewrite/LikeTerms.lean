import SignalFlow.Expr.Basic

/-!
# Collecting like terms

A sum is read as a list of terms, each a coefficient times factors that are no numbers (`readTerms`). Division by `s^c`
is read as the factor `s^(-c)`, subtraction as a negative coefficient, and a sum with nothing but a coefficient in front
joins the outer sum. Terms with the same factors are merged (`mergeTerms`), terms with coefficient zero are dropped
unless infinity occurs in them, and the sum is written back with the constant first (`writeTerms`).
-/

namespace SignalFlow.Rewrite

variable {α : Type} [Scalar α]

/-- **A term of a sum**: a coefficient times factors. -/
structure Summand (α : Type) where
  coeff : α
  factors : List (Term α)

/-! ## Reading -/

/-- The coefficient and the other factors of a product, left to right, starting from a coefficient. Each factor comes
with whether it divides. A literal zero does not become part of the coefficient when it divides. -/
def readFactors : (t : Term α) → (inverted : Bool) → (coeff : α) → α × List (Term α × Bool)
  | .literal l v, inverted, c =>
    if !inverted then (Scalar.mul c v, [])
    else if !Scalar.isZero v then (Scalar.div c v, [])
    else (c, [(.literal l v, inverted)])
  | .binary _ .mul a b, inverted, c =>
    let left := readFactors a inverted c
    let right := readFactors b inverted left.1
    (right.1, left.2 ++ right.2)
  | .binary _ .div a b, inverted, c =>
    let left := readFactors a inverted c
    let right := readFactors b (!inverted) left.1
    (right.1, left.2 ++ right.2)
  | .negate _ t, inverted, c => readFactors t inverted (Scalar.neg c)
  | t, inverted, c => (c, [(t, inverted)])

/-- A factor of a product is the whole of it or smaller. -/
theorem size_of_mem_readFactors {t : Term α} {inverted : Bool} {c : α} {p : Term α × Bool}
    (h : p ∈ (readFactors t inverted c).2) : p.1 = t ∨ p.1.size < t.size := by
  fun_induction readFactors t inverted c with
  | case1 => simp at h
  | case2 => simp at h
  | case3 => simp_all
  | case4 inverted c l a b left right ih1 ih2 =>
    right
    rcases List.mem_append.mp h with h | h
    · rcases ih1 h with e | e
      · simp only [e, Tree.size]; omega
      · simp only [Tree.size]; omega
    · rcases ih2 h with e | e
      · simp only [e, Tree.size]; omega
      · simp only [Tree.size]; omega
  | case5 inverted c l a b left right ih1 ih2 =>
    right
    rcases List.mem_append.mp h with h | h
    · rcases ih1 h with e | e
      · simp only [e, Tree.size]; omega
      · simp only [Tree.size]; omega
    · rcases ih2 h with e | e
      · simp only [e, Tree.size]; omega
      · simp only [Tree.size]; omega
  | case6 inverted c l t ih =>
    right
    rcases ih h with e | e
    · simp only [e, Tree.size]; omega
    · simp only [Tree.size]; omega
  | case7 => simp_all

/-- If a product that is no sum itself has a sum as its only factor, not a divisor: its coefficient, and this sum. -/
def scaledSum? (t : Term α) (sign : α) : Option (α × { s : Term α // s.size < t.size }) :=
  if ht : t.isAdditive then none
  else
    match h : readFactors t false sign with
    | (c, [(s, false)]) =>
      if hs : s.isAdditive then
        some (c, ⟨s, by
          rcases size_of_mem_readFactors (t := t) (p := (s, false)) (by rw [h]; exact List.mem_cons_self) with e | e
          · exact absurd (e ▸ hs) ht
          · exact e⟩)
      else none
    | _ => none

/-- The reciprocal of a factor: `s^c` with a literal exponent becomes `s^(-c)`, anything else gets the exponent `-1`. -/
def reciprocal : Term α → Term α
  | .binary _ .pow base (.literal _ c) => .binary () .pow base (.literal () (Scalar.neg c))
  | t => .binary () .pow t (.literal () Scalar.minusOne)

/-- A product as a term of a sum. -/
def readProduct (t : Term α) (sign : α) : Summand α :=
  let (coeff, factors) := readFactors t false sign
  ⟨coeff, factors.map fun f => if f.2 then reciprocal f.1 else f.1⟩

/-- **The terms of a sum**, left to right, each multiplied by a sign or coefficient. -/
def readTerms (t : Term α) (sign : α) : List (Summand α) :=
  match t with
  | .binary _ .add a b => readTerms a sign ++ readTerms b sign
  | .binary _ .sub a b => readTerms a sign ++ readTerms b (Scalar.neg sign)
  | t =>
    match scaledSum? t sign with
    | some (c, ⟨s, _⟩) => readTerms s c
    | none => [readProduct t sign]
termination_by t.size
decreasing_by all_goals (try simp only [Tree.size]); omega

/-! ## Merging -/

/-- The factors in the order of their texts. -/
def sortFactors (factors : List (Term α)) : List (Term α) :=
  ((factors.map fun f => (f.text, f)).mergeSort fun x y => decide (x.1 ≤ y.1)).map (·.2)

/-- Adds a term to a list of merged terms: to the first one with the same factors, or else at the end. -/
def mergeTerm (t : Summand α) : List (Summand α) → List (Summand α)
  | [] => [t]
  | m :: rest =>
    if Tree.sameAll m.factors t.factors then ⟨Scalar.add m.coeff t.coeff, m.factors⟩ :: rest
    else m :: mergeTerm t rest

/-- **The terms with like ones merged**, in order of first appearance. -/
def mergeTerms (ts : List (Summand α)) : List (Summand α) :=
  ts.foldl (fun merged t => mergeTerm ⟨t.coeff, sortFactors t.factors⟩ merged) []

/-- Whether a term stays: its coefficient is not zero, or infinity occurs in it. -/
def Summand.stays (t : Summand α) : Bool := !Scalar.isZero t.coeff || t.factors.any Tree.hasInfinity

/-- The constant first, everything else in its order. -/
def constantFirst (ts : List (Summand α)) : List (Summand α) :=
  ts.filter (·.factors.isEmpty) ++ ts.filter (!·.factors.isEmpty)

/-! ## Writing -/

/-- A product that leans to the left. -/
def times (first : Term α) (rest : List (Term α)) : Term α := rest.foldl (fun t f => .binary () .mul t f) first

/-- A coefficient times factors; a unit coefficient is left out. -/
def writeTerm (coeff : α) (factors : List (Term α)) : Term α :=
  if Scalar.eq coeff Scalar.one then
    match factors with
    | [] => .literal () Scalar.one
    | f :: rest => times f rest
  else times (.literal () coeff) factors

/-- A sum to which a term is added, or subtracted when its coefficient is negative. -/
def addTerm (sum : Term α) (t : Summand α) : Term α :=
  .binary () (if Scalar.lt t.coeff Scalar.zero then .sub else .add) sum (writeTerm (Scalar.abs t.coeff) t.factors)

/-- **The sum of terms**, leaning to the left. -/
def writeTerms : List (Summand α) → Term α
  | [] => .literal () Scalar.zero
  | t :: rest => rest.foldl addTerm (writeTerm t.coeff t.factors)

/-! ## The pass -/

/-- A sum with its like terms collected. -/
def collectSum (t : Term α) : Term α :=
  writeTerms (constantFirst ((mergeTerms (readTerms t Scalar.one)).filter Summand.stays))

/-- Collects the terms of a sum in its place; nothing happens if they are collected already. -/
def collectRoot (t : Tree Id α) (s : Slots) (count : Nat) : Tree Id α × Slots × Nat :=
  let sum := collectSum t.term
  if t.same sum then (t, s, count)
  else
    let (new, s) := sum.place s
    (new, s.release t.discard, count + 1)

mutual

/-- **Collects the terms of every sum of a tree**, inner sums first. `inSum` tells whether the tree is itself an operand
of a sum. -/
def collect (inSum : Bool) : Tree Id α → Slots → Nat → Tree Id α × Slots × Nat
  | .literal l v, s, n => (.literal l v, s, n)
  | .var l name, s, n => (.var l name, s, n)
  | .infinity l, s, n => (.infinity l, s, n)
  | .negate l t, s, n =>
    let (t, s, n) := collect false t s n
    (.negate l t, s, n)
  | .binary l op a b, s, n =>
    let (a, s, n) := collect op.isAdditive a s n
    let (b, s, n) := collect op.isAdditive b s n
    if op.isAdditive && !inSum then collectRoot (.binary l op a b) s n else (.binary l op a b, s, n)
  | .list l items, s, n =>
    let (items, s, n) := collectAll items s n
    (.list l items, s, n)

/-- Collects the terms of the sums of several trees. -/
def collectAll : List (Tree Id α) → Slots → Nat → List (Tree Id α) × Slots × Nat
  | [], s, n => ([], s, n)
  | t :: ts, s, n =>
    let (t, s, n) := collect false t s n
    let (ts, s, n) := collectAll ts s n
    (t :: ts, s, n)

end

end SignalFlow.Rewrite

/-- Collects the like terms of an expression; answers how many sums changed. -/
def SignalFlow.Expr.collectTerms {α : Type} [Scalar α] (e : Expr α) : Expr α × Nat :=
  let (tree, slots, n) := Rewrite.collect false e.tree e.slots 0
  ({ e with tree, slots }, n)
