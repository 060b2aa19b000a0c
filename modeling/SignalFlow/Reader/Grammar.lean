import SignalFlow.Reader.Token
import SignalFlow.Tree

/-!
# The grammar of expressions

```text
sequence := additive (',' additive)*
additive := term (('+' | '-') term)*
term     := signed (('*' | '/' | '%') signed | power)*
signed   := ('-' | '+') signed | power
power    := atom ('^' exponent)?
exponent := ('-' | '+') exponent | power power*
atom     := NUMBER | NAME | 'oo' | '(' additive (',' additive)* ')'
```

A power directly after another factor multiplies. Operators associate to the left, powers to the right, and an exponent
takes all the powers that follow it side by side. A minus in front of a number is part of the number. What stands in
parentheses is an argument list.

There is one function for every rule and one for every repetition. Each answers the tree it has read and the tokens that
are left, of which there are fewer than before; this is what the recursion rests on.
-/

namespace SignalFlow.Reader

variable {α : Type} [Scalar α]

/-- What a rule answers: a tree and the remaining tokens, of which there are fewer than `n`. -/
abbrev Reading (α : Type) (n : Nat) := { p : Term α × List (Token α) // p.2.length < n }

namespace Reading

/-- A reading of fewer tokens is one of more. -/
def weaken {n m : Nat} (h : n ≤ m) (r : Reading α n) : Reading α m := ⟨r.1, Nat.lt_of_lt_of_le r.2 h⟩

/-- A reading with another tree. -/
def withTree {n : Nat} (r : Reading α n) (t : Term α) : Reading α n := ⟨(t, r.1.2), r.2⟩

end Reading

/-- The number of minus signs in the run of signs at the head, and the tokens after it. -/
def signRun : List (Token α) → Nat × List (Token α)
  | ⟨.minus, _⟩ :: rest => ((signRun rest).1 + 1, (signRun rest).2)
  | ⟨.plus, _⟩ :: rest => signRun rest
  | rest => (0, rest)

omit [Scalar α] in
theorem length_signRun_le (toks : List (Token α)) : (signRun toks).2.length ≤ toks.length := by
  fun_induction signRun toks with
  | case1 o rest ih => simp only [List.length_cons]; omega
  | case2 o rest ih => simp only [List.length_cons]; omega
  | case3 => exact Nat.le_refl _

/-- The negation of a tree; that of a number is a number. -/
def negated : Term α → Term α
  | .literal _ v => .literal () (Scalar.neg v)
  | t => .negate () t

/-- A tree negated a number of times. -/
def negatedTimes (t : Term α) : Nat → Term α
  | 0 => t
  | n + 1 => negated (negatedTimes t n)

mutual

/-- Sums and differences. `stop` is the offset of the end of the text. -/
def additive (stop : Nat) (toks : List (Token α)) : Except ReadError (Reading α toks.length) := do
  let ⟨(t, rest), h⟩ ← term stop toks
  return (← additiveTail stop t rest).weaken h
termination_by (toks.length, 6)

/-- The terms after the first one. -/
def additiveTail (stop : Nat) (left : Term α) :
    (toks : List (Token α)) → Except ReadError (Reading α (toks.length + 1))
  | ⟨.plus, _⟩ :: rest => do
    let ⟨(t, rest'), h⟩ ← term stop rest
    have h : rest'.length < rest.length := h
    return (← additiveTail stop (.binary () .add left t) rest').weaken (by rw [List.length_cons]; omega)
  | ⟨.minus, _⟩ :: rest => do
    let ⟨(t, rest'), h⟩ ← term stop rest
    have h : rest'.length < rest.length := h
    return (← additiveTail stop (.binary () .sub left t) rest').weaken (by rw [List.length_cons]; omega)
  | toks => return ⟨(left, toks), Nat.lt_succ_self _⟩
termination_by toks => (toks.length, 5)

/-- Products, quotients and remainders. -/
def term (stop : Nat) (toks : List (Token α)) : Except ReadError (Reading α toks.length) := do
  let ⟨(t, rest), h⟩ ← signed stop toks
  return (← termTail stop t rest).weaken h
termination_by (toks.length, 5)

/-- The factors after the first one. -/
def termTail (stop : Nat) (left : Term α) :
    (toks : List (Token α)) → Except ReadError (Reading α (toks.length + 1))
  | [] => return ⟨(left, []), Nat.lt_succ_self _⟩
  | ⟨symbol, o⟩ :: rest => do
    match factorOp? symbol with
    | some op =>
      let ⟨(t, rest'), h⟩ ← signed stop rest
      have h : rest'.length < rest.length := h
      return (← termTail stop (.binary () op left t) rest').weaken (by rw [List.length_cons]; omega)
    | none =>
      if symbol.startsAtom then
        let ⟨(t, rest'), h⟩ ← power stop (⟨symbol, o⟩ :: rest)
        have h : rest'.length < rest.length + 1 := h
        return (← termTail stop (.binary () .mul left t) rest').weaken (by rw [List.length_cons]; omega)
      else return ⟨(left, ⟨symbol, o⟩ :: rest), Nat.lt_succ_self _⟩
termination_by toks => (toks.length, 4)

/-- A power with signs in front. -/
def signed (stop : Nat) (toks : List (Token α)) : Except ReadError (Reading α toks.length) := do
  let r ← power stop (signRun toks).2
  return (r.withTree (negatedTimes r.1.1 (signRun toks).1)).weaken (length_signRun_le toks)
termination_by (toks.length, 4)
decreasing_by
  have := length_signRun_le toks
  simp only [Prod.lex_def]
  omega

/-- An atom, perhaps with an exponent. -/
def power (stop : Nat) (toks : List (Token α)) : Except ReadError (Reading α toks.length) := do
  let ⟨(base, rest), h⟩ ← atom stop toks
  match rest, h with
  | ⟨.caret, _⟩ :: rest', h =>
    have h : rest'.length + 1 < toks.length := h
    let r ← exponent stop rest'
    return (r.withTree (.binary () .pow base r.1.1)).weaken (by omega)
  | rest, h => return ⟨(base, rest), h⟩
termination_by (toks.length, 3)

/-- The exponent of a power: signs, and all the powers side by side that follow. -/
def exponent (stop : Nat) (toks : List (Token α)) : Except ReadError (Reading α toks.length) := do
  have hs := length_signRun_le toks
  let ⟨(t, rest), h⟩ ← power stop (signRun toks).2
  have h : rest.length < (signRun toks).2.length := h
  let r ← exponentTail stop t rest
  return (r.withTree (negatedTimes r.1.1 (signRun toks).1)).weaken (by omega)
termination_by (toks.length, 4)
decreasing_by
  all_goals
    simp only [Prod.lex_def]
    omega

/-- The powers of an exponent after the first one. -/
def exponentTail (stop : Nat) (left : Term α) :
    (toks : List (Token α)) → Except ReadError (Reading α (toks.length + 1))
  | [] => return ⟨(left, []), Nat.lt_succ_self _⟩
  | ⟨symbol, o⟩ :: rest => do
    if symbol.startsAtom then
      let ⟨(t, rest'), h⟩ ← power stop (⟨symbol, o⟩ :: rest)
      have h : rest'.length < rest.length + 1 := h
      return (← exponentTail stop (.binary () .mul left t) rest').weaken (by rw [List.length_cons]; omega)
    else return ⟨(left, ⟨symbol, o⟩ :: rest), Nat.lt_succ_self _⟩
termination_by toks => (toks.length, 4)

/-- Numbers, names, infinity and groups in parentheses. -/
def atom (stop : Nat) : (toks : List (Token α)) → Except ReadError (Reading α toks.length)
  | [] => throw ⟨stop, .unexpectedEnd⟩
  | ⟨.number v, _⟩ :: rest => return ⟨(.literal () v, rest), Nat.lt_succ_self _⟩
  | ⟨.name x, _⟩ :: rest => return ⟨(.var () x, rest), Nat.lt_succ_self _⟩
  | ⟨.infinity, _⟩ :: rest => return ⟨(.infinity (), rest), Nat.lt_succ_self _⟩
  | ⟨.opening, o⟩ :: rest => do
    let ⟨(t, rest'), h⟩ ← additive stop rest
    have h : rest'.length < rest.length := h
    return (← items stop o [t] rest').weaken (by rw [List.length_cons]; omega)
  | ⟨.closing, o⟩ :: _ => throw ⟨o, .unbalancedParen⟩
  | ⟨_, o⟩ :: _ => throw ⟨o, .unexpectedToken⟩
termination_by toks => (toks.length, 2)

/-- The items of a group after the first one, up to the closing parenthesis. `opened` is the offset of the opening
parenthesis, `before` holds the items so far, the last one first. -/
def items (stop opened : Nat) (before : List (Term α)) :
    (toks : List (Token α)) → Except ReadError (Reading α (toks.length + 1))
  | [] => throw ⟨opened, .unbalancedParen⟩
  | ⟨.comma, _⟩ :: rest => do
    let ⟨(t, rest'), h⟩ ← additive stop rest
    have h : rest'.length < rest.length := h
    return (← items stop opened (t :: before) rest').weaken (by rw [List.length_cons]; omega)
  | ⟨.closing, _⟩ :: rest =>
    return ⟨(.list () before.reverse, rest), by simp only [List.length_cons]; omega⟩
  | ⟨_, o⟩ :: _ => throw ⟨o, .unexpectedToken⟩
termination_by toks => (toks.length, 1)

end

/-- The parts of a sequence after the first one. -/
def sequenceTail (stop : Nat) (left : Term α) : List (Token α) → Except ReadError (Term α × List (Token α))
  | ⟨.comma, _⟩ :: rest => do
    let ⟨(t, rest'), h⟩ ← additive stop rest
    have : rest'.length < rest.length := h
    sequenceTail stop (.binary () .comma left t) rest'
  | toks => return (left, toks)
termination_by toks => toks.length

/-- Expressions separated by commas. -/
def sequence (stop : Nat) (toks : List (Token α)) : Except ReadError (Term α × List (Token α)) := do
  let ⟨(t, rest), _⟩ ← additive stop toks
  sequenceTail stop t rest

/-- **The tree of a list of tokens**, all of which must be used. -/
def ofTokens (stop : Nat) (toks : List (Token α)) : Except ReadError (Term α) := do
  match ← sequence stop toks with
  | (t, []) => return t
  | (_, ⟨.closing, o⟩ :: _) => throw ⟨o, .unbalancedParen⟩
  | (_, ⟨_, o⟩ :: _) => throw ⟨o, .unexpectedToken⟩

/-- The tree of a text, with all groups as argument lists. -/
def readTerm (text : String) : Except ReadError (Term α) := do
  ofTokens text.utf8ByteSize (← tokenize text)

end SignalFlow.Reader
