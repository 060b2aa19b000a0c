import SignalFlow.Decimal.Numeral
import SignalFlow.Operator
import SignalFlow.Expr.Error

/-!
# Tokens of expression text

A text is cut into numbers, names, `oo` and one-character signs; blanks between them are skipped. Names and numbers are
as long as they can be, except that an exponent needs a digit, so that `2exp` is a number and a name.

All characters of tokens and blanks are ASCII, so up to the first error characters and bytes count the same.
-/

namespace SignalFlow.Reader

/-- **What a token is.** -/
inductive Symbol (α : Type) where
  | number (value : α)
  | name (text : String)
  /-- The word `oo`. -/
  | infinity
  | plus
  | minus
  | star
  | slash
  | caret
  | percent
  | opening
  | closing
  | comma

/-- **A token** with the offset of its first character. -/
structure Token (α : Type) where
  symbol : Symbol α
  offset : Nat

/-- Whether a token can begin a factor without a sign in front. -/
def Symbol.startsAtom {α : Type} : Symbol α → Bool
  | .number _ | .name _ | .infinity | .opening => true
  | _ => false

/-- The operator of a sign between factors. -/
def factorOp? {α : Type} : Symbol α → Option BinaryOp
  | .star => some .mul
  | .slash => some .div
  | .percent => some .mod
  | _ => none

variable {α : Type} [Scalar α]

/-- The signs of one character. -/
def sign? : Char → Option (Symbol α)
  | '+' => some .plus
  | '-' => some .minus
  | '*' => some .star
  | '/' => some .slash
  | '^' => some .caret
  | '%' => some .percent
  | '(' => some .opening
  | ')' => some .closing
  | ',' => some .comma
  | _ => none

/-- The characters between tokens. -/
def isSpace (c : Char) : Bool := c == ' ' || c == '\t' || c == '\r' || c == '\n'

/-- The characters that begin a number. -/
def startsNumber (c : Char) : Bool := c.isDigit || c == '.'

/-- The characters that begin a name. -/
def startsName (c : Char) : Bool := c.isAlpha || c == '_'

/-- The characters of a name. -/
def inName (c : Char) : Bool := c.isAlphanum || c == '_'

/-- The token of a word. -/
def wordSymbol (word : List Char) : Symbol α :=
  if word = ['o', 'o'] then .infinity else .name (String.ofList word)

/-! ## Cutting a text into tokens -/

/-- What the head of a text is: a token or a blank, and the rest of the text; or the reason why it is neither. -/
def scanHead (c : Char) (cs : List Char) :
    Except ReadFault (Option (Symbol α) × { rest : List Char // rest.length ≤ cs.length }) :=
  if isSpace c then .ok (none, ⟨cs, Nat.le_refl _⟩)
  else match sign? c with
    | some s => .ok (some s, ⟨cs, Nat.le_refl _⟩)
    | none =>
      if h : startsNumber c then
        let n := Decimal.Numeral.scan (c :: cs)
        if n.1.hasDigit then
          .ok (some (.number (Scalar.ofDecimal n.1.digits n.1.scale)), ⟨n.2, Decimal.length_scan_le h⟩)
        else .error .invalidNumber
      else if startsName c then
        .ok (some (wordSymbol (c :: cs.takeWhile inName)), ⟨cs.dropWhile inName, Decimal.length_dropWhile_le _ _⟩)
      else .error (.unexpectedChar c)

/-- The tokens of a text that begins at an offset. -/
def tokensFrom (offset : Nat) : List Char → Except ReadError (List (Token α))
  | [] => .ok []
  | c :: cs =>
    match scanHead (α := α) c cs with
    | .error fault => .error ⟨offset, fault⟩
    | .ok (symbol?, ⟨rest, _⟩) =>
      match tokensFrom (offset + (cs.length + 1 - rest.length)) rest with
      | .error e => .error e
      | .ok tokens =>
        match symbol? with
        | some symbol => .ok (⟨symbol, offset⟩ :: tokens)
        | none => .ok tokens
termination_by cs => cs.length
decreasing_by simp only [List.length_cons]; omega

/-- **The tokens of a text.** -/
def tokenize (text : String) : Except ReadError (List (Token α)) := tokensFrom 0 text.toList

end SignalFlow.Reader
