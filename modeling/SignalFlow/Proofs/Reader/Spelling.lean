import SignalFlow.Expr.Basic
import SignalFlow.Proofs.Expr.Walk
import SignalFlow.Proofs.Reader.Lexing

/-!
# The symbols of the text of an expression

`spelling` is the text of a tree as a list of symbols: the same parentheses in the same places, and every literal as a
number with its sign in front. If names are words and literals read back, the text is cut into just these symbols
(`tokenize_text`).
-/

namespace SignalFlow.Reader

open SignalFlow.Tree

variable {ι α : Type}

/-! ## Names and literals -/

/-- **A name that is read as a variable.** -/
structure IsName (name : String) : Prop where
  word : ∃ c w, name.toList = c :: w ∧ startsName c = true ∧ ∀ d ∈ w, inName d = true
  not_infinity : name ≠ "oo"

variable [Scalar α]

/-- The number that is read where a literal is written, without the sign. -/
def magnitude (v : α) : α :=
  let n := (Decimal.Numeral.scan (Decimal.splitSign (Scalar.text v).toList).2).1
  Scalar.ofDecimal n.digits n.scale

/-- **A literal that is written in digits, without an exponent, and reads back.** -/
structure ReadsBack (v : α) : Prop where
  written : ∃ whole fraction : List Char, whole ≠ [] ∧ (∀ d ∈ whole, d.isDigit = true) ∧
    (∀ d ∈ fraction, d.isDigit = true) ∧
    (Scalar.text v).toList = (if Scalar.isSigned v then ['-'] else []) ++ numeral whole fraction
  value : v = if Scalar.isSigned v then Scalar.neg (magnitude v) else magnitude v

/-- A node whose own text is read back: its name, or its literal. -/
def Legible : Tree ι α → Prop
  | .literal _ v => ReadsBack v
  | .var _ name => IsName name
  | _ => True

/-! ## Spelling -/

/-- Symbols in parentheses if they bind more weakly than `level`. -/
def enclosed (level precedence : Nat) (s : List (Symbol α)) : List (Symbol α) :=
  if precedence < level then .opening :: (s ++ [.closing]) else s

/-- The symbol of an operator. -/
def opSymbol : BinaryOp → Symbol α
  | .add => .plus
  | .sub => .minus
  | .mul => .star
  | .div => .slash
  | .pow => .caret
  | .mod => .percent
  | .comma => .comma

mutual

/-- **The symbols of a tree** in a place that demands `level`. -/
def spelling (level : Nat) : Tree ι α → List (Symbol α)
  | .literal l v => enclosed level (precedence (.literal l v : Tree ι α))
      (if Scalar.isSigned v then [.minus, .number (magnitude v)] else [.number (magnitude v)])
  | .var _ name => [.name name]
  | .infinity _ => [.infinity]
  | .negate _ t => enclosed level negationPrecedence (.minus :: spelling negationPrecedence t)
  | .binary _ op a b => enclosed level op.precedence
      (spelling (operandLevels op).1 a ++ opSymbol op :: spelling (operandLevels op).2 b)
  | .list _ items => .opening :: (spellingItems items ++ [.closing])

/-- The symbols of the items of a list, separated by commas. -/
def spellingItems : List (Tree ι α) → List (Symbol α)
  | [] => []
  | [t] => spelling 1 t
  | t :: u :: rest => spelling 1 t ++ .comma :: spellingItems (u :: rest)

end

/-! ## Texts -/

theorem magnitude_eq {v : α} (whole fraction : List Char) (hwhole : whole ≠ [])
    (hdigits : ∀ d ∈ whole, d.isDigit = true) (hfraction : ∀ d ∈ fraction, d.isDigit = true)
    (htext : (Scalar.text v).toList = (if Scalar.isSigned v then ['-'] else []) ++ numeral whole fraction) :
    magnitude v = Scalar.ofDecimal (Decimal.natOfDigits (whole ++ fraction)) (0 - (fraction.length : Nat)) := by
  have hunsigned : (Decimal.splitSign (Scalar.text v).toList).2 = numeral whole fraction ++ [] := by
    rw [htext, List.append_nil]
    split
    case isTrue => rfl
    case isFalse =>
      match whole, hwhole with
      | c :: whole, _ =>
        have hc := hdigits c List.mem_cons_self
        show (Decimal.splitSign (c :: _)).2 = c :: _
        unfold Decimal.splitSign
        split <;> first | rfl | (next heq => cases heq; exact absurd hc (by decide))
  rw [magnitude, hunsigned, Decimal.scan_of_numeralText (numeralText_numeral hdigits hfraction) boundary_nil]
  rfl

/-- A literal reads back if its digits give it. -/
theorem readsBack_of_digits {v : α} (whole fraction : List Char) (hwhole : whole ≠ [])
    (hdigits : ∀ d ∈ whole, d.isDigit = true) (hfraction : ∀ d ∈ fraction, d.isDigit = true)
    (htext : (Scalar.text v).toList = (if Scalar.isSigned v then ['-'] else []) ++ numeral whole fraction)
    (hvalue : v = (if Scalar.isSigned v then Scalar.neg else id)
      (Scalar.ofDecimal (Decimal.natOfDigits (whole ++ fraction)) (0 - (fraction.length : Nat)))) : ReadsBack v := by
  refine ⟨⟨whole, fraction, hwhole, hdigits, hfraction, htext⟩, hvalue.trans ?_⟩
  rw [magnitude_eq whole fraction hwhole hdigits hfraction htext]
  split <;> rfl

theorem boundary_separator (op : BinaryOp) (cs : List Char) : Boundary ((separator op).toList ++ cs) := by
  cases op <;> exact boundary_cons.mpr ⟨rfl, by decide⟩

theorem lexes_separator (op : BinaryOp) {cs : List Char} {syms : List (Symbol α)} (h : Lexes cs syms) :
    Lexes ((separator op).toList ++ cs) (opSymbol op :: syms) := by
  cases op with
  | comma => exact .sign (c := ',') rfl (.blank (c := ' ') rfl h)
  | add => exact .blank (c := ' ') rfl (.sign (c := '+') rfl (.blank (c := ' ') rfl h))
  | sub => exact .blank (c := ' ') rfl (.sign (c := '-') rfl (.blank (c := ' ') rfl h))
  | mul => exact .sign (c := '*') rfl h
  | div => exact .sign (c := '/') rfl h
  | pow => exact .sign (c := '^') rfl h
  | mod => exact .sign (c := '%') rfl h

/-- **A text is cut into symbols**, whatever follows after a boundary. -/
def Spells (s : String) (u : List (Symbol α)) : Prop :=
  ∀ cs syms, Boundary cs → Lexes cs syms → Lexes (s.toList ++ cs) (u ++ syms)

namespace Spells

variable {s s' : String} {u u' : List (Symbol α)}

theorem group (h : Spells s u) : Spells ("(" ++ s ++ ")") (.opening :: (u ++ [.closing])) := by
  intro cs syms hcs hrest
  have hclosing : Lexes (s.toList ++ ')' :: cs) (u ++ .closing :: syms) :=
    h _ _ (boundary_cons.mpr ⟨rfl, by decide⟩) (.sign rfl hrest)
  simpa using Lexes.sign (c := '(') rfl hclosing

theorem wrap (h : Spells s u) (level precedence : Nat) :
    Spells (Tree.wrap level precedence s) (enclosed level precedence u) := by
  rw [Tree.wrap, enclosed]
  split
  case isTrue => exact h.group
  case isFalse => exact h

theorem infinity : Spells "oo" [(.infinity : Symbol α)] := fun _ _ hcs hrest =>
  Lexes.word (w := ['o']) rfl (List.all_eq_true.mp rfl) hcs hrest

theorem name {x : String} (h : IsName x) : Spells x [(.name x : Symbol α)] := by
  intro cs syms hcs hrest
  obtain ⟨c, w, hx, hc, hw⟩ := h.word
  have hoo : x.toList ≠ ['o', 'o'] := fun hoo => h.not_infinity (String.toList_injective hoo)
  have hsymbol : (wordSymbol (c :: w) : Symbol α) = .name x := by
    rw [wordSymbol, ← hx, if_neg hoo, String.ofList_toList]
  rw [hx, ← hsymbol]
  exact Lexes.word hc hw hcs hrest

theorem literal {v : α} (h : ReadsBack v) : Spells (Scalar.text v)
    (if Scalar.isSigned v then [.minus, .number (magnitude v)] else [.number (magnitude v)]) := by
  intro cs syms hcs hrest
  obtain ⟨whole, fraction, hwhole, hdigits, hfraction, htext⟩ := h.written
  have hnumber := Lexes.number whole fraction hwhole hdigits hfraction hcs hrest
  rw [htext, magnitude_eq whole fraction hwhole hdigits hfraction htext]
  split
  case isTrue => exact Lexes.sign (c := '-') rfl hnumber
  case isFalse => exact hnumber

/-- A sign in front. -/
theorem negation (h : Spells s u) : Spells (negationSymbol ++ s) (.minus :: u) := by
  intro cs syms hcs hrest
  simpa [negationSymbol] using Lexes.sign (c := '-') rfl (h cs syms hcs hrest)

/-- Two texts with an operator between them. -/
theorem binary (op : BinaryOp) (h : Spells s u) (h' : Spells s' u') :
    Spells (s ++ separator op ++ s') (u ++ opSymbol op :: u') := by
  intro cs syms hcs hrest
  have hright := h' cs syms hcs hrest
  have hleft := h _ _ (boundary_separator op (s'.toList ++ cs)) (lexes_separator op hright)
  simpa [List.append_assoc] using hleft

end Spells

theorem spells_items {items : List (Tree ι α)} (h : ∀ t ∈ items, Spells (t.textAt 1) (spelling 1 t)) :
    Spells (textItems items) (spellingItems items) := by
  match items with
  | [] => exact fun _ _ _ hrest => hrest
  | [t] => exact h t List.mem_cons_self
  | t :: u :: rest =>
    obtain ⟨ht, hrest⟩ := List.forall_mem_cons.mp h
    exact ht.binary .comma (spells_items hrest)

/-- **The text of a tree is cut into its symbols**, if its names and literals are read back. -/
theorem spells_textAt {t : Tree ι α} (h : t.Everywhere Legible) (level : Nat) :
    Spells (t.textAt level) (spelling level t) := by
  induction t using nodeInduction generalizing level with
  | literal l v =>
    have hv : Legible (literal l v : Tree ι α) := everywhere_literal.mp h
    exact (Spells.literal hv).wrap _ _
  | var l x => exact .name (everywhere_var.mp h)
  | infinity l => exact .infinity
  | negate l t ih => exact (ih (everywhere_negate.mp h).2 _).negation.wrap _ _
  | binary l op a b iha ihb =>
    obtain ⟨-, ha, hb⟩ := everywhere_binary.mp h
    exact ((iha ha _).binary op (ihb hb _)).wrap _ _
  | list l items ih => exact (spells_items fun t ht => ih t ht ((everywhere_list.mp h).2 t ht) 1).group

/-- **The symbols of the text of a tree.** -/
theorem tokenize_text {t : Tree ι α} (h : t.Everywhere Legible) :
    ∃ toks, tokenize t.text = .ok toks ∧ symbols toks = spelling 0 t := by
  obtain ⟨toks, htoks, hsymbols⟩ := spells_textAt h 0 [] [] boundary_nil .nil 0
  rw [List.append_nil] at htoks hsymbols
  exact ⟨toks, htoks, hsymbols⟩

end SignalFlow.Reader
