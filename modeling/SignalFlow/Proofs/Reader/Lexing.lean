import SignalFlow.Proofs.Reader.Derivation
import SignalFlow.Proofs.Reader.Numeral

/-!
# The symbols of a text

`Lexes cs syms` says that the characters `cs` are cut into the symbols `syms`, at whatever offset they stand. A text is
put together from the end: a blank, a sign, a word or a numeral in front of characters with known symbols adds nothing
or its symbol, words and numerals where a boundary follows (`Boundary`).
-/

namespace SignalFlow.Reader

variable {α : Type}

/-! ## Characters -/

section Characters

variable {c : Char}

theorem isSpace_of_startsName (h : startsName c = true) : isSpace c = false := by
  refine Bool.eq_false_iff.mpr fun hspace => ?_
  simp only [isSpace, Bool.or_eq_true, beq_iff_eq] at hspace
  rcases hspace with ((rfl | rfl) | rfl) | rfl <;> exact absurd h (by decide)

theorem isSpace_of_startsNumber (h : startsNumber c = true) : isSpace c = false := by
  refine Bool.eq_false_iff.mpr fun hspace => ?_
  simp only [isSpace, Bool.or_eq_true, beq_iff_eq] at hspace
  rcases hspace with ((rfl | rfl) | rfl) | rfl <;> exact absurd h (by decide)

theorem sign_of_startsName (h : startsName c = true) : (sign? c : Option (Symbol α)) = none := by
  unfold sign?
  split <;> first | rfl | exact absurd h (by decide)

theorem sign_of_startsNumber (h : startsNumber c = true) : (sign? c : Option (Symbol α)) = none := by
  unfold sign?
  split <;> first | rfl | exact absurd h (by decide)

theorem isSpace_of_sign {x : Symbol α} (h : sign? c = some x) : isSpace c = false := by
  refine Bool.eq_false_iff.mpr fun hspace => ?_
  simp only [isSpace, Bool.or_eq_true, beq_iff_eq] at hspace
  rcases hspace with ((rfl | rfl) | rfl) | rfl <;> cases h

theorem startsNumber_of_startsName (h : startsName c = true) : startsNumber c = false := by
  refine Bool.eq_false_iff.mpr fun hnumber => ?_
  simp only [startsNumber, Bool.or_eq_true, beq_iff_eq] at hnumber
  rcases hnumber with hdigit | rfl
  · simp only [startsName, Bool.or_eq_true, beq_iff_eq] at h
    rcases h with halpha | rfl
    · have hdigit : '0'.val ≤ c.val ∧ c.val ≤ '9'.val :=
        (Bool.and_eq_true_iff.mp hdigit).imp of_decide_eq_true of_decide_eq_true
      have halpha : 'A'.val ≤ c.val ∧ c.val ≤ 'Z'.val ∨ 'a'.val ≤ c.val ∧ c.val ≤ 'z'.val :=
        (Bool.or_eq_true_iff.mp halpha).imp of_decide_eq_true fun h =>
          (Bool.and_eq_true_iff.mp h).imp of_decide_eq_true of_decide_eq_true
      simp only [UInt32.le_iff_toNat_le] at halpha hdigit
      have h9 : '9'.val.toNat = 57 := rfl
      have hA : 'A'.val.toNat = 65 := rfl
      have ha : 'a'.val.toNat = 97 := rfl
      omega
    · exact absurd hdigit (by decide)
  · exact absurd h (by decide)

end Characters

/-! ## Numerals -/

/-- The digits of a numeral with a point before the second part, if there is one. -/
def numeral (whole fraction : List Char) : List Char :=
  whole ++ if fraction = [] then [] else '.' :: fraction

theorem numeralText_numeral {whole fraction : List Char} (hwhole : ∀ c ∈ whole, c.isDigit = true)
    (hfraction : ∀ c ∈ fraction, c.isDigit = true) :
    Decimal.NumeralText (numeral whole fraction) ⟨whole, fraction, 0⟩ := by
  unfold numeral
  split
  case isTrue hnil =>
    subst hnil
    exact .mk hwhole .none .none
  case isFalse =>
    have h : Decimal.NumeralText (whole ++ ('.' :: fraction ++ [])) ⟨whole, fraction, 0⟩ :=
      .mk hwhole (.point hfraction) .none
    rwa [List.append_nil] at h

/-! ## Texts -/

section Texts

variable [Scalar α]

/-- **The characters are cut into the symbols**, at whatever offset they stand. -/
def Lexes (cs : List Char) (syms : List (Symbol α)) : Prop :=
  ∀ offset, ∃ toks, tokensFrom offset cs = .ok toks ∧ symbols toks = syms

theorem scanHead_word {c : Char} (hc : startsName c = true) (cs : List Char) : ∃ h,
    scanHead (α := α) c cs = .ok (some (wordSymbol (c :: cs.takeWhile inName)), ⟨cs.dropWhile inName, h⟩) := by
  refine ⟨Decimal.length_dropWhile_le _ _, ?_⟩
  rw [scanHead, if_neg (Bool.eq_false_iff.mp (isSpace_of_startsName hc)), sign_of_startsName hc]
  dsimp only
  rw [dif_neg (Bool.eq_false_iff.mp (startsNumber_of_startsName hc)), if_pos hc]

theorem scanHead_number {c : Char} {cs rest : List Char} {n : Decimal.Numeral} (hc : startsNumber c = true)
    (hscan : Decimal.Numeral.scan (c :: cs) = (n, rest)) (hn : n.hasDigit = true) : ∃ h,
      scanHead (α := α) c cs = .ok (some (.number (Scalar.ofDecimal n.digits n.scale)), ⟨rest, h⟩) := by
  have hrest : (Decimal.Numeral.scan (c :: cs)).2.length ≤ cs.length := Decimal.length_scan_le hc
  rw [hscan] at hrest
  refine ⟨hrest, ?_⟩
  rw [scanHead, if_neg (Bool.eq_false_iff.mp (isSpace_of_startsNumber hc)), sign_of_startsNumber hc]
  dsimp only
  rw [dif_pos hc]
  simp only [hscan]
  exact if_pos hn

namespace Lexes

variable {c : Char} {cs w : List Char} {syms : List (Symbol α)}

theorem nil : Lexes [] ([] : List (Symbol α)) := by
  intro offset
  refine ⟨[], ?_, rfl⟩
  rw [tokensFrom]

/-- A blank or a token in front. -/
theorem step {found : Option (Symbol α)} {rest : List Char} {hrest : rest.length ≤ cs.length}
    (hhead : scanHead c cs = .ok (found, ⟨rest, hrest⟩)) (h : Lexes rest syms) :
    Lexes (c :: cs) (found.toList ++ syms) := by
  intro offset
  obtain ⟨toks, htoks, rfl⟩ := h (offset + (cs.length + 1 - rest.length))
  cases found with
  | none =>
    refine ⟨toks, ?_, rfl⟩
    rw [tokensFrom, hhead]
    dsimp only
    rw [htoks]
  | some x =>
    refine ⟨⟨x, offset⟩ :: toks, ?_, rfl⟩
    rw [tokensFrom, hhead]
    dsimp only
    rw [htoks]

theorem blank (hc : isSpace c = true) (h : Lexes cs syms) : Lexes (c :: cs) syms :=
  step (if_pos hc) h

theorem sign {x : Symbol α} (hc : sign? c = some x) (h : Lexes cs syms) : Lexes (c :: cs) (x :: syms) := by
  have hhead : scanHead c cs = .ok (some x, ⟨cs, Nat.le_refl _⟩) := by
    rw [scanHead, if_neg (Bool.eq_false_iff.mp (isSpace_of_sign hc)), hc]
  exact step hhead h

theorem word (hc : startsName c = true) (hw : ∀ d ∈ w, inName d = true) (hcs : Boundary cs) (h : Lexes cs syms) :
    Lexes (c :: w ++ cs) (wordSymbol (c :: w) :: syms) := by
  obtain ⟨htake, hdrop⟩ := takeWhile_eq hw fun d hd => (hcs d hd).1
  obtain ⟨hle, hhead⟩ := scanHead_word (α := α) hc (w ++ cs)
  simp only [htake, hdrop] at hhead
  exact step hhead h

/-- A word of one letter. -/
theorem letter (hc : startsName c = true) (hcs : Boundary cs) (h : Lexes cs syms) :
    Lexes (c :: cs) (wordSymbol [c] :: syms) :=
  word (w := []) hc (List.forall_mem_nil _) hcs h

theorem number (whole fraction : List Char) (hwhole : whole ≠ []) (hdigits : ∀ d ∈ whole, d.isDigit = true)
    (hfraction : ∀ d ∈ fraction, d.isDigit = true) (hcs : Boundary cs) (h : Lexes cs syms) :
    Lexes (numeral whole fraction ++ cs) (.number
      (Scalar.ofDecimal (Decimal.natOfDigits (whole ++ fraction)) (0 - (fraction.length : Nat))) :: syms) := by
  have hscan := Decimal.scan_of_numeralText (numeralText_numeral hdigits hfraction) hcs
  match whole, hwhole with
  | c :: whole, _ =>
    have hc : startsNumber c = true := by
      rw [startsNumber, hdigits c List.mem_cons_self, Bool.true_or]
    obtain ⟨hle, hhead⟩ := scanHead_number (α := α) hc hscan rfl
    exact step hhead h

end Lexes

end Texts

end SignalFlow.Reader
