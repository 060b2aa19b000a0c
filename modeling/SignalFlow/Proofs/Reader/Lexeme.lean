import SignalFlow.Proofs.Reader.Lexing

/-!
# Lexemes

`Lexeme w x` says that the characters `w` are a text of the symbol `x`: a sign, a word, or a numeral with a digit before
its exponent. The first character tells which of these it is, and a lexeme has one symbol (`Lexeme.unique`).

At the head of any text there is a blank, or a lexeme that is as long as it can be (`Longest`), or none of both
(`Misfit`): then a numeral without a digit, or a character that begins nothing. The scanner finds which
(`scanHead_cases`), and what it is to find is determined (`scanHead_of_longest`, `scanHead_of_misfit`).
-/

namespace SignalFlow.Reader

open Decimal (NumeralText)

variable {α : Type} [Scalar α]

/-- **A text of a symbol.** -/
inductive Lexeme : List Char → Symbol α → Prop
  | sign {c x} (hc : sign? c = some x) : Lexeme [c] x
  | word {c w} (hc : startsName c = true) (hw : ∀ d ∈ w, inName d = true) : Lexeme (c :: w) (wordSymbol (c :: w))
  | number {w n} (hw : NumeralText w n) (hn : n.hasDigit = true) :
      Lexeme w (.number (Scalar.ofDecimal n.digits n.scale))

variable (α) in
/-- **No longer lexeme begins here**: none goes on into the characters that follow. -/
def Longest (w rest : List Char) : Prop :=
  ∀ p q, rest = p ++ q → ∀ x : Symbol α, Lexeme (w ++ p) x → p = []

variable (α) in
/-- **A text that begins with no blank and no lexeme**, with the reason. -/
inductive Misfit : List Char → ReadFault → Prop
  | number {w rest n} (hw : NumeralText w n) (hne : w ≠ []) (hn : n.hasDigit = false)
      (hnone : ∀ p q, w ++ rest = p ++ q → ∀ x : Symbol α, ¬Lexeme p x) : Misfit (w ++ rest) .invalidNumber
  | character {c rest} (hspace : isSpace c = false) (hnone : ∀ p q, c :: rest = p ++ q → ∀ x : Symbol α, ¬Lexeme p x)
      (hnumeral : ∀ p q, c :: rest = p ++ q → ∀ n, NumeralText p n → p = []) : Misfit (c :: rest) (.unexpectedChar c)

/-! ## First characters -/

namespace Lexeme

variable {c : Char} {w : List Char} {x y : Symbol α}

/-- A lexeme begins with a sign, or as a name or a numeral does. -/
theorem head (h : Lexeme w x) : ∃ c v, w = c :: v ∧
    ((∃ y : Symbol α, sign? c = some y) ∨ startsName c = true ∨ startsNumber c = true) := by
  cases h with
  | sign hc => exact ⟨_, [], rfl, .inl ⟨_, hc⟩⟩
  | word hc => exact ⟨_, _, rfl, .inr (.inl hc)⟩
  | number hw hn =>
    obtain ⟨d, v, rfl, hd⟩ | ⟨d, v, rfl, -⟩ := hw.head_of_hasDigit hn
    · refine ⟨d, v, rfl, .inr (.inr ?_)⟩
      rw [startsNumber, hd, Bool.true_or]
    · exact ⟨'.', d :: v, rfl, .inr (.inr rfl)⟩

theorem ne_nil (h : Lexeme w x) : w ≠ [] := by
  obtain ⟨c, v, rfl, -⟩ := h.head
  exact List.cons_ne_nil c v

/-- A numeral with a digit begins as a number does. -/
theorem startsNumber_of_numeralText {n : Decimal.Numeral} (h : NumeralText (c :: w) n) (hn : n.hasDigit = true) :
    startsNumber c = true := by
  obtain ⟨d, v, hw, hd⟩ | ⟨d, v, hw, -⟩ := h.head_of_hasDigit hn
  · cases hw
    rw [startsNumber, hd, Bool.true_or]
  · cases hw
    rfl

theorem of_sign (h : Lexeme (c :: w) x) (hc : sign? c = some y) : w = [] ∧ x = y := by
  cases h with
  | sign hc' => exact ⟨rfl, Option.some.inj (hc'.symm.trans hc)⟩
  | word hname =>
    rw [sign_of_startsName hname] at hc
    cases hc
  | number hw hn =>
    rw [sign_of_startsNumber (startsNumber_of_numeralText hw hn)] at hc
    cases hc

theorem of_name (h : Lexeme (c :: w) x) (hc : startsName c = true) :
    (∀ d ∈ w, inName d = true) ∧ x = wordSymbol (c :: w) := by
  cases h with
  | sign hsign =>
    rw [sign_of_startsName hc] at hsign
    cases hsign
  | word hname hw => exact ⟨hw, rfl⟩
  | number hw hn =>
    have hnumber := startsNumber_of_numeralText hw hn
    rw [startsNumber_of_startsName hc] at hnumber
    cases hnumber

theorem of_number (h : Lexeme (c :: w) x) (hc : startsNumber c = true) : ∃ n : Decimal.Numeral,
    NumeralText (c :: w) n ∧ n.hasDigit = true ∧ x = .number (Scalar.ofDecimal n.digits n.scale) := by
  cases h with
  | sign hsign =>
    rw [sign_of_startsNumber hc] at hsign
    cases hsign
  | word hname =>
    rw [startsNumber_of_startsName hname] at hc
    cases hc
  | number hw hn => exact ⟨_, hw, hn, rfl⟩

/-- **A lexeme has one symbol.** -/
theorem unique (hx : Lexeme w x) (hy : Lexeme w y) : x = y := by
  cases hx with
  | sign hc => exact (hy.of_sign hc).2.symm
  | word hc => exact (hy.of_name hc).2.symm
  | number hw hn =>
    obtain ⟨c, v, rfl, -⟩ := hy.head
    obtain ⟨m, hm, -, rfl⟩ := hy.of_number (startsNumber_of_numeralText hw hn)
    rw [hw.unique hm]

/-- No lexeme begins with a blank. -/
theorem not_isSpace (h : Lexeme (c :: w) x) : isSpace c = false := by
  obtain ⟨d, v, hw, ⟨y, hsign⟩ | hname | hnumber⟩ := h.head <;> cases hw
  · exact isSpace_of_sign hsign
  · exact isSpace_of_startsName hname
  · exact isSpace_of_startsNumber hnumber

end Lexeme

/-! ## What the scanner finds -/

section Scanner

variable {c : Char} {cs : List Char} {x : Symbol α}

theorem longest_sign (hc : sign? c = some x) : Longest α [c] cs := fun _ _ _ _ h => (h.of_sign hc).1

theorem longest_word (hc : startsName c = true) (cs : List Char) :
    Longest α (c :: cs.takeWhile inName) (cs.dropWhile inName) := by
  intro p q hrest y h
  match p with
  | [] => rfl
  | d :: p =>
    have hd : inName d = true := (h.of_name hc).1 d (List.mem_append_right _ List.mem_cons_self)
    have hstop := List.head?_dropWhile_not inName cs
    rw [hrest] at hstop
    exact absurd hd (Bool.eq_false_iff.mp hstop)

theorem longest_number {w rest : List Char} {n : Decimal.Numeral} (hc : startsNumber c = true)
    (hscan : Decimal.Numeral.scan (c :: w ++ rest) = (n, rest)) : Longest α (c :: w) rest := by
  intro p q hpq y h
  have h' : Lexeme (c :: (w ++ p)) y := h
  obtain ⟨m, hm, -⟩ := h'.of_number hc
  have hle := Decimal.length_scan_le_of_numeralText hm q
  rw [← List.cons_append, List.append_assoc, ← hpq, hscan, hpq, List.length_append] at hle
  exact List.eq_nil_of_length_eq_zero (by omega)

/-- A numeral without a digit is a misfit: were there a lexeme, a digit would be scanned. -/
theorem misfit_number {w rest : List Char} {n : Decimal.Numeral} (hc : startsNumber c = true)
    (hw : NumeralText (c :: w) n) (hn : n.hasDigit = false)
    (hscan : Decimal.Numeral.scan (c :: w ++ rest) = (n, rest)) : Misfit α (c :: w ++ rest) .invalidNumber := by
  refine .number hw (List.cons_ne_nil c w) hn fun p q hpq x h => ?_
  obtain ⟨d, v, rfl, -⟩ := h.head
  obtain ⟨rfl, -⟩ := List.cons.inj hpq
  obtain ⟨m, hm, hdigit, -⟩ := h.of_number hc
  have hscanned := Decimal.hasDigit_scan_of_numeralText hm hdigit q
  rw [← hpq, hscan, hn] at hscanned
  cases hscanned

/-- A character that begins nothing is a misfit. -/
theorem misfit_character (hspace : isSpace c = false) (hsign : (sign? c : Option (Symbol α)) = none)
    (hnumber : ¬startsNumber c = true) (hname : ¬startsName c = true) (cs : List Char) :
    Misfit α (c :: cs) (.unexpectedChar c) := by
  refine .character hspace (fun p q hpq y h => ?_) fun p q hpq n hn => ?_
  · obtain ⟨d, v, rfl, ⟨z, hz⟩ | hd | hd⟩ := h.head <;> cases hpq
    · rw [hsign] at hz
      cases hz
    · exact hname hd
    · exact hnumber hd
  · refine Classical.byContradiction fun hne => ?_
    obtain ⟨d, v, rfl, hd | hd⟩ := hn.head hne <;> cases hpq
    · exact hnumber hd
    · exact hname hd

/-- **What begins as a number** is one that is as long as it can be, or no lexeme. -/
theorem scanHead_startsNumber (hc : startsNumber c = true) (cs : List Char) :
    (∃ w rest, ∃ x : Symbol α, c :: cs = w ++ rest ∧ Lexeme w x ∧ Longest α w rest ∧
        ∃ h, scanHead c cs = .ok (some x, ⟨rest, h⟩)) ∨
      ∃ f, Misfit α (c :: cs) f ∧ scanHead (α := α) c cs = .error f := by
  obtain ⟨w, hcs, hw⟩ := Decimal.numeralText_scan (c :: cs)
  have hle : (Decimal.Numeral.scan (c :: cs)).2.length ≤ cs.length := Decimal.length_scan_le hc
  generalize hscan : Decimal.Numeral.scan (c :: cs) = s at hcs hw hle
  obtain ⟨n, rest⟩ := s
  match w with
  | [] =>
    have hrest : c :: cs = rest := hcs
    subst hrest
    exact absurd hle (Nat.not_succ_le_self _)
  | d :: w =>
    obtain ⟨rfl, -⟩ := List.cons.inj hcs
    by_cases hn : n.hasDigit = true
    case pos =>
      exact .inl ⟨c :: w, rest, _, hcs, .number hw hn, longest_number hc (hcs ▸ hscan), scanHead_number hc hscan hn⟩
    refine .inr ⟨.invalidNumber, ?_, ?_⟩
    · rw [hcs]
      exact misfit_number hc hw (Bool.eq_false_iff.mpr hn) (hcs ▸ hscan)
    · rw [scanHead, if_neg (Bool.eq_false_iff.mp (isSpace_of_startsNumber hc)), sign_of_startsNumber hc]
      dsimp only
      rw [dif_pos hc]
      simp only [hscan]
      exact if_neg hn

/-- **What the scanner finds**: a blank, a lexeme that is as long as it can be, or none of both. -/
theorem scanHead_cases (c : Char) (cs : List Char) :
    (isSpace c = true ∧ ∃ h, scanHead (α := α) c cs = .ok (none, ⟨cs, h⟩)) ∨
      (∃ w rest, ∃ x : Symbol α, c :: cs = w ++ rest ∧ Lexeme w x ∧ Longest α w rest ∧
        ∃ h, scanHead c cs = .ok (some x, ⟨rest, h⟩)) ∨
      ∃ f, Misfit α (c :: cs) f ∧ scanHead (α := α) c cs = .error f := by
  by_cases hspace : isSpace c = true
  case pos => exact .inl ⟨hspace, Nat.le_refl _, if_pos hspace⟩
  refine .inr ?_
  cases hsign : (sign? c : Option (Symbol α)) with
  | some x =>
    refine .inl ⟨[c], cs, x, rfl, .sign hsign, longest_sign hsign, Nat.le_refl _, ?_⟩
    rw [scanHead, if_neg hspace, hsign]
  | none =>
  by_cases hnumber : startsNumber c = true
  case pos => exact scanHead_startsNumber hnumber cs
  by_cases hname : startsName c = true
  case pos =>
    obtain ⟨h, hhead⟩ := scanHead_word (α := α) hname cs
    refine .inl ⟨c :: cs.takeWhile inName, cs.dropWhile inName, _, ?_, ?_, longest_word hname cs, h, hhead⟩
    · rw [List.cons_append, List.takeWhile_append_dropWhile]
    · exact .word hname fun d hd => List.mem_takeWhile_imp hd
  · have hmisfit := misfit_character (Bool.eq_false_iff.mpr hspace) hsign hnumber hname cs
    refine .inr ⟨.unexpectedChar c, hmisfit, ?_⟩
    rw [scanHead, if_neg hspace, hsign]
    dsimp only
    rw [dif_neg hnumber, if_neg hname]

end Scanner

/-! ## What it is to find -/

section Determined

variable {c : Char} {cs w v rest after : List Char} {x y : Symbol α} {f g : ReadFault}

/-- Of two lexemes at the head of a text, each as long as it can be, none is longer. -/
theorem Longest.eq (h : w ++ rest = v ++ after) (hw : Lexeme w x) (hv : Lexeme v y) (hwmax : Longest α w rest)
    (hvmax : Longest α v after) : w = v ∧ rest = after := by
  obtain ⟨p, rfl, rfl⟩ | ⟨p, rfl, rfl⟩ := List.append_eq_append_iff.mp h
  · obtain rfl := hwmax p after rfl y hv
    exact ⟨(List.append_nil w).symm, rfl⟩
  · obtain rfl := hvmax p rest rfl x hw
    exact ⟨List.append_nil v, rfl⟩

namespace Misfit

theorem not_lexeme (h : Misfit α cs f) {p q : List Char} (hpq : cs = p ++ q) : ¬Lexeme p x := by
  cases h with
  | number _ _ _ hnone => exact hnone p q hpq x
  | character _ hnone => exact hnone p q hpq x

theorem head (h : Misfit α cs f) : ∃ c r, cs = c :: r ∧ isSpace c = false := by
  cases h with
  | number hw hne =>
    obtain ⟨c, v, rfl, hc | hc⟩ := hw.head hne
    · exact ⟨c, _, rfl, isSpace_of_startsNumber hc⟩
    · exact ⟨c, _, rfl, isSpace_of_startsName hc⟩
  | character hspace => exact ⟨_, _, rfl, hspace⟩

/-- The reason is determined. -/
theorem unique (hf : Misfit α cs f) (hg : Misfit α cs g) : f = g := by
  generalize hcs : cs = ds at hg
  cases hf with
  | number hw hne =>
    cases hg with
    | number => rfl
    | character _ _ hnumeral => exact absurd (hnumeral _ _ hcs.symm _ hw) hne
  | character _ _ hnumeral =>
    cases hg with
    | number hw hne => exact absurd (hnumeral _ _ hcs _ hw) hne
    | character =>
      cases hcs
      rfl

end Misfit

theorem scanHead_of_isSpace (hc : isSpace c = true) (cs : List Char) :
    ∃ h, scanHead (α := α) c cs = .ok (none, ⟨cs, h⟩) := ⟨Nat.le_refl _, if_pos hc⟩

/-- **The scanner finds a lexeme** that is as long as it can be. -/
theorem scanHead_of_longest (hcs : c :: cs = w ++ rest) (hw : Lexeme w x) (hmax : Longest α w rest) :
    ∃ h, scanHead c cs = .ok (some x, ⟨rest, h⟩) := by
  obtain ⟨hspace, -⟩ | ⟨v, after, y, hv, hy, hvmax, h, hhead⟩ | ⟨f, hf, -⟩ := scanHead_cases (α := α) c cs
  · obtain ⟨d, u, rfl, -⟩ := hw.head
    obtain ⟨rfl, -⟩ := List.cons.inj hcs
    rw [hw.not_isSpace] at hspace
    cases hspace
  · obtain ⟨rfl, rfl⟩ := Longest.eq (hcs.symm.trans hv) hw hy hmax hvmax
    obtain rfl := hw.unique hy
    exact ⟨h, hhead⟩
  · exact absurd hw (hf.not_lexeme hcs)

/-- **The scanner finds why a text is a misfit.** -/
theorem scanHead_of_misfit (h : Misfit α (c :: cs) f) : scanHead (α := α) c cs = .error f := by
  obtain ⟨hspace, -⟩ | ⟨w, rest, x, hcs, hw, -⟩ | ⟨g, hg, hhead⟩ := scanHead_cases (α := α) c cs
  · obtain ⟨d, r, hdr, hd⟩ := h.head
    obtain ⟨rfl, -⟩ := List.cons.inj hdr
    rw [hd] at hspace
    cases hspace
  · exact absurd hw (h.not_lexeme hcs)
  · rw [hhead, h.unique hg]

end Determined

end SignalFlow.Reader
