import Mathlib.Data.List.TakeWhile
import SignalFlow.Reader.Token

/-!
# The texts of numerals

`NumeralText w n` says that `w` is a text of the numeral `n`: digits, perhaps a point with digits after it, and perhaps
an exponent, which has a digit. There need not be a digit before the exponent. The scanner takes a text of a numeral off
the head of the characters (`numeralText_scan`), and none that is there is longer (`length_scan_le_of_numeralText`).
Where a boundary follows (`Boundary`) it takes just the given text (`scan_of_numeralText`), so a text has one numeral.
-/

namespace SignalFlow.Reader

/-! ## Boundaries -/

theorem inName_of_isDigit {c : Char} (h : c.isDigit = true) : inName c = true := by
  simp [inName, Char.isAlphanum, h]

/-- Where a word or a numeral ends: no character follows that would go on with it. -/
def Boundary (cs : List Char) : Prop := ∀ c ∈ cs.head?, inName c = false ∧ c ≠ '.'

@[simp] theorem boundary_nil : Boundary [] := nofun

@[simp] theorem boundary_cons {c : Char} {cs : List Char} : Boundary (c :: cs) ↔ inName c = false ∧ c ≠ '.' := by
  simp [Boundary]

theorem Boundary.cons {c : Char} {cs : List Char} (hname : inName c = false) (hpoint : (c == '.') = false) :
    Boundary (c :: cs) :=
  boundary_cons.mpr ⟨hname, beq_eq_false_iff_ne.mp hpoint⟩

theorem Boundary.head_digit {cs : List Char} (h : Boundary cs) : ∀ c ∈ cs.head?, c.isDigit = false := fun c hc =>
  Bool.eq_false_iff.mpr fun hdigit => Bool.false_ne_true ((h c hc).1.symm.trans (inName_of_isDigit hdigit))

/-- A run of characters ends where none of them follows. -/
theorem takeWhile_eq {p : Char → Bool} {w cs : List Char} (hw : ∀ c ∈ w, p c = true)
    (hcs : ∀ c ∈ cs.head?, p c = false) : (w ++ cs).takeWhile p = w ∧ (w ++ cs).dropWhile p = cs := by
  rw [List.takeWhile_append_of_pos hw, List.dropWhile_append_of_pos hw]
  match cs with
  | [] => simp
  | c :: cs =>
    have hc := hcs c rfl
    simp [hc]

end SignalFlow.Reader

namespace SignalFlow.Decimal

open Reader (Boundary takeWhile_eq boundary_nil boundary_cons startsNumber startsName)

/-- **The text of a fraction**, with its point, and the digits after the point. -/
inductive FractionText : List Char → List Char → Prop
  | none : FractionText [] []
  | point {ds} (hds : ∀ d ∈ ds, d.isDigit = true) : FractionText ('.' :: ds) ds

/-- **The text of an exponent**, with its letter and its sign, and its value. -/
inductive ExponentText : List Char → Int → Prop
  | none : ExponentText [] 0
  | some {c sign ds} (hc : c = 'e' ∨ c = 'E') (hsign : sign = [] ∨ sign = ['+'] ∨ sign = ['-']) (hne : ds ≠ [])
      (hds : ∀ d ∈ ds, d.isDigit = true) :
      ExponentText (c :: (sign ++ ds)) (if sign = ['-'] then -(natOfDigits ds : Int) else natOfDigits ds)

/-- **The text of a numeral.** -/
inductive NumeralText : List Char → Numeral → Prop
  | mk {whole f fraction x e} (hwhole : ∀ d ∈ whole, d.isDigit = true) (hf : FractionText f fraction)
      (hx : ExponentText x e) : NumeralText (whole ++ (f ++ x)) ⟨whole, fraction, e⟩

/-! ## Heads -/

section Heads

variable {w x f rest : List Char} {e : Int} {fraction : List Char} {n : Numeral}

/-- The letter of an exponent is no digit and no point. -/
theorem not_digit_of_letter {c : Char} (hc : c = 'e' ∨ c = 'E') : c.isDigit = false ∧ c ≠ '.' := by
  rcases hc with rfl | rfl <;> decide

/-- No digit follows where an exponent, or the text after it, begins. -/
theorem ExponentText.head_digit (hx : ExponentText x e) (hrest : ∀ c ∈ rest.head?, c.isDigit = false) :
    ∀ c ∈ (x ++ rest).head?, c.isDigit = false := by
  cases hx with
  | none => exact hrest
  | some hc =>
    intro d hd
    cases hd
    exact (not_digit_of_letter hc).1

theorem FractionText.head_digit (hf : FractionText f fraction) (hrest : ∀ c ∈ rest.head?, c.isDigit = false) :
    ∀ c ∈ (f ++ rest).head?, c.isDigit = false := by
  cases hf with
  | none => exact hrest
  | point =>
    intro d hd
    cases hd
    rfl

/-- What a numeral begins with. -/
theorem NumeralText.head (h : NumeralText w n) (hne : w ≠ []) :
    ∃ c v, w = c :: v ∧ (startsNumber c = true ∨ startsName c = true) := by
  obtain ⟨hwhole, hf, hx⟩ := h
  rename_i whole f fraction x e
  cases whole with
  | cons c whole =>
    refine ⟨c, _, rfl, .inl ?_⟩
    rw [startsNumber, hwhole c List.mem_cons_self, Bool.true_or]
  | nil =>
    cases hf with
    | point => exact ⟨'.', _, rfl, .inl rfl⟩
    | none =>
      cases hx with
      | none => exact absurd rfl hne
      | some hc =>
        refine ⟨_, _, rfl, .inr ?_⟩
        rcases hc with rfl | rfl <;> rfl

/-- A numeral with a digit before its exponent begins with a digit, or with a point and a digit. -/
theorem NumeralText.head_of_hasDigit (h : NumeralText w n) (hn : n.hasDigit = true) :
    (∃ c v, w = c :: v ∧ c.isDigit = true) ∨ ∃ d v, w = '.' :: d :: v ∧ d.isDigit = true := by
  obtain ⟨hwhole, hf, hx⟩ := h
  rename_i whole f fraction x e
  cases whole with
  | cons c whole => exact .inl ⟨c, _, rfl, hwhole c List.mem_cons_self⟩
  | nil =>
    cases hf with
    | none => cases hn
    | point hds =>
      cases fraction with
      | nil => cases hn
      | cons d ds => exact .inr ⟨d, _, rfl, hds d List.mem_cons_self⟩

end Heads

/-! ## The stages of the scanner -/

/-- The exponent at the head of a text, zero if there is none, and the rest of the text. -/
def scanExponent (cs : List Char) : Int × List Char := (exponent? cs).getD (0, cs)

theorem scan_eq (cs : List Char) : Numeral.scan cs =
    let fraction := splitFraction (cs.dropWhile Char.isDigit)
    let exponent := scanExponent fraction.2
    (⟨cs.takeWhile Char.isDigit, fraction.1, exponent.1⟩, exponent.2) := by
  simp only [Numeral.scan, scanExponent]
  split
  case h_1 h => rw [h]; rfl
  case h_2 h => rw [h]; rfl

/-- **The parts of a text that is scanned**, one after the other. -/
theorem scan_append {whole after fraction rest : List Char} {e : Int} (hwhole : ∀ d ∈ whole, d.isDigit = true)
    (hafter : ∀ c ∈ after.head?, c.isDigit = false) {mid : List Char}
    (hfraction : splitFraction after = (fraction, mid)) (hexponent : scanExponent mid = (e, rest)) :
    Numeral.scan (whole ++ after) = (⟨whole, fraction, e⟩, rest) := by
  obtain ⟨htake, hdrop⟩ := takeWhile_eq hwhole hafter
  rw [scan_eq, htake, hdrop, hfraction]
  simp only [hexponent]

/-- A sign is taken off where no other one follows. -/
theorem splitSign_append {sign rest : List Char} (hsign : sign = [] ∨ sign = ['+'] ∨ sign = ['-'])
    (hrest : ∀ c ∈ rest.head?, c ≠ '+' ∧ c ≠ '-') : splitSign (sign ++ rest) = (decide (sign = ['-']), rest) := by
  rcases hsign with rfl | rfl | rfl
  · rw [List.nil_append]
    unfold splitSign
    split
    · exact absurd rfl (hrest _ rfl).2
    · exact absurd rfl (hrest _ rfl).1
    · rfl
  · rfl
  · rfl

/-- A digit is no sign. -/
theorem not_sign_of_isDigit {c : Char} (h : c.isDigit = true) : c ≠ '+' ∧ c ≠ '-' := by
  constructor <;> rintro rfl <;> cases h

/-- An exponent with all the digits that follow. -/
theorem exponent?_append {c : Char} {sign ds : List Char} (hc : c = 'e' ∨ c = 'E')
    (hsign : sign = [] ∨ sign = ['+'] ∨ sign = ['-']) (hne : ds ≠ []) (hds : ∀ d ∈ ds, d.isDigit = true)
    (rest : List Char) :
    exponent? (c :: (sign ++ ds) ++ rest) =
      let digits := ds ++ rest.takeWhile Char.isDigit
      some (if sign = ['-'] then -(natOfDigits digits : Int) else natOfDigits digits, rest.dropWhile Char.isDigit) := by
  have hletter : (c == 'e' || c == 'E') = true := by
    rcases hc with rfl | rfl <;> rfl
  have htake : (ds ++ rest).takeWhile Char.isDigit = ds ++ rest.takeWhile Char.isDigit :=
    List.takeWhile_append_of_pos hds
  have hempty : (ds ++ rest.takeWhile Char.isDigit).isEmpty = false := by
    match ds, hne with
    | d :: ds, _ => rfl
  have hsplit : splitSign (sign ++ ds ++ rest) = (decide (sign = ['-']), ds ++ rest) := by
    rw [List.append_assoc]
    refine splitSign_append hsign fun c hc => ?_
    match ds, hne with
    | d :: ds, _ =>
      cases hc
      exact not_sign_of_isDigit (hds _ List.mem_cons_self)
  rw [List.cons_append, exponent?, if_pos hletter]
  simp only [hsplit, htake, hempty, List.dropWhile_append_of_pos hds, decide_eq_true_eq]
  rfl

theorem scanExponent_append {x rest : List Char} {e : Int} (hx : ExponentText x e) (hrest : Boundary rest) :
    scanExponent (x ++ rest) = (e, rest) := by
  cases hx with
  | none =>
    have hnone : exponent? rest = none := by
      match rest with
      | [] => rfl
      | c :: rest =>
        have hname := (boundary_cons.mp hrest).1
        refine if_neg fun he => ?_
        simp only [Bool.or_eq_true, beq_iff_eq] at he
        rcases he with rfl | rfl <;> exact absurd hname (by decide)
    rw [List.nil_append, scanExponent, hnone]
    rfl
  | some hc hsign hne hds =>
    obtain ⟨htake, hdrop⟩ := takeWhile_eq (w := []) nofun hrest.head_digit
    rw [scanExponent, exponent?_append hc hsign hne hds]
    simp only [List.nil_append] at htake hdrop
    simp only [htake, hdrop, List.append_nil, Option.getD_some]

/-! ## What is scanned -/

theorem splitFraction_append {f fraction rest : List Char} (hf : FractionText f fraction)
    (hrest : ∀ c ∈ rest.head?, c.isDigit = false ∧ c ≠ '.') : splitFraction (f ++ rest) = (fraction, rest) := by
  cases hf with
  | none =>
    match rest with
    | [] => rfl
    | c :: rest =>
      rw [List.nil_append, splitFraction]
      intro rest' h
      cases h
      exact (hrest _ rfl).2 rfl
  | point hds =>
    obtain ⟨htake, hdrop⟩ := takeWhile_eq hds fun c hc => (hrest c hc).1
    rw [List.cons_append, splitFraction, htake, hdrop]

/-- **A text of a numeral is read back** where a boundary follows. -/
theorem scan_of_numeralText {w rest : List Char} {n : Numeral} (h : NumeralText w n) (hrest : Boundary rest) :
    Numeral.scan (w ++ rest) = (n, rest) := by
  obtain ⟨hwhole, hf, hx⟩ := h
  have hpoint : ∀ c ∈ (_ ++ rest).head?, c.isDigit = false ∧ c ≠ '.' := fun c hc =>
    ⟨hx.head_digit hrest.head_digit c hc, by
      cases hx with
      | none => exact (hrest c hc).2
      | some hletter =>
        cases hc
        exact (not_digit_of_letter hletter).2⟩
  rw [List.append_assoc, List.append_assoc]
  exact scan_append hwhole (hf.head_digit (hx.head_digit hrest.head_digit)) (splitFraction_append hf hpoint)
    (scanExponent_append hx hrest)

/-- The text of a fraction is taken off. -/
theorem fractionText_split (cs : List Char) :
    ∃ f, cs = f ++ (splitFraction cs).2 ∧ FractionText f (splitFraction cs).1 := by
  unfold splitFraction
  split
  case h_1 cs =>
    refine ⟨'.' :: cs.takeWhile Char.isDigit, ?_, .point fun d hd => List.mem_takeWhile_imp hd⟩
    rw [List.cons_append, List.takeWhile_append_dropWhile]
  case h_2 => exact ⟨[], rfl, .none⟩

theorem splitSign_eq (cs : List Char) : ∃ sign, (sign = [] ∨ sign = ['+'] ∨ sign = ['-']) ∧
    cs = sign ++ (splitSign cs).2 ∧ (splitSign cs).1 = decide (sign = ['-']) := by
  unfold splitSign
  split
  case h_1 => exact ⟨['-'], .inr (.inr rfl), rfl, rfl⟩
  case h_2 => exact ⟨['+'], .inr (.inl rfl), rfl, rfl⟩
  case h_3 => exact ⟨[], .inl rfl, rfl, rfl⟩

/-- The text of an exponent is taken off, the empty one where none is. -/
theorem exponentText_scan (cs : List Char) :
    ∃ x, cs = x ++ (scanExponent cs).2 ∧ ExponentText x (scanExponent cs).1 := by
  have hnone (h : exponent? cs = none) : ∃ x, cs = x ++ (scanExponent cs).2 ∧ ExponentText x (scanExponent cs).1 := by
    rw [scanExponent, h]
    exact ⟨[], rfl, .none⟩
  match cs with
  | [] => exact hnone rfl
  | c :: cs =>
    by_cases hc : (c == 'e' || c == 'E') = true
    case neg => exact hnone (if_neg hc)
    by_cases hempty : ((splitSign cs).2.takeWhile Char.isDigit).isEmpty = true
    case pos =>
      refine hnone ?_
      rw [exponent?, if_pos hc]
      exact if_pos hempty
    obtain ⟨sign, hsign, hcs, hminus⟩ := splitSign_eq cs
    have hscan : scanExponent (c :: cs) =
        (if sign = ['-'] then -(natOfDigits ((splitSign cs).2.takeWhile Char.isDigit) : Int)
          else natOfDigits ((splitSign cs).2.takeWhile Char.isDigit), (splitSign cs).2.dropWhile Char.isDigit) := by
      rw [scanExponent, exponent?, if_pos hc]
      simp only [if_neg hempty, hminus, decide_eq_true_eq]
      rfl
    generalize (splitSign cs).2 = after at hcs hempty hscan
    rw [hscan]
    refine ⟨c :: (sign ++ after.takeWhile Char.isDigit), ?_, .some (by simpa using hc) hsign ?_ ?_⟩
    · rw [List.cons_append, List.append_assoc, List.takeWhile_append_dropWhile, ← hcs]
    · exact fun h => hempty (List.isEmpty_iff.mpr h)
    · exact fun d hd => List.mem_takeWhile_imp hd

/-- **What is scanned is a text of the numeral**, and the rest follows it. -/
theorem numeralText_scan (cs : List Char) :
    ∃ w, cs = w ++ (Numeral.scan cs).2 ∧ NumeralText w (Numeral.scan cs).1 := by
  obtain ⟨f, hf, hfraction⟩ := fractionText_split (cs.dropWhile Char.isDigit)
  obtain ⟨x, hx, hexponent⟩ := exponentText_scan (splitFraction (cs.dropWhile Char.isDigit)).2
  rw [scan_eq]
  refine ⟨cs.takeWhile Char.isDigit ++ (f ++ x), ?_, .mk (fun d hd => List.mem_takeWhile_imp hd) hfraction hexponent⟩
  dsimp only
  rw [List.append_assoc, List.append_assoc, ← hx, ← hf, List.takeWhile_append_dropWhile]

/-- **No text of a numeral at the head of the characters is longer** than what is scanned. -/
theorem length_scan_le_of_numeralText {w : List Char} {n : Numeral} (h : NumeralText w n) (rest : List Char) :
    (Numeral.scan (w ++ rest)).2.length ≤ rest.length := by
  obtain ⟨hwhole, hf, hx⟩ := h
  rw [List.append_assoc, List.append_assoc]
  cases hx with
  | none =>
    refine Nat.le_trans (length_scan_le_fraction _) ?_
    rw [List.dropWhile_append_of_pos hwhole, List.nil_append]
    cases hf with
    | none => exact Nat.le_trans (length_splitFraction_le _) (length_dropWhile_le _ _)
    | point hds =>
      show (List.dropWhile _ (_ ++ rest)).length ≤ _
      rw [List.dropWhile_append_of_pos hds]
      exact length_dropWhile_le _ _
  | some hc hsign hne hds =>
    rename_i c sign ds
    have hhead : ∀ d ∈ (c :: (sign ++ ds) ++ rest).head?, d.isDigit = false ∧ d ≠ '.' := by
      intro d hd
      cases hd
      exact not_digit_of_letter hc
    have hexponent : ∃ e, scanExponent (c :: (sign ++ ds) ++ rest) = (e, rest.dropWhile Char.isDigit) := by
      rw [scanExponent, exponent?_append hc hsign hne hds]
      exact ⟨_, rfl⟩
    obtain ⟨e, hexponent⟩ := hexponent
    rw [scan_append hwhole (hf.head_digit fun d hd => (hhead d hd).1) (splitFraction_append hf hhead) hexponent]
    exact length_dropWhile_le _ _

/-- Where a numeral with a digit stands at the head, one is scanned. -/
theorem hasDigit_scan_of_numeralText {w : List Char} {n : Numeral} (h : NumeralText w n) (hn : n.hasDigit = true)
    (rest : List Char) : (Numeral.scan (w ++ rest)).1.hasDigit = true := by
  rw [scan_eq]
  obtain ⟨d, v, rfl, hd⟩ | ⟨d, v, rfl, hd⟩ := h.head_of_hasDigit hn
  · simp only [List.cons_append, List.takeWhile_cons_of_pos hd, Numeral.hasDigit, List.isEmpty_cons, Bool.false_and,
      Bool.not_false]
  · have hpoint : Char.isDigit '.' ≠ true := by decide
    simp only [List.cons_append, List.dropWhile_cons_of_neg hpoint, splitFraction, List.takeWhile_cons_of_pos hd,
      Numeral.hasDigit, List.isEmpty_cons, Bool.and_false, Bool.not_false]

/-- A text is that of one numeral. -/
theorem NumeralText.unique {w : List Char} {n m : Numeral} (hn : NumeralText w n) (hm : NumeralText w m) : n = m := by
  have hscan := scan_of_numeralText hn boundary_nil
  rw [scan_of_numeralText hm boundary_nil] at hscan
  exact (congrArg Prod.fst hscan).symm

end SignalFlow.Decimal
