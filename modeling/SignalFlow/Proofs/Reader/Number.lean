import SignalFlow.Decimal.Signed
import SignalFlow.Proofs.Reader.Cutting
import SignalFlow.Proofs.Reader.Image

/-!
# Texts that are numbers

A double is written with digits or as a word, each perhaps with one sign in front (`ofText?_eq_some_iff`). Read as an
expression, what is written with digits is the same number, as a minus in front of a number becomes part of it
(`ofText_of_digits`), but a word is a name (`ofText_of_name`).
-/

namespace SignalFlow.Decimal

/-! ## Texts without a sign -/

/-- **A word for a number**, in letters of either case. -/
inductive Worded (cs : List Char) : Float → Prop
  | infinity (h : cs.map Char.toLower = "inf".toList ∨ cs.map Char.toLower = "infinity".toList) : Worded cs (1.0 / 0.0)
  | nan (h : cs.map Char.toLower = "nan".toList) : Worded cs (0.0 / 0.0)

/-- **A text of digits for a number.** -/
inductive Digits (cs : List Char) : Float → Prop
  | mk {n} (hcs : NumeralText cs n) (hn : n.hasDigit = true) : Digits cs (toFloat n.digits n.scale)

/-- What a word begins with. -/
theorem Worded.head {cs : List Char} {x : Float} (h : Worded cs x) :
    ∃ c w, cs = c :: w ∧ (c.toLower = 'i' ∨ c.toLower = 'n') := by
  have hcons {d : Char} {ds : List Char} (hmap : cs.map Char.toLower = d :: ds) :
      ∃ c w, cs = c :: w ∧ c.toLower = d := by
    obtain ⟨c, w, rfl, hc, -⟩ := List.map_eq_cons_iff.mp hmap
    exact ⟨c, w, rfl, hc⟩
  cases h with
  | infinity h =>
    obtain ⟨c, w, hcs, hc⟩ := h.elim (hcons ·) (hcons ·)
    exact ⟨c, w, hcs, .inl hc⟩
  | nan h =>
    obtain ⟨c, w, hcs, hc⟩ := hcons h
    exact ⟨c, w, hcs, .inr hc⟩

theorem toLower_of_isDigit {c : Char} (h : c.isDigit = true) : c.toLower = c := by
  refine dif_neg fun hupper => ?_
  have hle : c.val ≤ '9'.val := of_decide_eq_true (Bool.and_eq_true_iff.mp h).2
  exact absurd (UInt32.le_trans hupper.1 hle) (by decide)

/-- No text of digits is a word. -/
theorem Digits.not_word {cs : List Char} {x y : Float} (h : Digits cs x) : ¬Worded cs y := by
  rintro hword
  obtain ⟨hcs, hn⟩ := h
  obtain ⟨c, w, rfl, hc⟩ := hword.head
  obtain ⟨d, v, hcons, hd⟩ | ⟨d, v, hcons, -⟩ := hcs.head_of_hasDigit hn
  · cases hcons
    rw [toLower_of_isDigit hd] at hc
    rcases hc with rfl | rfl <;> cases hd
  · cases hcons
    revert hc
    decide

/-- How a text without a sign is read: as a word, or else as digits. -/
theorem unsigned?_eq (cs : List Char) : unsigned? cs =
    if cs.map Char.toLower = "inf".toList ∨ cs.map Char.toLower = "infinity".toList then some (1.0 / 0.0)
    else if cs.map Char.toLower = "nan".toList then some (0.0 / 0.0)
    else match Numeral.scan cs with
      | (n, []) => if n.hasDigit then some (toFloat n.digits n.scale) else none
      | _ => none := by
  refine if_congr ?_ rfl rfl
  rw [Bool.or_eq_true, decide_eq_true_eq, decide_eq_true_eq]

theorem unsigned?_of_digits {cs : List Char} {x : Float} (h : Digits cs x) : unsigned? cs = some x := by
  rw [unsigned?_eq, if_neg fun hword => h.not_word (.infinity hword), if_neg fun hword => h.not_word (.nan hword)]
  obtain ⟨hcs, hn⟩ := h
  have hscan := scan_of_numeralText hcs Reader.boundary_nil
  rw [List.append_nil] at hscan
  rw [hscan]
  exact if_pos hn

theorem unsigned?_of_word {cs : List Char} {x : Float} (h : Worded cs x) : unsigned? cs = some x := by
  rw [unsigned?_eq]
  cases h with
  | infinity h => exact if_pos h
  | nan h =>
    have hother : ¬("nan".toList = "inf".toList ∨ "nan".toList = "infinity".toList) := by decide
    rw [h, if_neg hother, if_pos rfl]

/-- The texts of numbers without a sign. -/
theorem unsigned?_eq_some_iff {cs : List Char} {x : Float} : unsigned? cs = some x ↔ Worded cs x ∨ Digits cs x := by
  refine ⟨fun h => ?_, fun h => h.elim unsigned?_of_word unsigned?_of_digits⟩
  rw [unsigned?_eq] at h
  split at h
  case isTrue hword =>
    cases h
    exact .inl (.infinity hword)
  split at h
  case isTrue hword =>
    cases h
    exact .inl (.nan hword)
  split at h
  case h_2 => cases h
  case h_1 n hscan =>
    obtain ⟨w, hcs, hw⟩ := numeralText_scan cs
    rw [hscan, List.append_nil] at hcs
    rw [hscan, ← hcs] at hw
    split at h
    case isFalse => cases h
    case isTrue hn =>
      cases h
      exact .inr ⟨hw, hn⟩

/-! ## Texts with a sign -/

/-- The double of a float with a sign, or none, in front. -/
def withSign (sign : List Char) (x : Float) : Double :=
  if sign = ['-'] then (Double.ofFloat x false).neg else .ofFloat x false

/-- **A text with a sign, or none, in front**, and the double that it is. -/
inductive Signed (P : List Char → Float → Prop) (s : String) : Double → Prop
  | mk {sign w x} (hsign : sign = [] ∨ sign = ['+'] ∨ sign = ['-']) (hs : s.toList = sign ++ w) (hw : P w x) :
      Signed P s (withSign sign x)

theorem head_of_unsigned {w : List Char} {x : Float} (h : Worded w x ∨ Digits w x) :
    ∀ c ∈ w.head?, c ≠ '+' ∧ c ≠ '-' := by
  rcases h with h | ⟨hw, hn⟩
  · obtain ⟨c, v, rfl, hc⟩ := h.head
    rintro c ⟨⟩
    constructor <;> rintro rfl <;> revert hc <;> decide
  · obtain ⟨c, v, rfl, hd⟩ | ⟨d, v, rfl, -⟩ := hw.head_of_hasDigit hn
    · rintro c ⟨⟩
      exact not_sign_of_isDigit hd
    · rintro c ⟨⟩
      decide

theorem ofText?_eq (s : String) : ofText? s = (unsigned? (splitSign s.toList).2).map fun x =>
    if (splitSign s.toList).1 = true then (Double.ofFloat x false).neg else .ofFloat x false := by
  rw [ofText?]
  rcases splitSign s.toList with ⟨_ | _, cs⟩ <;> rfl

theorem ofText?_of_unsigned {s : String} {sign w : List Char} {x : Float}
    (hsign : sign = [] ∨ sign = ['+'] ∨ sign = ['-']) (hs : s.toList = sign ++ w) (h : Worded w x ∨ Digits w x) :
    ofText? s = some (withSign sign x) := by
  simp only [ofText?_eq, hs, splitSign_append hsign (head_of_unsigned h), unsigned?_eq_some_iff.mpr h,
    decide_eq_true_eq]
  rfl

/-- The letters of a text that is a word. -/
theorem Signed.letters {s : String} {v : Double} (h : Signed Worded s v) :
    (splitSign s.toList).2.map Char.toLower ∈ ["inf".toList, "infinity".toList, "nan".toList] := by
  obtain ⟨hsign, hs, hw⟩ := h
  rw [hs, splitSign_append hsign (head_of_unsigned (.inl hw))]
  cases hw with
  | infinity h => rcases h with h | h <;> simp [h]
  | nan h => simp [h]

/-- **The texts of doubles** are words and numerals. -/
theorem ofText?_eq_some_iff {s : String} {v : Double} : ofText? s = some v ↔ Signed Worded s v ∨ Signed Digits s v := by
  constructor
  · intro h
    obtain ⟨sign, hsign, hs, hminus⟩ := splitSign_eq s.toList
    rw [ofText?_eq] at h
    obtain ⟨x, hx, rfl⟩ := Option.map_eq_some_iff.mp h
    simp only [hminus, decide_eq_true_eq]
    rcases unsigned?_eq_some_iff.mp hx with hx | hx
    · exact .inl ⟨hsign, hs, hx⟩
    · exact .inr ⟨hsign, hs, hx⟩
  · rintro (⟨hsign, hs, hw⟩ | ⟨hsign, hs, hw⟩)
    · exact ofText?_of_unsigned hsign hs (.inl hw)
    · exact ofText?_of_unsigned hsign hs (.inr hw)

end SignalFlow.Decimal

namespace SignalFlow.Reader

open Decimal (Signed Digits withSign)

variable {α : Type} [Scalar α]

theorem reads_number (v : α) : Reads .signed [.number v] (.literal () v) [] :=
  .signedOne (.powerOne (.number v []))

/-- **A text of digits is the same number as an expression.** -/
theorem ofText_of_digits {s : String} {v : Double} (h : Signed Digits s v) :
    ∃ e : Expr Double, Expr.ofText s = .ok e ∧ e.tree.term = .literal () v := by
  obtain ⟨hsign, hs, ⟨hw, hn⟩⟩ := h
  rename_i sign w n
  have hend : Longest Double w [] := longest_of_blank nofun
  have hnumber : Lexes w [.number (Scalar.ofDecimal n.digits n.scale : Double)] := by
    simpa using Lexes.lexeme (.number hw hn) hend .nil
  have hlexes : ∃ syms, Lexes (sign ++ w) syms ∧
      Reads .signed syms (.literal () (withSign sign (Decimal.toFloat n.digits n.scale))) [] := by
    rcases hsign with rfl | rfl | rfl
    · exact ⟨_, hnumber, reads_number _⟩
    · exact ⟨_, .sign rfl hnumber, .signedPlus (reads_number _)⟩
    · exact ⟨_, .sign rfl hnumber, .signedMinus (reads_number _)⟩
  obtain ⟨syms, hlexes, hreads⟩ := hlexes
  exact ofText_of_reads s (hs ▸ hlexes) (.sequenceOne (.additiveOne (.termOne hreads))) rfl

/-- **A name is a variable as an expression**, a word for a number among them. -/
theorem ofText_of_name {name : String} (hname : IsName name) (hexp : name ≠ expName) :
    ∃ e : Expr α, Expr.ofText name = .ok e ∧ e.tree.term = .var () name := by
  have hlexes : Lexes name.toList [(.name name : Symbol α)] := by
    simpa using Spells.name hname [] [] boundary_nil .nil
  have hreads : Reads .sequence [(.name name : Symbol α)] (.var () name) [] :=
    .sequenceOne (.additiveOne (.termOne (.signedOne (.powerOne (.name name [])))))
  exact ofText_of_reads name hlexes hreads (calls_var hexp)

end SignalFlow.Reader
