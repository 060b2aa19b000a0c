import Mathlib.Data.List.Basic
import SignalFlow.Proofs.Reader.Numeral

/-!
# Texts that show where they end

A way of writing is framed (`Framed`) if, whatever follows a text, it can be seen what was written and where it ends. A
choice between such texts is of this kind, and so is a list of them (`Framed.either`, `Framed.list`). A number shows
where it ends if something other than a digit follows (`number_append_inj`). A label ends at the first quote that has no
backslash in front, so it can be read back (`readLabel`, `readLabel_append`).
-/

namespace SignalFlow.Text

variable {β γ : Type}

/-- **A way of writing that shows what was written and where it ends.** -/
def Framed (w : β → List Char) : Prop := ∀ a b r s, w a ++ r = w b ++ s → a = b ∧ r = s

namespace Framed

variable {w : β → List Char} {v : γ → List Char}

/-- What is read back, whatever follows. -/
theorem of_read {read : List Char → Option (γ × List Char)} {f : β → γ} (hf : Function.Injective f)
    (hread : ∀ a rest, read (w a ++ rest) = some (f a, rest)) : Framed w := by
  intro a b r s h
  have hsame : some (f a, r) = some (f b, s) := by rw [← hread a r, ← hread b s, h]
  obtain ⟨hab, hrs⟩ := Prod.mk.inj (Option.some.inj hsame)
  exact ⟨hf hab, hrs⟩

/-- One or the other, where no text begins both ways. -/
theorem either (hw : Framed w) (hv : Framed v) (hne : ∀ a x r s, w a ++ r ≠ v x ++ s) : Framed (Sum.elim w v) := by
  rintro (a | x) (b | y) r s h
  · obtain ⟨rfl, rfl⟩ := hw _ _ _ _ h
    exact ⟨rfl, rfl⟩
  · exact absurd h (hne a y r s)
  · exact absurd h.symm (hne b x s r)
  · obtain ⟨rfl, rfl⟩ := hv _ _ _ _ h
    exact ⟨rfl, rfl⟩

/-- Any number of texts, up to an end that begins like none of them. -/
theorem list (hw : Framed w) {stop : List Char} (hstop : ∀ a r s, w a ++ r ≠ stop ++ s) :
    Framed fun as : List β => as.flatMap w ++ stop := by
  have hcons (a : β) (as : List β) (r s : List Char) : (a :: as).flatMap w ++ stop ++ r ≠ stop ++ s := by
    rw [List.flatMap_cons, List.append_assoc, List.append_assoc]
    exact hstop a _ s
  intro as
  induction as with
  | nil =>
    intro bs r s h
    cases bs with
    | nil => exact ⟨rfl, List.append_cancel_left h⟩
    | cons b bs => exact absurd h.symm (hcons b bs s r)
  | cons a as ih =>
    intro bs r s h
    cases bs with
    | nil => exact absurd h (hcons a as r s)
    | cons b bs =>
      simp only [List.flatMap_cons, List.append_assoc] at h
      obtain ⟨rfl, hrest⟩ := hw _ _ _ _ h
      obtain ⟨rfl, rfl⟩ := ih bs r s (by simpa using hrest)
      exact ⟨rfl, rfl⟩

end Framed

/-! ## Numbers -/

theorem toList_toString (n : Nat) : (toString n).toList = Nat.toDigits 10 n := String.toList_ofList

/-- **A number shows where it ends** if something other than a digit follows. -/
theorem number_append_inj {n m : Nat} {r s : List Char} (hr : ∀ c ∈ r.head?, c.isDigit = false)
    (hs : ∀ c ∈ s.head?, c.isDigit = false) (h : (toString n).toList ++ r = (toString m).toList ++ s) :
    n = m ∧ r = s := by
  have hdigits (k : Nat) : ∀ c ∈ Nat.toDigits 10 k, c.isDigit = true := fun c hc =>
    Nat.isDigit_of_mem_toDigits (by decide) (by decide) hc
  obtain ⟨htake, hdrop⟩ := Reader.takeWhile_eq (hdigits n) hr
  obtain ⟨htake', hdrop'⟩ := Reader.takeWhile_eq (hdigits m) hs
  simp only [toList_toString] at h
  rw [h] at htake hdrop
  have hnumber := congrArg (Nat.ofDigitChars 10 · 0) (htake.symm.trans htake')
  simp only [Nat.ofDigitChars_ten_toDigits] at hnumber
  exact ⟨hnumber, hdrop.symm.trans hdrop'⟩

/-! ## Labels -/

/-- What stands up to the first quote without a backslash, and what follows. A backslash stands for the character behind
it. -/
def readToQuote : List Char → Option (List Char × List Char)
  | [] => none
  | '"' :: rest => some ([], rest)
  | '\\' :: c :: rest => (readToQuote rest).map fun r => (c :: r.1, r.2)
  | c :: rest => (readToQuote rest).map fun r => (c :: r.1, r.2)

/-- **What stands in the label** at the head of a text, and what follows it. -/
def readLabel : List Char → Option (List Char × List Char)
  | '"' :: rest => readToQuote rest
  | _ => none

/-- **A text in a label is read back** if its quotes and backslashes have a backslash in front. -/
theorem readLabel_append {escape : Char → List Char}
    (hescape : ∀ c, escape c = ['\\', c] ∨ (escape c = [c] ∧ c ≠ '"' ∧ c ≠ '\\')) (cs rest : List Char) :
    readLabel ('"' :: (cs.flatMap escape ++ '"' :: rest)) = some (cs, rest) := by
  show readToQuote _ = _
  induction cs with
  | nil => rfl
  | cons c cs ih =>
    rw [List.flatMap_cons, List.append_assoc]
    rcases hescape c with hc | ⟨hc, hquote, hslash⟩
    · rw [hc, List.cons_append, List.singleton_append, readToQuote, ih]
      rfl
    · rw [hc, List.singleton_append, readToQuote]
      · rw [ih]
        rfl
      · exact hquote
      · exact fun d ds h => absurd h hslash

example : readLabel "\"a\\\"b\\\\\"];".toList = some ("a\"b\\".toList, "];".toList) := by decide

end SignalFlow.Text
