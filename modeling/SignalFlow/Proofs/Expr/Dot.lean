import SignalFlow.Double
import SignalFlow.Expr.Dot
import SignalFlow.Proofs.Text.Framed
import SignalFlow.Proofs.Text.Label

/-!
# Labels in the drawing of an expression

A label has a backslash in front of its quotes, but not in front of its backslashes. Numbers, infinity, operators and
lists have neither (`Decimal.not_mem_text`, `noEscape_nodeLabel_iff`), so their labels show what they are of; the label
of a variable shows its name just when no backslash in the name begins an escape (`label_shown_iff`).
-/

namespace SignalFlow

/-! ## Texts of numbers -/

namespace Decimal

/-- The characters of a number in positional form. -/
def InPlain (c : Char) : Prop := c.isDigit = true ∨ c = '-' ∨ c = '.'

theorem inPlain_of_mem_positionalText {ds : List Char} (hds : ∀ d ∈ ds, InPlain d) (k : Int) :
    ∀ c ∈ positionalText false ds k, InPlain c := by
  have hzeros (n : Nat) : ∀ c ∈ List.replicate n '0', InPlain c := fun c hc => by
    rw [List.eq_of_mem_replicate hc]
    exact .inl rfl
  have hpoint : InPlain '.' := .inr (.inr rfl)
  unfold positionalText
  split
  · rw [if_neg Bool.false_ne_true, List.append_nil]
    exact List.forall_mem_append.mpr ⟨hds, hzeros _⟩
  · dsimp only
    split
    · simp only [List.forall_mem_append, List.forall_mem_cons]
      exact ⟨fun c hc => hds c (List.mem_of_mem_take hc), hpoint, fun c hc => hds c (List.mem_of_mem_drop hc)⟩
    · simp only [List.forall_mem_append, List.forall_mem_cons]
      exact ⟨⟨.inl rfl, hpoint, hzeros _⟩, hds⟩

theorem inPlain_of_mem_write (d : Scaled) : ∀ c ∈ plain.write d, InPlain c := by
  have hdigits : ∀ c ∈ (toString d.digits).toList, InPlain c := fun c hc =>
    .inl (Nat.isDigit_of_mem_toDigits (by decide) (by decide) (Text.toList_toString d.digits ▸ hc))
  unfold Layout.write
  split
  · rintro c hc
    obtain rfl := List.mem_singleton.mp hc
    exact .inl rfl
  · exact inPlain_of_mem_positionalText (fun c hc => hdigits c (List.mem_of_mem_take hc)) _

/-- **The text of a double has no backslash.** -/
theorem not_mem_text (x : Float) : '\\' ∉ (plain.text x).toList := by
  have hfinite (negative : Bool) (m : Nat) (q : Int) : '\\' ∉ (plain.finiteText negative m q).toList := by
    intro h
    rw [Layout.finiteText, String.toList_ofList] at h
    rcases List.mem_append.mp h with h | h
    · cases negative <;> simp at h
    · obtain h | h | h := inPlain_of_mem_write _ _ h <;> cases h
  unfold Layout.text
  cases Binary64.decode x with
  | nan => decide
  | infinite negative => cases negative <;> decide
  | finite negative m q => exact hfinite negative m q

end Decimal

namespace Expr

open Text (NoEscape)

variable {α : Type} [Scalar α]

/-! ## One label -/

theorem decodeLabel_quoteLabel_iff (s : String) (rest : List Char) :
    Text.decodeLabel ((quoteLabel s).toList ++ rest) = some (s.toList, rest) ↔ NoEscape s.toList := by
  rw [← Text.decodeLabel_iff s.toList rest, quoteLabel, String.toList_ofList, List.cons_append, List.cons_append,
    List.append_assoc]
  rfl

/-- **Only names have escapes**: numbers, infinity, operators and lists have none. -/
theorem noEscape_nodeLabel_iff (t : Tree Id Double) :
    NoEscape (nodeLabel t).toList ↔ ∀ name, t.name? = some name → NoEscape name.toList := by
  have hfixed (s : String) (hname : t.name? = none) (hlabel : nodeLabel t = s) (hs : '\\' ∉ s.toList) :
      NoEscape (nodeLabel t).toList ↔ ∀ name, t.name? = some name → NoEscape name.toList := by
    refine iff_of_true (hlabel ▸ Text.noEscape_of_not_mem hs) fun name hn => ?_
    cases hname.symm.trans hn
  cases t with
  | var l name => exact ⟨fun h _ hname => Option.some.inj hname ▸ h, fun h => h name rfl⟩
  | literal l v => exact hfixed _ rfl rfl (Decimal.not_mem_text v.toFloat)
  | infinity l => exact hfixed "oo" rfl rfl (by decide)
  | negate l t => exact hfixed negationSymbol rfl rfl (by decide)
  | binary l op a b => exact hfixed op.symbol rfl rfl (by cases op <;> decide)
  | list l items => exact hfixed "list" rfl rfl (by decide)

/-! ## Drawings -/

/-- What a drawing has before the label of a node, when the nodes `before` come first. -/
def textBefore (before : List (Tree Id α)) (t : Tree Id α) : String :=
  "digraph expr \x7b\n" ++ String.join (before.map nodeLine) ++ "    " ++ nodeName t.label ++ " [label="

/-- What the drawing of an expression has behind the label of a node, when the nodes `after` follow. -/
def textAfter (e : Expr α) (after : List (Tree Id α)) : String :=
  "];\n" ++ String.join (after.map nodeLine) ++ String.join (e.tree.preorder.map edgesBelow) ++ "\x7d\n"

/-- **The label of a node in a drawing**, between what comes before and after it. -/
theorem dot_eq (e : Expr α) {before after : List (Tree Id α)} {t : Tree Id α}
    (h : e.tree.preorder = before ++ t :: after) :
    e.dot = textBefore before t ++ quoteLabel (nodeLabel t) ++ textAfter e after := by
  have hline : nodeLine t = "    " ++ nodeName t.label ++ " [label=" ++ quoteLabel (nodeLabel t) ++ "];\n" := rfl
  -- the fixed texts are hidden, or every rewriting step would compare them with its pattern letter by letter
  unfold dot textBefore textAfter
  generalize "digraph expr \x7b\n" = first
  generalize "\x7d\n" = last
  generalize "    " = indent at hline ⊢
  generalize " [label=" = opening at hline ⊢
  generalize "];\n" = closing at hline ⊢
  rw [h, List.map_append, List.map_cons, String.join_append, String.join_cons, hline]
  simp only [String.append_assoc]

/-- **Which labels of a drawing show what they are of.** The label of a node is read back, and ends where the line goes
on behind it, unless the node is a variable whose name has a backslash before another one, before a quote or at its end.
-/
theorem label_shown_iff (e : Expr Double) {before after : List (Tree Id Double)} {t : Tree Id Double}
    (h : e.tree.preorder = before ++ t :: after) :
    ∃ label : String, e.dot = textBefore before t ++ label ++ textAfter e after ∧
      (Text.decodeLabel (label ++ textAfter e after).toList =
          some ((nodeLabel t).toList, (textAfter e after).toList) ↔
        ∀ name, t.name? = some name → NoEscape name.toList) := by
  refine ⟨quoteLabel (nodeLabel t), dot_eq e h, ?_⟩
  rw [String.toList_append, decodeLabel_quoteLabel_iff, noEscape_nodeLabel_iff]

/-- A name with quotes and a backslash in front of a letter is read back. -/
theorem label_shown_iff_quotes :
    let e : Expr Double := .binary .add (.var "\"a\\b\"") .infinity
    let x : Tree Id Double := .var ⟨0⟩ "\"a\\b\""
    e.tree.preorder = [e.tree] ++ x :: [.infinity ⟨1⟩] ∧
      ∃ label : String, e.dot = textBefore [e.tree] x ++ label ++ textAfter e [.infinity ⟨1⟩] ∧
        Text.decodeLabel (label ++ textAfter e [.infinity ⟨1⟩]).toList =
          some ("\"a\\b\"".toList, (textAfter e [.infinity ⟨1⟩]).toList) := by
  intro e x
  have hwalk : e.tree.preorder = [e.tree] ++ x :: [.infinity ⟨1⟩] := rfl
  obtain ⟨label, hdot, hshown⟩ := label_shown_iff e hwalk
  refine ⟨hwalk, label, hdot, hshown.mpr fun name hname => ?_⟩
  cases hname
  simp [Text.NoEscape]

/-- The label of a name that ends in a backslash does not end at all. -/
theorem label_open_of_backslash :
    (Expr.var "a\\" : Expr Double).dot = "digraph expr \x7b\n    N0 [label=\"a\\\"];\n\x7d\n" ∧
      Text.decodeLabel "\"a\\\"];\n\x7d\n".toList = none :=
  ⟨by decide, by decide⟩

end Expr
end SignalFlow
