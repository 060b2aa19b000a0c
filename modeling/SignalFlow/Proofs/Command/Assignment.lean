import SignalFlow.Command.Assignment
import SignalFlow.Proofs.Expr.Alike
import SignalFlow.Proofs.Reader.Number
import SignalFlow.Proofs.Text.Parts

/-!
# What bindings in arguments mean

A binding is a name and a value around the first equals sign (`Assigns`). A value that is written with digits may as
well be read as an expression, which is the same number (`bindingOf_alike`). A value that is one of the words `inf`,
`infinity` and `nan` may not: to an expression it is a name. So every expression has the same result as if each value
but the words were an expression (`Defines`, `bindingsOf_agrees`).
-/

namespace SignalFlow.Command

open Decimal (Signed Worded Digits)

/-! ## Texts of bindings -/

/-- **How a binding is written**: a name and a value around the first equals sign. -/
def Assigns (text name value : String) : Prop :=
  ∃ before after, text.toList = before ++ '=' :: after ∧ '=' ∉ before ∧ Text.Part before name ∧ Text.Part after value

theorem assignment?_eq_some_iff {text name value : String} :
    assignment? text = some (name, value) ↔ Assigns text name value := by
  have hcut : Assigns text name value ↔ ∃ before after, Text.cut? '=' text.toList = some (before, after) ∧
      Text.Part before name ∧ Text.Part after value := by
    simp only [Assigns, Text.cut?_eq_some_iff, and_assoc]
  rw [hcut, assignment?]
  rcases Text.cut? '=' text.toList with _ | ⟨before, after⟩
  · simp
  · simp [Text.part_iff, and_assoc, and_left_comm, eq_comm (a := name), eq_comm (a := value)]

/-- **What a text defines.** A value that is a word for a number is this number; every other value is an expression. -/
inductive Defines (text : String) : String × Binding Double → Prop
  | word {name value v} (h : Assigns text name value) (hword : Signed Worded value v) : Defines text (name, .value v)
  | expr {name value e} (h : Assigns text name value) (hword : ∀ v, ¬Signed Worded value v)
      (he : Expr.ofText value = .ok e) : Defines text (name, .expr e)

/-- A value with other letters is an expression. -/
theorem Defines.of_letters {text name value : String} {e : Expr Double} (h : assignment? text = some (name, value))
    (hletters : (Decimal.splitSign value.toList).2.map Char.toLower ∉ ["inf".toList, "infinity".toList, "nan".toList])
    (he : Expr.ofText value = .ok e) : Defines text (name, .expr e) :=
  .expr (assignment?_eq_some_iff.mp h) (fun _ hword => hletters hword.letters) he

/-! ## Bindings -/

theorem bindingOf_word {value : String} {v : Double} (h : Signed Worded value v) :
    bindingOf value = .ok (.value v) := by
  rw [bindingOf, Decimal.ofText?_eq_some_iff.mpr (.inl h)]

/-- A value that is an expression is bound to this expression, or to a number that is alike. -/
theorem bindingOf_alike {value : String} {e : Expr Double} (hword : ∀ v, ¬Signed Worded value v)
    (he : Expr.ofText value = .ok e) : ∃ b, bindingOf value = .ok b ∧ b.Alike (.expr e) := by
  unfold bindingOf
  cases hread : Decimal.ofText? value with
  | none =>
    rw [he]
    exact ⟨.expr e, rfl, .same _⟩
  | some v =>
    have hdigits := (Decimal.ofText?_eq_some_iff.mp hread).resolve_left (hword v)
    obtain ⟨e', he', hterm⟩ := Reader.ofText_of_digits hdigits
    cases he.symm.trans he'
    exact ⟨.value v, rfl, .number hterm⟩

theorem addBindings_cons {text name value : String} {b : Binding Double} (h : Assigns text name value)
    (hb : bindingOf value = .ok b) (T : Bindings Double) (rest : List String) :
    addBindings T (text :: rest) = addBindings (T.insert name b) rest := by
  rw [addBindings, assignment?_eq_some_iff.mpr h]
  simp only [hb]

/-- **A text that defines something binds its name** to that, or to what is alike. -/
theorem Defines.adds {text : String} {d : String × Binding Double} (h : Defines text d) :
    ∃ b : Binding Double, b.Alike d.2 ∧ ∀ (T : Bindings Double) (rest : List String),
      addBindings T (text :: rest) = addBindings (T.insert d.1 b) rest := by
  cases h with
  | word h hword => exact ⟨_, .same _, addBindings_cons h (bindingOf_word hword)⟩
  | expr h hword he =>
    obtain ⟨b, hb, halike⟩ := bindingOf_alike hword he
    exact ⟨b, halike, addBindings_cons h hb⟩

/-- **Definitions made one after the other**, in place of those of the same name. -/
def defineAll (T : Bindings Double) (defs : List (String × Binding Double)) : Bindings Double :=
  defs.foldl (fun T d => T.insert d.1 d.2) T

theorem addBindings_alike {T U : Bindings Double} (h : T.Alike U) {texts : List String}
    {defs : List (String × Binding Double)} (hdefs : List.Forall₂ Defines texts defs) :
    ∃ T', addBindings T texts = .ok T' ∧ T'.Alike (defineAll U defs) := by
  induction hdefs generalizing T U with
  | nil => exact ⟨T, rfl, h⟩
  | @cons text d texts defs hd _ ih =>
    obtain ⟨b, halike, hstep⟩ := hd.adds
    obtain ⟨T', hok, hT'⟩ := ih (h.insert halike d.1)
    exact ⟨T', (hstep T texts).trans hok, hT'⟩

/-- **A binding means its expression.** Texts of bindings have a table, and with it every expression has the same result
as with `e`, `pi` and the definitions made one after the other: a name stands for the expression of its value, also
where the value is written as a number, and only a word is a number from the start. -/
theorem bindingsOf_agrees {texts : List String} {defs : List (String × Binding Double)}
    (h : List.Forall₂ Defines texts defs) : ∃ T, bindingsOf texts = .ok T ∧
      ∀ e : Expr Double, e.evaluate T = e.evaluate (defineAll Bindings.builtin defs) := by
  obtain ⟨T, hok, halike⟩ := addBindings_alike (.refl Bindings.builtin) h
  exact ⟨T, hok, Expr.evaluate_of_alike halike⟩

/-- A number, a name and a word. -/
theorem bindingsOf_agrees_three : ∃ defs, List.Forall₂ Defines ["k=-2.5", " gain = k", "w=+Inf"] defs ∧
    ∃ T, bindingsOf ["k=-2.5", " gain = k", "w=+Inf"] = .ok T ∧
      ∀ e : Expr Double, e.evaluate T = e.evaluate (defineAll Bindings.builtin defs) := by
  have hdigits : Decimal.NumeralText (['2'] ++ ('.' :: ['5'] ++ [])) ⟨['2'], ['5'], 0⟩ :=
    .mk (List.all_eq_true.mp rfl) (.point (List.all_eq_true.mp rfl)) .none
  obtain ⟨k, hk, -⟩ := Reader.ofText_of_digits (s := "-2.5") (.mk (.inr (.inr rfl)) rfl (.mk hdigits rfl))
  obtain ⟨gain, hgain, -⟩ : ∃ e : Expr Double, Expr.ofText "k" = .ok e ∧ e.tree.term = .var () "k" :=
    Reader.ofText_of_name ⟨⟨'k', [], rfl, rfl, nofun⟩, by decide⟩ (by decide)
  have hinfinity : Signed Worded "+Inf" (Decimal.withSign ['+'] (1.0 / 0.0)) :=
    .mk (.inr (.inl rfl)) rfl (.infinity (.inl (by decide)))
  have hdefs : List.Forall₂ Defines ["k=-2.5", " gain = k", "w=+Inf"]
      [("k", .expr k), ("gain", .expr gain), ("w", .value (Decimal.withSign ['+'] (1.0 / 0.0)))] :=
    .cons (.of_letters (by decide) (by decide) hk) (.cons (.of_letters (by decide) (by decide) hgain)
      (.cons (.word (assignment?_eq_some_iff.mp (by decide)) hinfinity) .nil))
  exact ⟨_, hdefs, bindingsOf_agrees hdefs⟩

/-- **A word is not read as an expression**: `inf` is infinity, and as an expression a name without a value. -/
theorem bindingsOf_word : ∃ (T : Bindings Double) (value : Expr Double), bindingsOf ["x=inf"] = .ok T ∧
    Expr.ofText "inf" = .ok value ∧ (Expr.var "x").evaluate T = .ok (.ofFloat (1.0 / 0.0) false) ∧
    (Expr.var "x").evaluate (Bindings.builtin.insert "x" (.expr value)) = .error (.undefinedVariable "inf") := by
  obtain ⟨value, hvalue, hterm⟩ : ∃ e : Expr Double, Expr.ofText "inf" = .ok e ∧ e.tree.term = .var () "inf" :=
    Reader.ofText_of_name ⟨⟨'i', ['n', 'f'], rfl, rfl, List.all_eq_true.mp rfl⟩, by decide⟩ (by decide)
  have hword : Signed Worded "inf" (Decimal.withSign [] (1.0 / 0.0)) :=
    .mk (.inl rfl) rfl (.infinity (.inl (by decide)))
  have hassigns : Assigns "x=inf" "x" "inf" := assignment?_eq_some_iff.mp (by decide)
  refine ⟨_, value, addBindings_cons hassigns (bindingOf_word hword) _ [], hvalue, ?_, ?_⟩
  · rw [Expr.evaluate_eq_valueWithin, Bindings.value_of_term_var (x := "x") rfl, Bindings.valueWithin_eq,
      Bindings.get?_insert]
    rfl
  · rw [Expr.evaluate_eq_valueWithin, Bindings.value_of_term_var (x := "x") rfl, Bindings.valueWithin_eq,
      Bindings.get?_insert]
    show value.tree.value _ = _
    rw [Bindings.value_of_term_var hterm, Bindings.valueWithin_eq, Bindings.get?_insert]
    rfl

end SignalFlow.Command
