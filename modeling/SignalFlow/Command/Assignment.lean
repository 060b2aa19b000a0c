import SignalFlow.Command.Diagnostic
import SignalFlow.Text.Blank
import SignalFlow.Text.Cut
import SignalFlow.Bindings
import SignalFlow.Decimal.Signed
import SignalFlow.Reader.OfText

/-!
# Bindings written in arguments

A binding is written `NAME=VALUE`, with blanks allowed around each part. A value that is the text of a double is that
number; any other value is an expression.
-/

namespace SignalFlow.Command

/-- The name and the value written in a text, neither of them empty. -/
def assignment? (text : String) : Option (String × String) :=
  match Text.cut? '=' text.toList with
  | none => none
  | some (name, value) =>
    let name := Text.trim name
    let value := Text.trim value
    if name = [] ∨ value = [] then none else some (String.ofList name, String.ofList value)

/-- What a value binds a name to. -/
def bindingOf (value : String) : Except ExprError (Binding Double) :=
  match Decimal.ofText? value with
  | some v => .ok (.value v)
  | none => Binding.expr <$> Expr.ofText value

/-- Adds the bindings of texts, up to the first that is none. -/
def addBindings (T : Bindings Double) : List String → Except CommandError (Bindings Double)
  | [] => .ok T
  | text :: rest =>
    match assignment? text with
    | none => .error (.invalidBinding text)
    | some (name, value) =>
      match bindingOf value with
      | .ok b => addBindings (T.insert name b) rest
      | .error e => .error (.expr e)

/-- **The table of the bindings of texts**; `e` and `pi` are bound from the start. -/
def bindingsOf (texts : List String) : Except CommandError (Bindings Double) := addBindings Bindings.builtin texts

end SignalFlow.Command
