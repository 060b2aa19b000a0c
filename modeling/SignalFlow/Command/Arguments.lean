import SignalFlow.Command.Switch
import SignalFlow.Text.Cut

/-!
# Arguments

The arguments of a command are texts that stand for themselves, and options. An option is named after two hyphens or by
its letter after one; its value follows in the next argument, after an equals sign, or right after the letter. A value
in an argument of its own does not begin with a hyphen, a single hyphen apart. After an argument of just two hyphens
there are no options.
-/

namespace SignalFlow.Command

/-- **How an argument is read** where options are admitted. -/
inductive Word where
  /-- It stands for itself. -/
  | plain
  /-- No options follow. -/
  | divider
  /-- An option, with the value that the argument holds. -/
  | option (o : Switch) (value : Option String)
  | unknown
deriving DecidableEq, Repr

namespace Word

/-- An option of the given ones, or an unknown word. -/
def ofSwitch? (o : Option Switch) (value : Option (List Char)) : Word :=
  match o with
  | some o => .option o (value.map String.ofList)
  | none => .unknown

/-- The word after two hyphens: a name, and a value after an equals sign. -/
def ofName (allowed : List Switch) (cs : List Char) : Word :=
  let (name, value) := match Text.cut? '=' cs with
    | some (name, value) => (name, some value)
    | none => (cs, none)
  ofSwitch? (allowed.find? (·.name.toList = name)) value

/-- The word after one hyphen: a letter, and a value that may follow an equals sign. -/
def ofLetter (allowed : List Switch) (letter : Char) (cs : List Char) : Word :=
  let value := match cs with
    | [] => none
    | '=' :: value => some value
    | value => some value
  ofSwitch? (allowed.find? (·.letter? = some letter)) value

/-- **The word of an argument**, where some options are allowed. -/
def ofArgument (allowed : List Switch) (arg : String) : Word :=
  match arg.toList with
  | ['-', '-'] => .divider
  | '-' :: '-' :: cs => ofName allowed cs
  | '-' :: letter :: cs => ofLetter allowed letter cs
  | _ => .plain

end Word

/-- **The arguments of a command**, options and other texts each in the order given. -/
structure Arguments where
  texts : List String := []
  flags : List Switch := []
  values : List (Switch × String) := []
deriving DecidableEq, Repr

namespace Arguments

/-- Puts a text in front. -/
def addText (text : String) (a : Arguments) : Arguments := { a with texts := text :: a.texts }

/-- Puts an option without a value in front. -/
def addFlag (o : Switch) (a : Arguments) : Arguments := { a with flags := o :: a.flags }

/-- Puts an option with a value in front. -/
def addValue (o : Switch) (value : String) (a : Arguments) : Arguments := { a with values := (o, value) :: a.values }

/-- Sorts arguments, unless an option is unknown, lacks its value or has one that it does not take. -/
def sort? (allowed : List Switch) : List String → Option Arguments
  | [] => some {}
  | arg :: rest =>
    match Word.ofArgument allowed arg with
    | .plain => (sort? allowed rest).map (addText arg)
    | .divider => some { texts := rest }
    | .unknown => none
    | .option o value =>
      match o.kind, value with
      | .flag, none => (sort? allowed rest).map (addFlag o)
      | .flag, some _ => none
      | _, some value => (sort? allowed rest).map (addValue o value)
      | _, none =>
        match rest with
        | [] => none
        | value :: rest =>
          if Word.ofArgument [] value = .plain then (sort? allowed rest).map (addValue o value) else none

/-- **The arguments of a command** with some options allowed, each as often as it may be given. -/
def read? (allowed : List Switch) (args : List String) : Option Arguments := do
  let a ← sort? allowed args
  if a.flags.Nodup ∧ ((a.values.map (·.1)).filter (·.kind = .single)).Nodup then return a else none

/-- Whether an option without a value is given. -/
def has (a : Arguments) (o : Switch) : Bool := a.flags.contains o

/-- The values of an option in the order given. -/
def all (a : Arguments) (o : Switch) : List String := (a.values.filter (·.1 = o)).map (·.2)

/-- The first value of an option. -/
def first? (a : Arguments) (o : Switch) : Option String := a.values.lookup o

end Arguments

end SignalFlow.Command
