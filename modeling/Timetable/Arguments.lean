namespace Timetable

/-- The names of the options that a command takes, with and without a value. -/
structure OptionNames where
  valued : List String
  plain : List String
  deriving Repr, DecidableEq

/-- What a command was given. An option without a value has an empty one here. -/
structure Arguments where
  operands : List String
  options : List (String × String)
  deriving Repr, DecidableEq

/-- Whether an argument is an option and not a value. A lone dash is a value. -/
def isOption (arg : String) : Bool :=
  match arg.toList with
  | '-' :: _ :: _ => true
  | _ => false

/-- The name of an option, and the value that an equals sign joins to it. -/
def splitOption (arg : String) : String × Option String :=
  let cs := arg.toList
  match cs.dropWhile (· ≠ '=') with
  | [] => (arg, none)
  | _ :: value => (String.ofList (cs.takeWhile (· ≠ '=')), some (String.ofList value))

namespace Arguments

def addOperand (operand : String) (a : Arguments) : Arguments :=
  { a with operands := operand :: a.operands }

def addOption (name value : String) (a : Arguments) : Arguments :=
  { a with options := (name, value) :: a.options }

/-- Sorts arguments into operands and options. After a double dash all are operands. -/
def scan? (names : OptionNames) : List String → Option Arguments
  | [] => some ⟨[], []⟩
  | arg :: rest =>
    if arg = "--" then some ⟨rest, []⟩
    else if !isOption arg then (scan? names rest).map (addOperand arg)
    else
      match splitOption arg with
      | (name, some value) =>
        if names.valued.contains name then (scan? names rest).map (addOption name value) else none
      | (name, none) =>
        if names.plain.contains name then (scan? names rest).map (addOption name "")
        else if names.valued.contains name then
          match rest with
          | value :: rest =>
            if isOption value then none else (scan? names rest).map (addOption name value)
          | [] => none
        else none

/-- No option may be given twice. -/
def ofList? (names : OptionNames) (args : List String) : Option Arguments := do
  let a ← scan? names args
  guard (a.options.map Prod.fst).Nodup
  pure a

def value? (a : Arguments) (name : String) : Option String := a.options.lookup name

/-- The operand, if there is exactly one. -/
def operand? (a : Arguments) : Option String :=
  match a.operands with
  | [operand] => some operand
  | _ => none

end Arguments

end Timetable
