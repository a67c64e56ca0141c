import Timetable.Decimal

namespace Timetable

/-- A JSON value. Numbers are kept as they are written, members in their order. -/
inductive Json
  | null
  | bool (value : Bool)
  | number (literal : List Char)
  | string (value : String)
  | array (items : List Json)
  | object (members : List (String × Json))
  deriving Repr

namespace Json

def ofNat (n : Nat) : Json := .number (decimalDigits n)

/-- The member of that name; of several the last one counts. -/
def member? (members : List (String × Json)) (name : String) : Option Json :=
  members.reverse.lookup name

/-- The members of a record. An array stands for the record that has these names, in this order
and no others, for its items. -/
def record? (names : List String) : Json → Option (List (String × Json))
  | .object members => some members
  | .array items => if items.length = names.length then some (names.zip items) else none
  | _ => none

/-- The number of 64 bits that is written without sign, fraction or exponent. -/
def word? : Json → Option UInt64
  | .number literal =>
    if literal.all Char.isDigit then
      let v := decimalValue literal
      if v < UInt64.size then some v.toUInt64 else none
    else none
  | _ => none

def hexDigit (n : Nat) : Char := Nat.digitChar (n % 16)

/-- A character inside a quoted string. -/
def charQuoted (c : Char) : List Char :=
  if c = '"' then ['\\', '"']
  else if c = '\\' then ['\\', '\\']
  else if c = '\n' then ['\\', 'n']
  else if c = '\r' then ['\\', 'r']
  else if c = '\t' then ['\\', 't']
  else if c.toNat = 8 then ['\\', 'b']
  else if c.toNat = 12 then ['\\', 'f']
  else if c.toNat < 32 then
    ['\\', 'u', '0', '0', hexDigit (c.toNat / 16), hexDigit c.toNat]
  else [c]

def quoted (s : String) : List Char := '"' :: s.toList.flatMap charQuoted ++ ['"']

def newLine (indent : Nat) : List Char := '\n' :: List.replicate (2 * indent) ' '

/-- The parts on lines of their own between brackets, indented one level more than these. -/
def enclosed (opening closing : Char) (indent : Nat) : List (List Char) → List Char
  | [] => [opening, closing]
  | part :: parts =>
    opening :: newLine (indent + 1) ++ part ++
      parts.flatMap (fun p => ',' :: newLine (indent + 1) ++ p) ++ newLine indent ++ [closing]

mutual

/-- The value over several lines, the first of which is indented already. -/
def pretty (indent : Nat) : Json → List Char
  | .null => "null".toList
  | .bool true => "true".toList
  | .bool false => "false".toList
  | .number literal => literal
  | .string value => quoted value
  | .array items => enclosed '[' ']' indent (prettyItems (indent + 1) items)
  | .object members => enclosed '{' '}' indent (prettyMembers (indent + 1) members)

def prettyItems (indent : Nat) : List Json → List (List Char)
  | [] => []
  | item :: items => pretty indent item :: prettyItems indent items

def prettyMembers (indent : Nat) : List (String × Json) → List (List Char)
  | [] => []
  | (name, value) :: members =>
    (quoted name ++ ':' :: ' ' :: pretty indent value) :: prettyMembers indent members

end

end Json

end Timetable
