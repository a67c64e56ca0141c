import Timetable.Json

namespace Timetable

namespace Json

def skipSpace (cs : List Char) : List Char :=
  cs.dropWhile fun c => [' ', '\t', '\n', '\r'].contains c

def hexValue? (c : Char) : Option Nat :=
  if c.isDigit then some (c.toNat - 48)
  else if 'a' ≤ c ∧ c ≤ 'f' then some (c.toNat - 87)
  else if 'A' ≤ c ∧ c ≤ 'F' then some (c.toNat - 55)
  else none

/-- Four hexadecimal digits. -/
def readUnit? : List Char → Option (Nat × List Char)
  | a :: b :: c :: d :: rest => do
    let a ← hexValue? a
    let b ← hexValue? b
    let c ← hexValue? c
    let d ← hexValue? d
    pure (((a * 16 + b) * 16 + c) * 16 + d, rest)
  | _ => none

/-- The rest of a `\u` escape. A code point above 65535 takes two escapes. -/
def readCodePoint? (cs : List Char) : Option (Char × List Char) := do
  let (high, rest) ← readUnit? cs
  if 0xD800 ≤ high ∧ high < 0xDC00 then
    match rest with
    | '\\' :: 'u' :: rest => do
      let (low, rest) ← readUnit? rest
      guard (0xDC00 ≤ low ∧ low < 0xE000)
      pure (Char.ofNat (0x10000 + (high - 0xD800) * 0x400 + (low - 0xDC00)), rest)
    | _ => none
  else if 0xDC00 ≤ high ∧ high < 0xE000 then none
  else pure (Char.ofNat high, rest)

/-- The rest of an escape, after its backslash. -/
def readEscape? : List Char → Option (Char × List Char)
  | '"' :: rest => some ('"', rest)
  | '\\' :: rest => some ('\\', rest)
  | '/' :: rest => some ('/', rest)
  | 'b' :: rest => some (Char.ofNat 8, rest)
  | 'f' :: rest => some (Char.ofNat 12, rest)
  | 'n' :: rest => some ('\n', rest)
  | 'r' :: rest => some ('\r', rest)
  | 't' :: rest => some ('\t', rest)
  | 'u' :: rest => readCodePoint? rest
  | _ => none

/-- The rest of a string, after its opening quote. `fuel` bounds the number of characters. -/
def readString? : Nat → List Char → List Char → Option (List Char × List Char)
  | 0, _, _ => none
  | _ + 1, _, [] => none
  | _ + 1, found, '"' :: rest => some (found.reverse, rest)
  | fuel + 1, found, '\\' :: rest => do
    let (c, rest) ← readEscape? rest
    readString? fuel (c :: found) rest
  | fuel + 1, found, c :: rest => if c.toNat < 32 then none else readString? fuel (c :: found) rest

def readRun? (cs : List Char) : Option (List Char × List Char) :=
  match cs.takeWhile Char.isDigit with
  | [] => none
  | d :: ds => some (d :: ds, cs.drop (d :: ds).length)

/-- A whole number, which starts with 0 only if it is 0. -/
def readWhole? (cs : List Char) : Option (List Char × List Char) := do
  let (ds, rest) ← readRun? cs
  guard (ds.head? ≠ some '0' ∨ ds.length = 1)
  pure (ds, rest)

def readFractionPart? : List Char → Option (List Char × List Char)
  | '.' :: rest => do
    let (ds, rest) ← readRun? rest
    pure ('.' :: ds, rest)
  | cs => some ([], cs)

def readExponent? : List Char → Option (List Char × List Char)
  | [] => some ([], [])
  | e :: rest =>
    if e = 'e' ∨ e = 'E' then
      match rest with
      | [] => none
      | s :: after =>
        if s = '+' ∨ s = '-' then do
          let (ds, rest) ← readRun? after
          pure (e :: s :: ds, rest)
        else do
          let (ds, rest) ← readRun? rest
          pure (e :: ds, rest)
    else some ([], e :: rest)

def readNumber? (cs : List Char) : Option (Json × List Char) := do
  let (sign, cs) := match cs with
    | '-' :: rest => (['-'], rest)
    | cs => ([], cs)
  let (whole, cs) ← readWhole? cs
  let (fraction, cs) ← readFractionPart? cs
  let (exponent, cs) ← readExponent? cs
  pure (.number (sign ++ whole ++ fraction ++ exponent), cs)

mutual

/-- A value, which white space may precede. `fuel` bounds the number of nested calls. -/
def readValue? : Nat → List Char → Option (Json × List Char)
  | 0, _ => none
  | fuel + 1, cs =>
    match skipSpace cs with
    | 'n' :: 'u' :: 'l' :: 'l' :: rest => some (.null, rest)
    | 't' :: 'r' :: 'u' :: 'e' :: rest => some (.bool true, rest)
    | 'f' :: 'a' :: 'l' :: 's' :: 'e' :: rest => some (.bool false, rest)
    | '"' :: rest => do
      let (value, rest) ← readString? (rest.length + 1) [] rest
      pure (.string (String.ofList value), rest)
    | '[' :: rest =>
      match skipSpace rest with
      | ']' :: rest => some (.array [], rest)
      | rest => do
        let (items, rest) ← readItems? fuel rest
        pure (.array items, rest)
    | '{' :: rest =>
      match skipSpace rest with
      | '}' :: rest => some (.object [], rest)
      | rest => do
        let (members, rest) ← readMembers? fuel rest
        pure (.object members, rest)
    | cs => readNumber? cs

/-- The items of an array up to its closing bracket. There is at least one. -/
def readItems? : Nat → List Char → Option (List Json × List Char)
  | 0, _ => none
  | fuel + 1, cs => do
    let (item, rest) ← readValue? fuel cs
    match skipSpace rest with
    | ',' :: rest => do
      let (items, rest) ← readItems? fuel rest
      pure (item :: items, rest)
    | ']' :: rest => some ([item], rest)
    | _ => none

/-- The members of an object up to its closing brace. There is at least one. -/
def readMembers? : Nat → List Char → Option (List (String × Json) × List Char)
  | 0, _ => none
  | fuel + 1, cs => do
    let (name, rest) ← match skipSpace cs with
      | '"' :: rest => readString? (rest.length + 1) [] rest
      | _ => none
    let (value, rest) ← match skipSpace rest with
      | ':' :: rest => readValue? fuel rest
      | _ => none
    match skipSpace rest with
    | ',' :: rest => do
      let (members, rest) ← readMembers? fuel rest
      pure ((String.ofList name, value) :: members, rest)
    | '}' :: rest => some ([(String.ofList name, value)], rest)
    | _ => none

end

/-- The value that a whole text writes. No value is nested deeper than the text is long. -/
def ofText? (text : String) : Option Json := do
  let cs := text.toList
  let (value, rest) ← readValue? (2 * cs.length + 2) cs
  guard (skipSpace rest = [])
  pure value

end Json

end Timetable
