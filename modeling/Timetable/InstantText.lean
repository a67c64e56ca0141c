import Timetable.Blank
import Timetable.Decimal
import Timetable.Instant

namespace Timetable

/-- A number with zeros put in front until it has the given width. -/
def padded (width n : Nat) : List Char :=
  List.replicate (width - (decimalDigits n).length) '0' ++ decimalDigits n

/-- A year has at least four digits; one that four digits cannot hold is signed. -/
def yearWritten (year : Int) : List Char :=
  if 0 ≤ year ∧ year ≤ 9999 then padded 4 year.toNat
  else (if year < 0 then '-' else '+') :: padded 4 year.natAbs

def Date.written (d : Date) : List Char :=
  yearWritten d.year ++ '-' :: padded 2 d.month ++ '-' :: padded 2 d.day

namespace TimeOfDay

/-- The second as it is written: the leap second after second 59 is second 60. -/
def shownSecond (t : TimeOfDay) : Nat := if t.nano < 1000000000 then t.second else t.second + 1

/-- The nanoseconds since the written second began. -/
def shownNano (t : TimeOfDay) : Nat := t.nano % 1000000000

def clockWritten (t : TimeOfDay) : List Char :=
  padded 2 t.hour ++ ':' :: padded 2 t.minute ++ ':' :: padded 2 t.shownSecond

/-- The fewest groups of three digits that lose nothing. -/
def fractionWritten (t : TimeOfDay) : List Char :=
  let n := t.shownNano
  if n = 0 then []
  else if n % 1000000 = 0 then '.' :: padded 3 (n / 1000000)
  else if n % 1000 = 0 then '.' :: padded 6 (n / 1000)
  else '.' :: padded 9 n

end TimeOfDay

namespace Instant

/-- The form in which found instants are printed, always down to the millisecond. -/
def written (i : Instant) : List Char :=
  i.date.written ++ 'T' :: i.time.clockWritten ++ '.' :: padded 3 (i.time.shownNano / 1000000)

def text (i : Instant) : String := String.ofList i.written

/-- The form in which messages name an instant. -/
def label (i : Instant) : String :=
  String.ofList (i.date.written ++ ' ' :: i.time.clockWritten ++ i.time.fractionWritten)

end Instant

/-- At least one digit and at most `most`, and what follows them. -/
def readDigits? (most : Nat) (cs : List Char) : Option (List Char × List Char) :=
  match (cs.take most).takeWhile Char.isDigit with
  | [] => none
  | d :: ds => some (d :: ds, cs.drop (d :: ds).length)

/-- A number of one or two digits, which white space may precede. -/
def readPart? (cs : List Char) : Option (Nat × List Char) := do
  let (ds, rest) ← readDigits? 2 (skipBlanks cs)
  pure (decimalValue ds, rest)

/-- A year of up to four digits, or of any number of digits after a sign. White space may
precede it. -/
def readYear? (cs : List Char) : Option (Int × List Char) :=
  match skipBlanks cs with
  | '-' :: rest => do
    let (ds, rest) ← readDigits? rest.length rest
    pure (-decimalValue ds, rest)
  | '+' :: rest => do
    let (ds, rest) ← readDigits? rest.length rest
    pure (decimalValue ds, rest)
  | cs => do
    let (ds, rest) ← readDigits? 4 cs
    pure (decimalValue ds, rest)

def readChar? (c : Char) : List Char → Option (List Char)
  | [] => none
  | d :: rest => if d = c then some rest else none

/-- Nanoseconds as an optional decimal fraction of a second. Digits after the ninth count for
nothing. -/
def readFraction? : List Char → Option (Nat × List Char)
  | '.' :: rest => do
    let (ds, rest) ← readDigits? rest.length rest
    pure (decimalValue ((ds ++ List.replicate 9 '0').take 9), rest)
  | cs => some (0, cs)

/-- Reads a whole text as an instant, with `separator` reading what stands between the date and
the time. Second 60 is a leap second. -/
def readInstant? (separator : List Char → Option (List Char)) (cs : List Char) :
    Option Instant := do
  let (year, cs) ← readYear? cs
  let cs ← readChar? '-' cs
  let (month, cs) ← readPart? cs
  let cs ← readChar? '-' cs
  let (day, cs) ← readPart? cs
  let cs ← separator cs
  let (hour, cs) ← readPart? cs
  let cs ← readChar? ':' cs
  let (minute, cs) ← readPart? cs
  let cs ← readChar? ':' cs
  let (second, cs) ← readPart? cs
  let (nano, cs) ← readFraction? cs
  guard (cs = [])
  if second = 60 then Instant.ofParts? year month day hour minute 59 (1000000000 + nano)
  else Instant.ofParts? year month day hour minute second nano

/-- An instant whose date and time are separated by `T`, or by white space of any length. -/
def Instant.ofText? (text : String) : Option Instant :=
  readInstant? (readChar? 'T') text.toList <|> readInstant? (some ∘ skipBlanks) text.toList

/-- What is said of a text that is no instant. -/
def notAnInstant (text : String) : String :=
  "'" ++ text ++ "' is not an instant like 2001-01-01T10:00:00.000"

end Timetable
