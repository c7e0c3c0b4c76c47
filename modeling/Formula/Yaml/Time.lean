import Formula.Datum

/-!
# Dates and times

A date is written as a year, a month and a day; a time of the day and a time zone may stand behind it.  Numbers that
are no date or no time are refused.
-/

namespace Formula.Yaml

open Number

/-- A time of the day. -/
structure Clock where
  hour : Nat
  minute : Nat
  second : Nat
  microsecond : Nat
  /-- How many minutes the time zone is ahead. -/
  zone : Option Int
deriving Repr

/-- A date, perhaps with a time of the day. -/
structure Moment where
  year : Nat
  month : Nat
  day : Nat
  clock : Option Clock
deriving Repr

namespace Moment

/-! ### Reading -/

/-- A number of at least `least` and at most `most` digits, and what stands behind it. -/
def digits? (least most : Nat) (cs : List Char) : Option (Nat × List Char) :=
  let run := (cs.takeWhile Char.isDigit).take most
  if run.length < least then none else some (digitsToNat run, cs.drop run.length)

/-- What stands behind a sign. -/
def behind? (sign : Char) : List Char → Option (List Char)
  | [] => none
  | c :: rest => if c = sign then some rest else none

/-- A blank within a line. -/
def isSpace (c : Char) : Bool := c = ' ' || c = '\t'

/-- What stands behind the letter or the blanks between a date and a time. -/
def behindDate? : List Char → Option (List Char)
  | [] => none
  | c :: rest =>
    if c = 'T' || c = 't' then some rest else if isSpace c then some (rest.dropWhile isSpace) else none

/-- The digits of a part of a second as a number of microseconds. -/
def microseconds (cs : List Char) : Nat := digitsToNat (cs.take 6 ++ List.replicate (6 - cs.length) '0')

/-- A number of two digits behind a colon, and nothing else; zero if nothing stands there. -/
def zoneMinutes? (cs : List Char) : Option Nat :=
  if cs.isEmpty then some 0
  else do
    let (n, cs) ← digits? 2 2 (← behind? ':' cs)
    if cs.isEmpty then some n else none

/-- The time zone at the end of a time. -/
def zone? (cs : List Char) : Option (Option Int) :=
  if cs.isEmpty then some none
  else match cs.dropWhile isSpace with
    | ['Z'] => some (some 0)
    | c :: rest =>
      if c = '+' || c = '-' then do
        let (hours, rest) ← digits? 1 2 rest
        let minutes : Int := 60 * hours + (← zoneMinutes? rest)
        return some (if c = '-' then -minutes else minutes)
      else none
    | [] => none

/-- A time of the day. -/
def clock? (cs : List Char) : Option Clock := do
  let (hour, cs) ← digits? 1 2 cs
  let (minute, cs) ← digits? 2 2 (← behind? ':' cs)
  let (second, cs) ← digits? 2 2 (← behind? ':' cs)
  let part := match cs with
    | '.' :: more => (microseconds (more.takeWhile Char.isDigit), more.dropWhile Char.isDigit)
    | _ => (0, cs)
  return ⟨hour, minute, second, part.1, ← zone? part.2⟩

/-- The moment that a text writes. -/
def ofText? (text : String) : Option Moment := do
  let (year, cs) ← digits? 4 4 text.toList
  let (month, cs) ← digits? 1 2 (← behind? '-' cs)
  let (day, cs) ← digits? 1 2 (← behind? '-' cs)
  if cs.isEmpty then return ⟨year, month, day, none⟩
  else return ⟨year, month, day, some (← clock? (← behindDate? cs))⟩

/-- A plain scalar is a moment.  A date without a time has two digits for the month and for the day. -/
def isPlain (text : String) : Bool :=
  match ofText? text with
  | some m => m.clock.isSome || text.length == 10
  | none => false

/-! ### Values -/

/-- The number of days in a month. -/
def daysIn (year month : Nat) : Nat :=
  if month = 2 then (if (year % 4 = 0 ∧ year % 100 ≠ 0) ∨ year % 400 = 0 then 29 else 28)
  else if [4, 6, 9, 11].contains month then 30
  else 31

/-- A number with zeros in front of it, up to a width. -/
def padded (width n : Nat) : String :=
  let digits := Nat.toDigits 10 n
  String.ofList (List.replicate (width - digits.length) '0' ++ digits)

/-- A number of minutes as a span of days and seconds. -/
def spanLiteral (minutes : Int) : String :=
  let days := minutes.fdiv 1440
  let seconds := 60 * minutes.fmod 1440
  let parts := (if days = 0 then [] else ["days=" ++ intText days]) ++
    (if seconds = 0 then [] else ["seconds=" ++ intText seconds])
  "datetime.timedelta(" ++ (if parts.isEmpty then "0" else ", ".intercalate parts) ++ ")"

/-- A time zone as it is written on its own. -/
def zoneLiteral (minutes : Int) : String :=
  if minutes = 0 then "datetime.timezone.utc" else "datetime.timezone(" ++ spanLiteral minutes ++ ")"

/-- A time zone behind a time. -/
def zoneShown (minutes : Int) : String :=
  (if minutes < 0 then "-" else "+") ++ padded 2 (minutes.natAbs / 60) ++ ":" ++ padded 2 (minutes.natAbs % 60)

/-- Refuses numbers that are no date. -/
def checkDate (m : Moment) : Outcome Unit :=
  if m.year < 1 then .error (.yearOutOfRange m.year)
  else if m.month < 1 ∨ 12 < m.month then .error .monthOutOfRange
  else if m.day < 1 ∨ daysIn m.year m.month < m.day then .error .dayOutOfRange
  else .ok ()

/-- Refuses time zones that are a day ahead or behind. -/
def checkZone (zone : Option Int) : Outcome Unit :=
  match zone with
  | some minutes => if 1440 ≤ minutes.natAbs then .error (.zoneOutOfRange (spanLiteral minutes)) else .ok ()
  | none => .ok ()

/-- Refuses numbers that are no time of the day. -/
def checkClock (c : Clock) : Outcome Unit :=
  if 23 < c.hour then .error .hourOutOfRange
  else if 59 < c.minute then .error .minuteOutOfRange
  else if 59 < c.second then .error .secondOutOfRange
  else .ok ()

/-- The date as it is written inside a text. -/
def dateShown (m : Moment) : String := padded 4 m.year ++ "-" ++ padded 2 m.month ++ "-" ++ padded 2 m.day

/-- The time as it is written inside a text. -/
def clockShown (c : Clock) : String :=
  padded 2 c.hour ++ ":" ++ padded 2 c.minute ++ ":" ++ padded 2 c.second ++
    (if c.microsecond = 0 then "" else "." ++ padded 6 c.microsecond) ++ ((c.zone.map zoneShown).getD "")

/-- The value of a moment. -/
def toDatum (m : Moment) : Outcome Datum :=
  let date := [m.year, m.month, m.day].map fun (n : Nat) => intText n
  match m.clock with
  | none => do
    checkDate m
    return .other "datetime.date" (dateShown m) ("datetime.date(" ++ ", ".intercalate date ++ ")")
  | some c => do
    checkZone c.zone
    checkDate m
    checkClock c
    let last := if c.microsecond ≠ 0 then [c.second, c.microsecond] else if c.second ≠ 0 then [c.second] else []
    let clock := ([c.hour, c.minute] ++ last).map fun (n : Nat) => intText n
    let zone := match c.zone with
      | some minutes => ["tzinfo=" ++ zoneLiteral minutes]
      | none => []
    return .other "datetime.datetime" (dateShown m ++ " " ++ clockShown c)
      ("datetime.datetime(" ++ ", ".intercalate (date ++ clock ++ zone) ++ ")")

end Moment

end Formula.Yaml
