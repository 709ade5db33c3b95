/-!
# Dates and times

The calendar values that a configuration file may hold, and the text that shows them in
messages: the parts in order, smallest parts left out while they are zero.
-/

namespace CellCode.Toml

/-- A day of the calendar. -/
structure Date where
  year : Nat
  month : Nat
  day : Nat
  deriving DecidableEq, Repr

/-- A time of day. -/
structure Time where
  hour : Nat
  minute : Nat
  second : Nat
  microsecond : Nat
  deriving DecidableEq, Repr

/-- A date, a time of day, or both with an optional distance from universal time in minutes. -/
inductive Moment
  | date (date : Date)
  | time (time : Time)
  | instant (date : Date) (time : Time) (offset : Option Int)
  deriving DecidableEq, Repr

/-- A year with a 29th of February. -/
def isLeapYear (year : Nat) : Bool := year % 4 = 0 ∧ (year % 100 ≠ 0 ∨ year % 400 = 0)

/-- How many days a month has. -/
def daysInMonth (year month : Nat) : Nat :=
  if month = 2 then if isLeapYear year then 29 else 28
  else if [4, 6, 9, 11].contains month then 30
  else 31

/-- A date that exists, counted from the year 1. -/
def Date.isValid (d : Date) : Bool :=
  1 ≤ d.year && 1 ≤ d.month && d.month ≤ 12 && 1 ≤ d.day && d.day ≤ daysInMonth d.year d.month

/-- The parts of a date. -/
def Date.parts (d : Date) : List Nat := [d.year, d.month, d.day]

/-- The parts of a time of day: hour and minute always, the others up to the last that is not
    zero. -/
def Time.parts (t : Time) : List Nat :=
  if t.microsecond ≠ 0 then [t.hour, t.minute, t.second, t.microsecond]
  else if t.second ≠ 0 then [t.hour, t.minute, t.second]
  else [t.hour, t.minute]

/-- A distance from universal time, in days and seconds with the seconds not negative. -/
def offsetText (minutes : Int) : String :=
  let seconds := minutes * 60
  if seconds = 0 then "datetime.timezone.utc"
  else
    let delta :=
      if 0 < seconds then "seconds=" ++ toString seconds
      else "days=-1, seconds=" ++ toString (seconds + 86400)
    "datetime.timezone(datetime.timedelta(" ++ delta ++ "))"

/-- How messages show a date or time. -/
def Moment.text : Moment → String
  | .date d => "datetime.date(" ++ commaSeparated d.parts ++ ")"
  | .time t => "datetime.time(" ++ commaSeparated t.parts ++ ")"
  | .instant d t none => "datetime.datetime(" ++ commaSeparated (d.parts ++ t.parts) ++ ")"
  | .instant d t (some offset) =>
    "datetime.datetime(" ++ commaSeparated (d.parts ++ t.parts) ++ ", tzinfo=" ++
      offsetText offset ++ ")"
where
  commaSeparated (parts : List Nat) : String := ", ".intercalate (parts.map toString)

end CellCode.Toml
