/-
  JsonnetLocals.Clock.Moment — dates, times of day and their texts.

  A moment is a wall time with its distance from UTC, or without one: then it is local time, and
  local time is UTC here. `Moment.stamp` is the text that a header carries, `WallTime.suffix` the
  one that tells renamed files apart. Years run from 1 to 9999.
-/

import JsonnetLocals.Text.Encoding

namespace JsonnetLocals

structure WallTime where
  year : Nat
  month : Nat
  day : Nat
  hour : Nat
  minute : Nat
  second : Nat
  deriving DecidableEq, Repr

structure Moment where
  wall : WallTime
  /-- Seconds ahead of UTC; none when the time is local. -/
  offset : Option Int
  deriving DecidableEq, Repr

inductive ClockError where
  /-- The zone of a local time on the first day of all cannot be found. -/
  | noDayBefore
  /-- The moment in UTC is before the first year or after the last. -/
  | outOfRange
  deriving DecidableEq, Repr

def ClockError.message : ClockError → String
  | noDayBefore => "year 0 is out of range"
  | outOfRange => "date value out of range"

namespace Calendar

def isLeap (year : Nat) : Bool := year % 4 == 0 && (year % 100 != 0 || year % 400 == 0)

def daysInMonth (year month : Nat) : Nat :=
  if month = 2 then (if isLeap year then 29 else 28)
  else if month = 4 ∨ month = 6 ∨ month = 9 ∨ month = 11 then 30
  else 31

/-- The days before the first of January of a year, counted from that of the year 1. -/
def daysBeforeYear (year : Nat) : Nat :=
  let y := year - 1
  365 * y + y / 4 - y / 100 + y / 400

def daysBeforeMonth (year month : Nat) : Nat :=
  (List.range (month - 1)).foldl (fun n m => n + daysInMonth year (m + 1)) 0

/-- The month and the day that lie `days` after the first of `month`. -/
def monthDay (year : Nat) : Nat → Nat → Nat → Nat × Nat
  | 0, month, days => (month, days + 1)
  | fuel + 1, month, days =>
    if days < daysInMonth year month then (month, days + 1)
    else monthDay year fuel (month + 1) (days - daysInMonth year month)

/-- The year in which a day lies. No year has fewer than 365 days, so the guess is at most too late. -/
def yearOf (days : Nat) : Nat → Nat
  | 0 => 1
  | year + 1 => if daysBeforeYear (year + 1) ≤ days then year + 1 else yearOf days year

end Calendar

namespace WallTime

def toSeconds (t : WallTime) : Nat :=
  let days := Calendar.daysBeforeYear t.year + Calendar.daysBeforeMonth t.year t.month + (t.day - 1)
  ((days * 24 + t.hour) * 60 + t.minute) * 60 + t.second

def ofSeconds (n : Nat) : WallTime :=
  let days := n / 86400
  let year := Calendar.yearOf days (days / 365 + 1)
  let (month, day) := Calendar.monthDay year 11 1 (days - Calendar.daysBeforeYear year)
  ⟨year, month, day, n / 3600 % 24, n / 60 % 60, n % 60⟩

def padded (width n : Nat) : String :=
  let digits := Nat.toDigits 10 n
  String.ofList (List.replicate (width - digits.length) '0' ++ digits)

def dateTime (t : WallTime) : String :=
  padded 4 t.year ++ "-" ++ padded 2 t.month ++ "-" ++ padded 2 t.day ++ "T" ++ padded 2 t.hour ++ ":" ++
    padded 2 t.minute ++ ":" ++ padded 2 t.second

/-- The time as a part of a file name. The year is not padded. -/
def suffix (t : WallTime) : String :=
  toString t.year ++ padded 2 t.month ++ padded 2 t.day ++ "_" ++ padded 2 t.hour ++ padded 2 t.minute ++
    padded 2 t.second

end WallTime

namespace Moment

/-- The distance from UTC: none is written `Z`, and seconds only when there are some. -/
def offsetText (offset : Int) : String :=
  if offset = 0 then "Z"
  else
    let n := offset.natAbs
    (if offset < 0 then "-" else "+") ++ WallTime.padded 2 (n / 3600) ++ ":" ++ WallTime.padded 2 (n / 60 % 60) ++
      if n % 60 = 0 then "" else ":" ++ WallTime.padded 2 (n % 60)

/-- A local time with its zone, which is looked up on the day before too. -/
def localize (m : Moment) : Except ClockError Moment :=
  match m.offset with
  | some _ => .ok m
  | none => if m.wall.toSeconds < 86400 then .error .noDayBefore else .ok { m with offset := some 0 }

def toUtc (m : Moment) : Except ClockError Moment := do
  let m ← m.localize
  let seconds := (m.wall.toSeconds : Int) - m.offset.getD 0
  if 0 ≤ seconds ∧ seconds < Calendar.daysBeforeYear 10000 * 86400 then
    .ok ⟨WallTime.ofSeconds seconds.toNat, some 0⟩
  else .error .outOfRange

def ofEpoch (seconds : Int) : Moment :=
  ⟨WallTime.ofSeconds ((WallTime.toSeconds ⟨1970, 1, 1, 0, 0, 0⟩ : Int) + seconds).toNat, some 0⟩

def stamp (m : Moment) : Except ClockError String := do
  let m ← m.localize
  .ok (m.wall.dateTime ++ offsetText (m.offset.getD 0))

end Moment

def header (stamp : String) (identity : Text) : Except Unencodable Bytes :=
  ("// Auto-generated by jsonnet-bundler at " ++ stamp ++ " for " ++ identity ++ "\n").encode

end JsonnetLocals
