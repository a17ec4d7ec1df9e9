/-!
# Dates and times

A date is written year, month, day with four, two and two digits, a time of day
as hours, minutes and seconds with two digits each. A fraction of a second is
left out when it is zero, and else has three digits, or six when it is not whole
milliseconds. A date with a time has a `T` between the two.

A database may hold what no calendar and no clock shows, such as a thirtieth of
February. That has no text, but `bytes` says how it is sent: a count of bytes and
then the parts as numbers, where zero parts at the end are left off.
-/

namespace TableApi

/-- A number in at least `width` digits. -/
def paddedDigits (width n : Nat) : String :=
  let digits := Nat.toDigits 10 n
  String.ofList (List.replicate (width - digits.length) '0' ++ digits)

structure Day where
  year : Nat
  month : Nat
  day : Nat
  deriving Repr, DecidableEq

/-- The day that a database holds in place of an unknown one. -/
def Day.zero : Day := ⟨0, 0, 0⟩

/-- The day as text; a year beyond four digits has a sign. -/
def Day.text (d : Day) : String :=
  (if d.year < 10000 then "" else "+") ++ paddedDigits 4 d.year ++ "-" ++
    paddedDigits 2 d.month ++ "-" ++ paddedDigits 2 d.day

def isLeapYear (year : Nat) : Bool :=
  year % 4 = 0 && (year % 100 ≠ 0 || year % 400 = 0)

/-- How many days a month has; none if there is no such month. -/
def daysInMonth (year month : Nat) : Nat :=
  if month = 2 then if isLeapYear year then 29 else 28
  else if [4, 6, 9, 11].contains month then 30
  else if 1 ≤ month ∧ month ≤ 12 then 31
  else 0

def Day.isReal (d : Day) : Bool :=
  1 ≤ d.day && d.day ≤ daysInMonth d.year d.month

/-- A time of day. In the last second of a minute the microseconds may run on into
a leap second. -/
structure Clock where
  hour : Nat := 0
  minute : Nat := 0
  second : Nat := 0
  micros : Nat := 0
  deriving Repr, DecidableEq

/-- How many microseconds a second has. -/
def microsPerSecond : Nat := 1000000

/-- Whether a clock without leap seconds shows the time. -/
def Clock.isPlain (c : Clock) : Bool :=
  c.hour < 24 && c.minute < 60 && c.second < 60 && c.micros < microsPerSecond

/-- Whether the time is in a leap second. -/
def Clock.isLeap (c : Clock) : Bool :=
  c.hour < 24 && c.minute < 60 && c.second = 59 &&
    microsPerSecond ≤ c.micros && c.micros < 2 * microsPerSecond

/-- The time with a leap second counted as the sixtieth. -/
def Clock.shown (c : Clock) : Clock :=
  if c.isLeap then { c with second := 60, micros := c.micros - microsPerSecond } else c

def Clock.fraction (c : Clock) : String :=
  if c.micros = 0 then ""
  else if c.micros % 1000 = 0 then "." ++ paddedDigits 3 (c.micros / 1000)
  else "." ++ paddedDigits 6 c.micros

def Clock.text (clock : Clock) : String :=
  let c := clock.shown
  paddedDigits 2 c.hour ++ ":" ++ paddedDigits 2 c.minute ++ ":" ++
    paddedDigits 2 c.second ++ c.fraction

structure Moment where
  day : Day
  clock : Clock
  deriving Repr, DecidableEq

def Moment.zero : Moment := ⟨.zero, {}⟩

/-- Whether calendar and clock show the moment. -/
def Moment.isReal (m : Moment) : Bool :=
  m.day.isReal && (m.clock.isPlain || m.clock.isLeap)

def Moment.text (m : Moment) : String :=
  m.day.text ++ "T" ++ m.clock.text

/-! ## Dates and times as bytes -/

/-- The lowest `count` bytes of a number, the least first. -/
def lowBytes : Nat → Nat → List UInt8
  | 0, _ => []
  | count + 1, n => n.toUInt8 :: lowBytes count (n / 256)

/-- As many bytes are taken as asked for. -/
theorem length_lowBytes (count n : Nat) : (lowBytes count n).length = count := by
  induction count generalizing n with
  | zero => rfl
  | succ count ih => simp [lowBytes, ih]

def counted (bytes : List UInt8) : List UInt8 :=
  bytes.length.toUInt8 :: bytes

def Day.parts (d : Day) : List UInt8 :=
  lowBytes 2 d.year ++ lowBytes 1 d.month ++ lowBytes 1 d.day

def Clock.parts (c : Clock) : List UInt8 :=
  lowBytes 1 c.hour ++ lowBytes 1 c.minute ++ lowBytes 1 c.second ++
    if c.micros = 0 then [] else lowBytes 4 c.micros

def Day.bytes (d : Day) : List UInt8 :=
  counted d.parts

/-- The bytes of a time of day: it is sent as a span, with a sign and whole days in
front, both zero. -/
def Clock.bytes (c : Clock) : List UInt8 :=
  counted (lowBytes 1 0 ++ lowBytes 4 0 ++ c.parts)

def Moment.bytes (m : Moment) : List UInt8 :=
  counted (m.day.parts ++ if m.clock = {} then [] else m.clock.parts)

end TableApi
