import PulseSequencer.Yaml.Fault

/-!
# Dates and times

* `Moment.parse?` — a date, or a date and a time, as it is written.
* `Moment.check` — whether there is such a day and such a time.
-/

namespace PulseSequencer.Yaml

structure TimeOfDay where
  hour : Nat
  minute : Nat
  second : Nat
  /-- The digits behind the point. -/
  fraction : List Char
  /-- Minutes ahead of universal time, if they are given. -/
  offset : Option Int
  /-- Whether a letter stood before the time, or a sign before an offset. -/
  isMarked : Bool
  deriving DecidableEq, Repr

structure Moment where
  year : Nat
  month : Nat
  day : Nat
  time : Option TimeOfDay
  deriving DecidableEq, Repr

namespace Moment

/-- A number of at least `least` and at most `most` digits, as many as there are. -/
def number? (least most : Nat) (cs : List Char) : Option (Nat × List Char) :=
  let ds := (cs.take most).takeWhile Char.isDigit
  if ds.length < least then none
  else some (digitsValue ds, cs.drop ds.length)

def expect? (c : Char) : List Char → Option (List Char)
  | d :: cs => if c = d then some cs else none
  | [] => none

/-- The offset at the end of a time, in minutes. -/
def offset? (cs : List Char) : Option (Option Int) :=
  match cs.dropWhile isBlank with
  | [] => if cs.isEmpty then some none else none
  | ['Z'] => some (some 0)
  | sign :: r =>
    if sign = '+' || sign = '-' then do
      let (hours, r) ← number? 1 2 r
      let (minutes, r) ← match r with
        | ':' :: r => number? 2 2 r
        | r => some (0, r)
      let n : Int := 60 * hours + minutes
      if r.isEmpty then some (some (if sign = '-' then -n else n)) else none
    else none

/-- The time behind a date. -/
def time? (isLettered : Bool) (cs : List Char) : Option TimeOfDay := do
  let (hour, cs) ← number? 1 2 cs
  let (minute, cs) ← number? 2 2 (← expect? ':' cs)
  let (second, cs) ← number? 2 2 (← expect? ':' cs)
  let (fraction, cs) := match cs with
    | '.' :: cs => (cs.takeWhile Char.isDigit, cs.dropWhile Char.isDigit)
    | cs => ([], cs)
  let isSigned := cs.any fun c => c = '+' || c = '-'
  return ⟨hour, minute, second, fraction, ← offset? cs, isLettered || isSigned⟩

/-- A date alone has two digits for month and day; a time follows behind a letter or blanks. -/
def parse? (s : String) : Option Moment := do
  let (year, cs) ← number? 4 4 s.toList
  let (month, cs) ← number? 1 2 (← expect? '-' cs)
  let (day, cs) ← number? 1 2 (← expect? '-' cs)
  match cs with
  | [] => if s.length = 10 then some ⟨year, month, day, none⟩ else none
  | c :: r =>
    if c = 'T' || c = 't' then return ⟨year, month, day, some (← time? true r)⟩
    else if isBlank c then return ⟨year, month, day, some (← time? false (r.dropWhile isBlank))⟩
    else none

def isLeap (year : Nat) : Bool := year % 4 = 0 && (year % 100 ≠ 0 || year % 400 = 0)

def daysIn (year month : Nat) : Nat :=
  if month = 2 then if isLeap year then 29 else 28
  else if [4, 6, 9, 11].contains month then 30
  else 31

/-- Accepts a time that exists. -/
def checkTime (t : TimeOfDay) : Except DateFault Unit :=
  if 23 < t.hour then .error .hour
  else if 59 < t.minute then .error .minute
  else if 59 < t.second then .error .second
  else .ok ()

/-- Accepts a day that exists. -/
def checkDay (m : Moment) : Except DateFault Unit :=
  if m.year = 0 then .error (.year 0)
  else if m.month = 0 ∨ 12 < m.month then .error .month
  else if m.day = 0 ∨ daysIn m.year m.month < m.day then .error .day
  else .ok ()

/-- Accepts a moment that exists. -/
def check (m : Moment) : Except DateFault Moment := do
  m.checkDay
  m.time.forM checkTime
  return m

/-- What messages call a moment. -/
def kind (m : Moment) : String :=
  match m.time with
  | none => "date"
  | some t => if t.isMarked then "TimeStamp" else "datetime"

/-- A moment as messages show it. -/
def text (m : Moment) : String :=
  let day := s!"{m.year}, {m.month}, {m.day}"
  match m.time with
  | none => s!"datetime.date({day})"
  | some t =>
    let time := s!"{t.hour}, {t.minute}" ++ if t.second = 0 then "" else s!", {t.second}"
    if t.isMarked then s!"TimeStamp({day}, {time})" else s!"datetime.datetime({day}, {time})"

end Moment

end PulseSequencer.Yaml
