/-
Dates and times of TOML: a date, a time, or both, and with both an offset.

A date is a day of the Gregorian calendar; a minute may have sixty-one seconds.
Fractions of a second are cut to nanoseconds.
-/
import RichContent.Text.Digits

namespace RichContent.Toml

open Text

structure Date where
  year : Nat
  month : Nat
  day : Nat
deriving DecidableEq, Repr

structure Time where
  hour : Nat
  minute : Nat
  second : Nat
  nanosecond : Nat
deriving DecidableEq, Repr

/-- The difference of a local time from universal time. -/
inductive Offset where
  | zulu
  | minutes (behind : Bool) (hours minutes : Nat)
deriving DecidableEq, Repr

inductive Moment where
  | date (d : Date)
  | time (t : Time)
  | both (d : Date) (t : Time) (offset : Option Offset)
deriving DecidableEq, Repr

namespace Moment

/-! ## Reading -/

def fixed? (count : Nat) (t : Text) : Option (Nat × Text) :=
  let digits := t.take count
  if digits.length = count ∧ digits.all Char.isDigit then
    some (decimalValue digits, t.drop count)
  else none

def field? (low high : Nat) (t : Text) : Option (Nat × Text) :=
  (fixed? 2 t).filter fun (n, _) => low ≤ n && n ≤ high

def expect? (c : Char) : Text → Option Text
  | d :: rest => if c = d then some rest else none
  | [] => none

def isLeap (year : Nat) : Bool := year % 4 == 0 && (year % 100 != 0 || year % 400 == 0)

def daysOf (year month : Nat) : Nat :=
  if month = 2 then (if isLeap year then 29 else 28)
  else if month = 4 ∨ month = 6 ∨ month = 9 ∨ month = 11 then 30
  else 31

def date? (t : Text) : Option (Date × Text) := do
  let (year, t) ← fixed? 4 t
  let t ← expect? '-' t
  let (month, t) ← field? 1 12 t
  let t ← expect? '-' t
  let (day, t) ← field? 1 31 t
  if day ≤ daysOf year month then pure (⟨year, month, day⟩, t) else none

/-- The nanoseconds that the digits after a point write. -/
def nanoseconds (digits : Text) : Nat :=
  let kept := digits.take 9
  decimalValue (kept ++ List.replicate (9 - kept.length) '0')

def time? (t : Text) : Option (Time × Text) := do
  let (hour, t) ← field? 0 23 t
  let t ← expect? ':' t
  let (minute, t) ← field? 0 59 t
  let t ← expect? ':' t
  let (second, t) ← field? 0 60 t
  match t with
  | '.' :: rest =>
    let digits := rest.takeWhile Char.isDigit
    if digits = [] then pure (⟨hour, minute, second, 0⟩, t)
    else pure (⟨hour, minute, second, nanoseconds digits⟩, rest.dropWhile Char.isDigit)
  | _ => pure (⟨hour, minute, second, 0⟩, t)

/-- An offset, if there is one. What begins like one has to be one. -/
def offset? : Text → Option (Option Offset × Text)
  | [] => some (none, [])
  | c :: rest =>
    if c = 'Z' ∨ c = 'z' then some (some .zulu, rest)
    else if c = '+' ∨ c = '-' then do
      let (hours, t) ← field? 0 23 rest
      let t ← expect? ':' t
      let (minutes, t) ← field? 0 59 t
      pure (some (.minutes (c == '-') hours minutes), t)
    else some (none, c :: rest)

def looksLikeTime (t : Text) : Bool :=
  ((field? 0 23 t).bind fun (_, rest) => expect? ':' rest).isSome

def looksLikeDate (t : Text) : Bool :=
  ((fixed? 4 t).bind fun (_, rest) => expect? '-' rest).isSome

/-- A day, and the time after it if there is one. -/
def dated? (t : Text) : Option (Moment × Text) := do
  let (d, t) ← date? t
  match t with
  | c :: rest =>
    if (c = 'T' ∨ c = 't' ∨ c = ' ') ∧ looksLikeTime rest then
      let (clock, t) ← time? rest
      let (offset, t) ← offset? t
      pure (both d clock offset, t)
    else pure (date d, t)
  | [] => pure (date d, [])

/-! ## Writing -/

def printDate (d : Date) : Text :=
  numeralOf 4 d.year ++ '-' :: numeralOf 2 d.month ++ '-' :: numeralOf 2 d.day

/-- A time as text, with no zeros at the end of a fraction. -/
def printTime (t : Time) : Text :=
  let fraction :=
    if t.nanosecond = 0 then []
    else '.' :: trimEndWhere (· == '0') (numeralOf 9 t.nanosecond)
  numeralOf 2 t.hour ++ ':' :: numeralOf 2 t.minute ++ ':' :: numeralOf 2 t.second ++ fraction

/-- An offset as text; one of no minutes is not behind. -/
def printOffset : Offset → Text
  | .zulu => ['Z']
  | .minutes behind hours minutes =>
    (if behind ∧ hours + minutes ≠ 0 then '-' else '+') :: numeralOf 2 hours
      ++ ':' :: numeralOf 2 minutes

def print : Moment → Text
  | date d => printDate d
  | time t => printTime t
  | both d t offset =>
    printDate d ++ 'T' :: printTime t ++ (offset.map printOffset).getD []

end Moment

end RichContent.Toml
