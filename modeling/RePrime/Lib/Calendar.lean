import RePrime.Lib.Json

/-!
# RePrime.Lib.Calendar

The proleptic Gregorian calendar and the text of an instant in UTC.

* `daysFromCivil`: days from 1970-01-01, by 400-year eras with the year starting in March.
* `civilFromDays`: the date of a day counted so.
* `isoTime`: milliseconds of the text `toISOString` writes, `YYYY-MM-DDTHH:mm:ss.sssZ`.
* `monthOf`, `dateOf`, `weekDayOf`, `hourOf`, `minuteOf`: the fields of a time in milliseconds.
-/

namespace RePrime
namespace Calendar

def isLeapYear (y : Int) : Bool := y % 4 == 0 && (y % 100 != 0 || y % 400 == 0)

def daysInMonth (y : Int) (m : Nat) : Nat :=
  if m = 2 then (if isLeapYear y then 29 else 28)
  else if m = 4 ∨ m = 6 ∨ m = 9 ∨ m = 11 then 30
  else 31

/-- Days from 1970-01-01 to the day `d` of month `m` (1 to 12) of year `y`. -/
def daysFromCivil (y : Int) (m d : Nat) : Int :=
  let y' := if m ≤ 2 then y - 1 else y
  let era := y' / 400
  let yoe := y' - era * 400
  let doy : Int := (153 * ((m + 9) % 12 : Nat) + 2) / 5 + d - 1
  let doe := yoe * 365 + yoe / 4 - yoe / 100 + doy
  era * 146097 + doe - 719468

structure CivilDate where
  year : Int
  month : Nat
  day : Nat
  deriving DecidableEq, Repr

/-- The date of the day that many days from 1970-01-01. -/
def civilFromDays (days : Int) : CivilDate :=
  let z := days + 719468
  let era := z / 146097
  let doe := (z % 146097).toNat
  let yoe := (doe - doe / 1460 + doe / 36524 - doe / 146096) / 365
  let doy := doe - (365 * yoe + yoe / 4 - yoe / 100)
  let mp := (5 * doy + 2) / 153
  let month := if mp < 10 then mp + 3 else mp - 9
  { year := yoe + era * 400 + (if month ≤ 2 then 1 else 0)
    month
    day := doy - (153 * mp + 2) / 5 + 1 }

example : civilFromDays (daysFromCivil 2028 2 29) = ⟨2028, 2, 29⟩ := by decide

/-! ## The fields of a time -/

def dayOf (t : Int) : Int := t / 86400000

def monthOf (t : Int) : Nat := (civilFromDays (dayOf t)).month

def dateOf (t : Int) : Nat := (civilFromDays (dayOf t)).day

/-- Sunday is 0. -/
def weekDayOf (t : Int) : Nat := ((dayOf t + 4) % 7).toNat

def hourOf (t : Int) : Nat := (t / 3600000 % 24).toNat

def minuteOf (t : Int) : Nat := (t / 60000 % 60).toNat

/-! ## ISO texts -/

def digits (s : List Char) : Option Nat := Json.readNat s

/-- `new Date(text).getTime()` for a text `toISOString` can have written; `none` is `NaN`. -/
def isoTime (text : String) : Option Int :=
  match text.toList with
  | [y1, y2, y3, y4, '-', m1, m2, '-', d1, d2, 'T', h1, h2, ':', i1, i2, ':', s1, s2, '.', f1, f2, f3, 'Z'] =>
    match digits [y1, y2, y3, y4], digits [m1, m2], digits [d1, d2], digits [h1, h2], digits [i1, i2],
        digits [s1, s2], digits [f1, f2, f3] with
    | some y, some m, some d, some h, some i, some s, some f =>
      if 1 ≤ m ∧ m ≤ 12 ∧ 1 ≤ d ∧ d ≤ daysInMonth y m ∧ h < 24 ∧ i < 60 ∧ s < 60 then
        some (daysFromCivil y m d * 86400000 + h * 3600000 + i * 60000 + s * 1000 + f)
      else none
    | _, _, _, _, _, _, _ => none
  | _ => none

example : isoTime "2024-02-29T12:30:15.250Z" = some 1709209815250 := by decide

end Calendar
end RePrime
