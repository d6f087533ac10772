import KivaDb.Lib.Calendar

namespace KivaDb

open Lib.Calendar

/-- What the engine uses of `chrono` beside plain dates: instants and times of
day, read from texts and written as texts. -/
class Chrono where
  DateTime : Type
  NaiveTime : Type
  decEqDateTime : DecidableEq DateTime
  decEqNaiveTime : DecidableEq NaiveTime
  /-- ISO 8601 in UTC, to the millisecond. -/
  iso : DateTime → String
  timeText : NaiveTime → String
  parseDatetime : String → Option DateTime
  parseTime : String → Option NaiveTime

namespace Time

/-- `n` in decimal, with zeros in front to make `width` digits. -/
def padded (width n : Nat) : List Char :=
  let digits := Nat.toDigits 10 n
  List.replicate (width - digits.length) '0' ++ digits

/-- The year as `%Y` writes it: four digits, with a sign before the year 0 and
from the year 10000 on. -/
def yearText (y : Int) : List Char :=
  if 0 ≤ y ∧ y ≤ 9999 then padded 4 y.toNat
  else (if y < 0 then '-' else '+') :: padded 4 y.natAbs

def dateText (d : Date) : String :=
  String.ofList (yearText d.year ++ ('-' :: padded 2 d.month) ++ ('-' :: padded 2 d.day))

end Time

end KivaDb
