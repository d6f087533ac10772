import KivaDb.Query.Expr
import KivaDb.ExtendedBack

namespace KivaDb

open Lib.Calendar

namespace Num

end Num

namespace Expr

section

variable [Chrono] [Formats] [Moments]

attribute [local instance] Time.zones

/-- The text that a value is read as a date from. -/
def dateText : Json → Option String
  | .string s => some s
  | .object m => (tagged (.object m)).map Prod.snd
  | _ => none

/-- The moment lies on the same sides of the two bounds as the day does of the year. -/
def Beside (start stop : Chrono.DateTime) (year : Int) (t : Chrono.DateTime) (d : Date) : Prop :=
  (Moments.cmpDateTime t start ≠ .lt ↔ year ≤ d.year) ∧ (Moments.cmpDateTime t stop ≠ .lt ↔ year < d.year)

variable {start stop : Chrono.DateTime} {year : Int}

section

variable [Codec]

variable [Arithmetic] {zone : Time.Zone} {field : String} {path : List Seg} {value : Json} {y : Int64}

end

end

section Samples

def hourText (t : Date × Fin 24) : List Char :=
  (Time.dateText t.1).toList ++ ('T' :: Time.padded 2 t.2.val ++ ":00:00.000Z".toList)

/-- Instants to the hour, as what clocks show in UTC. -/
local instance hourChrono : Chrono where
  DateTime := Date × Fin 24
  NaiveTime := Fin 24
  decEqDateTime := inferInstance
  decEqNaiveTime := inferInstance
  iso t := String.ofList (hourText t)
  timeText _ := ""
  parseDatetime _ := none
  parseTime _ := none

local instance hourDecEq : DecidableEq Chrono.DateTime := Chrono.decEqDateTime

def readHour (l : List Char) : Option (Date × Fin 24) :=
  let n := l.length - 14
  if l.drop (n + 3) = ":00:00.000Z".toList then
    (readDate (l.take n)).map fun d => (d, Fin.ofNat 24 (Nat.ofDigitChars 10 ((l.drop (n + 1)).take 2) 0))
  else none

def hours (t : Date × Fin 24) : Int := t.1.days * 24 + (t.2.val : Int)

def hoursLater (t : Date × Fin 24) (n : Int) : Date × Fin 24 :=
  let later := (t.2.val : Int) + n
  let d := t.1.addDays (later / 24)
  if -262143 ≤ d.year ∧ d.year ≤ 262142 then (d, Fin.ofNat 24 (later % 24).toNat) else (Date.epoch, 0)

/-- Summer time in the Azores, from the 25th of March to the 28th of October 2018: at midnight the clocks go to one
o'clock, and in the end from one o'clock back to midnight. -/
def isSummer (t : Date × Fin 24) : Bool :=
  let first : Date := .of 2018 3 25 (by decide)
  let last : Date := .of 2018 10 28 (by decide)
  decide (hours (first, 1) ≤ hours t ∧ hours t ≤ hours (last, 0))

local instance hourFormats : Formats where
  Tz := Unit
  tz name := if name = "Atlantic/Azores" then some () else none
  tzName _ := "Atlantic/Azores"
  offsetText _ := "-01:00"
  rfc3339 s := readHour s.toList
  dateTime _ _ := none
  wall _ _ := none
  date s f :=
    if f = "%Y-%m-%d" then (readDate s.toList).filter fun d => -262143 ≤ d.year ∧ d.year ≤ 262142 else none
  time _ _ := none
  midnight := (0 : Fin 24)
  hour t := t.val
  minute _ := 0
  second _ := 0
  nanosecond _ := 0
  withNanosecond t _ := some t
  fromHmsMilli h _ _ _ := some (Fin.ofNat 24 h)
  andUtc w := w
  machineInstant w := some w
  tzInstant _ w :=
    if isSummer w then some w else if isSummer (hoursLater w 1) then none else some (hoursLater w 1)
  fixedInstant o w := some (hoursLater w (-(o / 3600)))
  machineOffset _ := 0
  tzOffset _ t := if isSummer t then 0 else -3600
  wallAt o t := hoursLater t (o / 3600)

local instance hourMoments : Moments where
  cmpDateTime a b := compare (hours a) (hours b)
  cmpTime a b := compare a.val b.val

local instance hourCodec : Codec where
  lowercase s := s
  jsonText _ := ""
  sameValue _ _ := false
  encodeStored _ _ := .ok ([], .json)
  decode _ _ _ := .error (.corrupted "")

local instance hourArithmetic : Arithmetic where
  checkedAdd _ _ := none
  jsonText _ := ""

end Samples

end Expr

end KivaDb
