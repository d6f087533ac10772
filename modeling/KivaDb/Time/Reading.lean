import KivaDb.Doc

namespace KivaDb

open Lib.Calendar

/-- A wall clock: a day and a time of day. -/
abbrev Wall [Chrono] := Date × Chrono.NaiveTime

/-- What reading dates takes from `chrono` and `chrono-tz`: texts read under a format, and
the instants that the wall clocks of zones show. -/
class Formats [Chrono] where
  Tz : Type
  tz : String → Option Tz
  tzName : Tz → String
  offsetText : Int → String
  rfc3339 : String → Option Chrono.DateTime
  dateTime (text format : String) : Option Chrono.DateTime
  wall (text format : String) : Option Wall
  date (text format : String) : Option Date
  time (text format : String) : Option Chrono.NaiveTime
  midnight : Chrono.NaiveTime
  hour : Chrono.NaiveTime → Nat
  minute : Chrono.NaiveTime → Nat
  second : Chrono.NaiveTime → Nat
  nanosecond : Chrono.NaiveTime → Nat
  withNanosecond : Chrono.NaiveTime → Nat → Option Chrono.NaiveTime
  fromHmsMilli : Nat → Nat → Nat → Nat → Option Chrono.NaiveTime
  andUtc : Wall → Chrono.DateTime
  machineInstant : Wall → Option Chrono.DateTime
  tzInstant : Tz → Wall → Option Chrono.DateTime
  fixedInstant : Int → Wall → Option Chrono.DateTime
  machineOffset : Chrono.DateTime → Int
  tzOffset : Tz → Chrono.DateTime → Int
  wallAt : Int → Chrono.DateTime → Wall

namespace Time

def trimmed (s : String) : String := String.ofList (JsonPath.trim s.toList)

section

variable [Chrono] [Formats]

open Formats

/-- Where dates are shown and read. -/
inductive Zone
  | utc
  | machine
  | named (tz : Tz)
  | fixed (east : Int)

def digitsValue (l : List Char) : Nat := l.foldl (fun n c => n * 10 + (c.toNat - 48)) 0

/-- `+01:00`, `-0530`, `+01`. Whatever comes first is taken for the sign: the code ends in a
panic where that is a character of several bytes. -/
def parseOffset (s : List Char) : Option Int :=
  let sign : Int := if s.head? = some '-' then -1 else 1
  let digits := s.tail.filter (· ≠ ':')
  if digits.all Char.isDigit then
    let found : Option (Nat × Nat) :=
      if digits.length = 2 then some (digitsValue digits, 0)
      else if digits.length = 4 then some (digitsValue (digits.take 2), digitsValue (digits.drop 2))
      else none
    found.bind fun (h, m) => if 14 < h ∨ 59 < m then none else some (sign * (h * 3600 + m * 60))
  else none

namespace Zone

/-- `UTC`, `local`, a name such as `Africa/Kinshasa`, or an offset such as `+01:00`. -/
def parse (name : String) : Except String Zone :=
  let bad :=
    s!"'{name}' is not a time zone: use UTC, local, a name such as Africa/Kinshasa, or an offset such as +01:00"
  let s := trimmed name
  if s.toLower = "utc" ∨ s = "Z" then .ok utc
  else if s.toLower = "local" then .ok machine
  else if s.toList.head? = some '+' ∨ s.toList.head? = some '-' then
    match parseOffset s.toList with
    | some east => .ok (fixed east)
    | none => .error bad
  else
    match Formats.tz s with
    | some t => .ok (named t)
    | none => .error bad

def name : Zone → String
  | utc => "UTC"
  | machine => "local"
  | named t => tzName t
  | fixed east => offsetText east

/-- The instant a wall clock shows: the first of two when the clocks go back, none in the
hour skipped when they go forward. -/
def instant : Zone → Wall → Option Chrono.DateTime
  | utc, w => some (andUtc w)
  | machine, w => machineInstant w
  | named t, w => tzInstant t w
  | fixed east, w => fixedInstant east w

/-- The offset from UTC at an instant, summer time included. -/
def offsetAt : Zone → Chrono.DateTime → Int
  | utc, _ => 0
  | machine, t => machineOffset t
  | named tz, t => tzOffset tz t
  | fixed east, _ => east

/-- The wall clock at an instant. -/
def wall (zone : Zone) (t : Chrono.DateTime) : Wall := wallAt (zone.offsetAt t) t

end Zone

def datetimeHelp : String :=
  "write a datetime as \"2026-10-27 14:30:00\" (seconds optional), with a T instead of the space if you like, and optionally a zone: Z, +01:00 or UTC"

def replaceFirst (a b : Char) : List Char → List Char
  | [] => []
  | c :: cs => if c = a then b :: cs else c :: replaceFirst a b cs

def wallOf (s : List Char) : Option Wall :=
  let s := String.ofList (replaceFirst 'T' ' ' s)
  match wall s "%Y-%m-%d %H:%M:%S%.f" with
  | some w => some w
  | none =>
      match wall s "%Y-%m-%d %H:%M" with
      | some w => some w
      | none => (date s "%Y-%m-%d").map fun d => (d, midnight)

def stripSuffix (suffix s : List Char) : Option (List Char) :=
  if suffix.isSuffixOf s then some (s.take (s.length - suffix.length)) else none

def trimEnd (s : List Char) : List Char := (s.reverse.dropWhile JsonPath.isWhitespace).reverse

def offsetFormats : List String :=
  ["%Y-%m-%d %H:%M:%S%.f %:z", "%Y-%m-%d %H:%M %:z", "%Y-%m-%dT%H:%M%:z", "%Y-%m-%d %H:%M%:z"]

/-- Reads a wall clock of `zone`, or of UTC where the text says so. -/
def parseWall (text : String) (s : List Char) (zone : Zone) : Except String Chrono.DateTime :=
  let stripped := (stripSuffix " UTC".toList s).or ((stripSuffix ['Z'] s).or (stripSuffix ['z'] s))
  let (s, zone) := match stripped with
    | some rest => (trimEnd rest, Zone.utc)
    | none => (s, zone)
  match wallOf s with
  | none => .error s!"'{text}' is not a datetime: {datetimeHelp}"
  | some w =>
      match zone.instant w with
      | some t => .ok t
      | none => .error s!"'{text}' does not exist in the time zone {zone.name}: the clocks went forward then"

/-- Reads a datetime. Without a zone of its own, the text is a wall clock of `zone`; a date
alone is midnight there. -/
def parseDatetime (text : String) (zone : Zone) : Except String Chrono.DateTime :=
  let s := trimmed text
  match rfc3339 s with
  | some t => .ok t
  | none =>
      match offsetFormats.findSome? (dateTime s) with
      | some t => .ok t
      | none => parseWall text s.toList zone

def parseDate (text : String) : Except String Date :=
  match date (trimmed text) "%Y-%m-%d" with
  | some d => .ok d
  | none => .error s!"'{text}' is not a date: write it as \"2026-10-27\" (year, month, day)"

def parseTime (text : String) : Except String Chrono.NaiveTime :=
  match ["%H:%M:%S%.f", "%H:%M"].findSome? (time (trimmed text)) with
  | some t => .ok t
  | none => .error s!"'{text}' is not a time: write it as \"14:30\" or \"14:30:00\""

end

end Time

end KivaDb
