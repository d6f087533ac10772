import KivaDb.Time.Reading

namespace KivaDb

namespace Time

open Lib.Calendar

/-- What a format writes. -/
inductive FormatKind
  | date
  | time
  | datetime
  deriving DecidableEq

def FormatKind.name : FormatKind → String
  | date => "date"
  | time => "time"
  | datetime => "datetime"

inductive Part
  | year
  | month
  | day
  | hour
  | minute
  | second
  | millis
  | offset
  | sep (c : Char)
  deriving DecidableEq

namespace Part

def isField : Part → Bool
  | sep _ => false
  | _ => true

def token : Part → String
  | year => "YYYY"
  | millis => "SSS"
  | offset => "XXX"
  | month => "MM"
  | day => "DD"
  | hour => "HH"
  | minute => "mm"
  | second => "ss"
  | sep _ => ""

end Part

def separators : List Char := "-/.: T".toList

def tokenHelp : String := "tokens YYYY, MM, DD, HH, mm, ss, SSS, XXX, separated by - / . : space or T"

/-- A format of dates such as `DD-MM-YYYY`. -/
structure Pattern where
  text : String
  parts : List Part
  deriving DecidableEq

namespace Pattern

/-- The parts of a format, the longest token first. -/
def partsOf (bad : String → String) : List Char → Except String (List Part)
  | [] => .ok []
  | 'Y' :: 'Y' :: 'Y' :: 'Y' :: rest => (partsOf bad rest).map (.year :: ·)
  | 'S' :: 'S' :: 'S' :: rest => (partsOf bad rest).map (.millis :: ·)
  | 'X' :: 'X' :: 'X' :: rest => (partsOf bad rest).map (.offset :: ·)
  | 'M' :: 'M' :: rest => (partsOf bad rest).map (.month :: ·)
  | 'D' :: 'D' :: rest => (partsOf bad rest).map (.day :: ·)
  | 'H' :: 'H' :: rest => (partsOf bad rest).map (.hour :: ·)
  | 'm' :: 'm' :: rest => (partsOf bad rest).map (.minute :: ·)
  | 's' :: 's' :: rest => (partsOf bad rest).map (.second :: ·)
  | 'Y' :: 'Y' :: _ => .error (bad "the year has four digits, YYYY")
  | c :: rest =>
      if c ∈ separators then (partsOf bad rest).map (.sep c :: ·) else .error (bad s!"'{c}' is not one of the {tokenHelp}")

def needed : FormatKind → List Part
  | .date => [.year, .month, .day]
  | .time => [.hour, .minute]
  | .datetime => [.year, .month, .day, .hour, .minute]

def allowed : FormatKind → List Part
  | .date => [.year, .month, .day]
  | .time => [.hour, .minute, .second, .millis]
  | .datetime => [.year, .month, .day, .hour, .minute, .second, .millis, .offset]

/-- Whether `a` comes before `b`, where both are there. -/
def ordered (fields : List Part) (a b : Part) : Bool :=
  match fields.idxOf? a, fields.idxOf? b with
  | some x, some y => x < y
  | _, _ => true

/-- Each field once, those of its kind only, the time in its order, the offset last. -/
def check (bad : String → String) (kind : FormatKind) (fields : List Part) : Except String Unit :=
  match fields.find? fun p => 1 < fields.count p with
  | some p => .error (bad s!"{p.token} is there twice")
  | none =>
      match (needed kind).find? fun p => p ∉ fields with
      | some p => .error (bad s!"{p.token} is missing")
      | none =>
          match fields.find? fun p => p ∉ allowed kind with
          | some p => .error (bad s!"a {kind.name} has no {p.token}")
          | none =>
              if ¬ ordered fields .hour .minute ∨ ¬ ordered fields .minute .second ∨ ¬ ordered fields .second .millis then
                .error (bad "the time is written HH, mm, then ss, then SSS")
              else if .millis ∈ fields ∧ .second ∉ fields then .error (bad "SSS needs ss before it")
              else if .offset ∈ fields ∧ fields.idxOf .offset + 1 ≠ fields.length then .error (bad "XXX comes last")
              else if fields.idxOf? .year = some 0 ∧ ¬ ordered fields .month .day then
                -- a text that starts with the year is read as ISO
                .error (bad "with the year first, the month comes before the day, as in ISO")
              else .ok ()

/-- Reads and checks a format. -/
def parse (kind : FormatKind) (text : String) : Except String Pattern := do
  let bad (why : String) : String := s!"'{text}' is not a {kind.name} format: {why}"
  let parts ← partsOf bad text.toList
  check bad kind (parts.filter Part.isField)
  return ⟨text, parts⟩

end Pattern

/-- The fields a text gave. -/
structure Fields where
  year : Option Nat
  month : Option Nat
  day : Option Nat
  hour : Option Nat
  minute : Option Nat
  second : Option Nat
  millis : Option Nat
  offset : Option Int
  deriving DecidableEq

namespace Fields

def empty : Fields := ⟨none, none, none, none, none, none, none, none⟩

def set (f : Fields) (p : Part) (n : Nat) : Fields :=
  match p with
  | .year => { f with year := some n }
  | .month => { f with month := some n }
  | .day => { f with day := some n }
  | .hour => { f with hour := some n }
  | .minute => { f with minute := some n }
  | .second => { f with second := some n }
  | .millis => { f with millis := some n }
  | _ => f

end Fields

namespace Part

/-- How many digits a number of a text has. -/
def width : Part → Nat
  | year => 4
  | millis => 3
  | _ => 2

end Part

section

variable [Chrono] [Formats]

namespace Pattern

def number (width : Nat) (s : List Char) : Option Nat :=
  if width ≤ s.length ∧ (s.take width).all Char.isDigit then some (digitsValue (s.take width)) else none

/-- Whether only an offset is left, which may be left out. -/
def optional (parts : List Part) : Bool := parts.all (fun p => !p.isField || p = .offset) && .offset ∈ parts

/-- The fields of a text that follows the parts exactly, digit for digit. Where characters
of several bytes stand for an offset, the code may end in a panic. -/
def readParts : List Part → List Char → Fields → Option Fields
  | [], s, f => if s = [] then some f else none
  | p :: parts, s, f =>
      if s = [] ∧ optional (p :: parts) then some f
      else
        match p with
        | .sep c => if s.head? = some c then readParts parts s.tail f else none
        | .offset =>
            if s.head? = some 'Z' ∨ s.head? = some 'z' then readParts parts s.tail { f with offset := some 0 }
            else if 6 ≤ s.length ∧ (s.take 6).all (fun c => c.toNat < 128) then
              (parseOffset (s.take 6)).bind fun o => readParts parts (s.drop 6) { f with offset := some o }
            else none
        | p => (number p.width s).bind fun n => readParts parts (s.drop p.width) (f.set p n)

def read (p : Pattern) (text : String) : Option Fields := readParts p.parts (JsonPath.trim text.toList) .empty

def dateOf (f : Fields) : Option Date := do Date.ofYmd? (← f.year) (← f.month) (← f.day)

/-- A leap second is refused, as 24:00. -/
def timeOf (f : Fields) : Option Chrono.NaiveTime := do
  let t ← Formats.fromHmsMilli (← f.hour) (← f.minute) (f.second.getD 0) (f.millis.getD 0)
  if f.second.getD 0 < 60 then some t else none

def readDate (p : Pattern) (text : String) : Option Date := (p.read text).bind dateOf

def wallOf (f : Fields) : Option Wall := do return (← dateOf f, ← timeOf f)

/-- Nothing when the text does not follow the format; an error when it does, but names a
wall clock the zone skips. -/
def readDatetime (p : Pattern) (text : String) (zone : Zone) : Option (Except String Chrono.DateTime) := do
  let f ← p.read text
  let w ← wallOf f
  return match f.offset with
    | some o =>
        match Formats.fixedInstant o w with
        | some t => .ok t
        | none => .error s!"'{text}' is not a datetime"
    | none =>
        match zone.instant w with
        | some t => .ok t
        | none => .error s!"'{text}' does not exist in the time zone {zone.name}: the clocks went forward then"

/-- A year in four characters at least. -/
def fourDigits (y : Int) : List Char := if y < 0 then '-' :: padded 3 y.natAbs else padded 4 y.toNat

def writePart (d : Option Date) (t : Option Chrono.NaiveTime) (o : Option Int) : Part → List Char
  | .sep c => [c]
  | .year => fourDigits (d.elim 0 Date.year)
  | .month => padded 2 (d.elim 0 Date.month)
  | .day => padded 2 (d.elim 0 Date.day)
  | .hour => padded 2 (t.elim 0 Formats.hour)
  | .minute => padded 2 (t.elim 0 Formats.minute)
  | .second => padded 2 (t.elim 0 Formats.second)
  | .millis => padded 3 (t.elim 0 fun t => Formats.nanosecond t / 1000000)
  | .offset =>
      match o with
      | some o => if o = 0 then ['Z'] else (Formats.offsetText o).toList
      | none => ['Z']

def write (p : Pattern) (d : Option Date) (t : Option Chrono.NaiveTime) (o : Option Int) : String :=
  String.ofList (p.parts.flatMap (writePart d t o))

/-- An instant as a wall clock of `zone`. -/
def showInstant (p : Pattern) (t : Chrono.DateTime) (zone : Zone) : String :=
  let w := zone.wall t
  p.write (some w.1) (some w.2) (some (zone.offsetAt t))

end Pattern

def exampleDate : Date := .of 2026 10 27 (by decide)

/-- A date typed in a command: the session's format, or ISO. -/
def readDate (format : Option Pattern) (text : String) : Except String Date :=
  match format with
  | none => parseDate text
  | some p =>
      match p.readDate text with
      | some d => .ok d
      | none =>
          match parseDate text with
          | .ok d => .ok d
          | .error _ =>
              .error s!"'{text}' is not a date under the format {p.text} of this session: write it as {p.write (some exampleDate) none none} or as 2026-10-27 (ISO)"

/-- A datetime typed in a command: the session's format, or ISO. Without an offset, it is a
wall clock of `zone`. -/
def readDatetime (format : Option Pattern) (text : String) (zone : Zone) : Except String Chrono.DateTime :=
  match format with
  | none => parseDatetime text zone
  | some p =>
      match p.readDatetime text zone with
      | some r => r
      | none =>
          match parseDatetime text zone with
          | .ok t => .ok t
          | .error _ =>
              let shown := (((Formats.fromHmsMilli 14 30 0 0).bind fun t => zone.instant (exampleDate, t)).map
                fun t => p.showInstant t zone).getD ""
              .error s!"'{text}' is not a datetime under the format {p.text} of this session: write it as {shown} or as 2026-10-27 14:30:00 (ISO)"

end

end Time

end KivaDb
