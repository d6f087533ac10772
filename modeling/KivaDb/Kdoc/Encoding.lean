import KivaDb.Doc
import KivaDb.Lib.Days
import KivaDb.Lib.Reading
import KivaDb.Lib.Utf8

namespace KivaDb

open Lib.LittleEndian Lib.Calendar Lib.Utf8 Lib.Reading

/-- What the encoding uses of `chrono`: the fields of instants and times of day,
and what its constructors accept. Nanoseconds from 1 000 000 000 on are those of
a leap second. -/
class Clocks [Chrono] where
  nanosecond : Chrono.DateTime → Nat
  timestampMillis : Chrono.DateTime → Int64
  fromTimestampMillis : Int64 → Option Chrono.DateTime
  dateTimeText : Chrono.DateTime → String
  timeNanosecond : Chrono.NaiveTime → Nat
  numSecondsFromMidnight : Chrono.NaiveTime → Nat
  fromNumSecondsFromMidnight : Nat → Nat → Option Chrono.NaiveTime
  naiveTimeText : Chrono.NaiveTime → String
  millis_back : ∀ t, 1000000 ∣ nanosecond t → nanosecond t < 1000000000 →
    fromTimestampMillis (timestampMillis t) = some t
  millis_nanos : ∀ ms t, fromTimestampMillis ms = some t → nanosecond t = (ms.toInt % 1000).toNat * 1000000
  time_back : ∀ t, timeNanosecond t < 1000000000 →
    fromNumSecondsFromMidnight (numSecondsFromMidnight t) (timeNanosecond t) = some t
  time_secs : ∀ t, numSecondsFromMidnight t < 86400
  time_nanos : ∀ s n t, fromNumSecondsFromMidnight s n = some t → timeNanosecond t = n

namespace F64

def toBits (f : F64) : Nat := (if f.negative then 2 ^ 63 else 0) + f.exponent.val * 2 ^ 52 + f.fraction.val

/-- The finite number of 64 bits; `none` for infinities and what is not a number. -/
def ofBits (n : Nat) : Option F64 :=
  if h : n / 2 ^ 52 % 2048 < 2047 then
    some ⟨n / 2 ^ 63 % 2 = 1, ⟨n / 2 ^ 52 % 2048, h⟩, ⟨n % 2 ^ 52, fraction_lt n⟩⟩
  else none

end F64

namespace Decimal

def maxScale : Nat := 28

/-- The flags: the scale, and the sign in the top bit. -/
def flags (d : Decimal) : UInt32 :=
  UInt32.ofNat (d.scale * 2 ^ 16 + if d.mantissa < 0 then 2 ^ 31 else 0)

/-- The flags, then the mantissa from its lowest part. -/
def serialize (d : Decimal) : Bytes := le32 d.flags ++ toLE 12 d.mantissa.natAbs

def deserialize (raw : Bytes) : Decimal :=
  let flags := u32At raw 0
  let m : Nat := ofLE (slice raw 4 12) % 2 ^ 96
  { mantissa := if flags >>> 31 = 1 then -(m : Int) else m
    scale := min (flags >>> 16 &&& 0xFF).toNat maxScale
    mantissa_lt := by
      have h : m < 2 ^ 96 := Nat.mod_lt _ (by decide)
      split
      · rwa [Int.natAbs_neg, Int.natAbs_natCast]
      · rwa [Int.natAbs_natCast]
    scale_le := Nat.min_le_right _ _ }

end Decimal

namespace Kdoc

def maxDepth : Nat := 128

def version : UInt8 := 1

def tNull : UInt8 := 0x00
def tFalse : UInt8 := 0x01
def tTrue : UInt8 := 0x02
def tInt : UInt8 := 0x03
def tFloat : UInt8 := 0x04
def tDecimal : UInt8 := 0x05
def tString : UInt8 := 0x06
def tDate : UInt8 := 0x07
def tDateTime : UInt8 := 0x08
def tTime : UInt8 := 0x09
def tArray : UInt8 := 0x0A
def tObject : UInt8 := 0x0B

/-- The days a date of `chrono` can be. -/
def inRange (d : Date) : Bool := -262143 ≤ d.year && d.year ≤ 262142

def wholeMs (nanos : Nat) : Bool := nanos % 1000000 = 0 && nanos < 1000000000

def zigzag (i : Int64) : UInt64 := ((i <<< 1) ^^^ (i >>> 63)).toUInt64

def unzigzag (z : UInt64) : Int64 := (z >>> 1).toInt64 ^^^ -(z &&& 1).toInt64

def tooDeep : String := s!"a document nested deeper than {maxDepth} levels"

variable [Chrono] [Clocks]

mutual

def checkAt : Doc → Nat → Except String Unit
  | .time t, depth =>
      if maxDepth < depth then .error tooDeep
      else if wholeMs (Clocks.timeNanosecond t) then .ok ()
      else .error s!"the time {Clocks.naiveTimeText t} is finer than the millisecond, or a leap second"
  | .dateTime t, depth =>
      if maxDepth < depth then .error tooDeep
      else if wholeMs (Clocks.nanosecond t) then .ok ()
      else .error s!"the datetime {Clocks.dateTimeText t} is finer than the millisecond, or a leap second"
  | .array items, depth => if maxDepth < depth then .error tooDeep else checkItems items (depth + 1)
  | .object m, depth => if maxDepth < depth then .error tooDeep else checkMembers m (depth + 1)
  | _, depth => if maxDepth < depth then .error tooDeep else .ok ()

def checkItems : List Doc → Nat → Except String Unit
  | [], _ => .ok ()
  | d :: ds, depth => do
      checkAt d depth
      checkItems ds depth

def checkMembers : List (String × Doc) → Nat → Except String Unit
  | [], _ => .ok ()
  | (_, d) :: ds, depth => do
      checkAt d depth
      checkMembers ds depth

end

/-- Refuses what `decode` would refuse or read back differently. -/
def check (d : Doc) : Except String Unit := checkAt d 1

/-- A length or a count. -/
def putLen (n : Nat) : Bytes := putVarint 9 n

def putText (s : String) : Bytes := putLen (asBytes s).length ++ asBytes s

mutual

def encodeValue : Doc → Bytes
  | .null => [tNull]
  | .bool false => [tFalse]
  | .bool true => [tTrue]
  | .int i => tInt :: putVarint 9 (zigzag i).toNat
  | .float f => tFloat :: toLE 8 f.toBits
  | .decimal d => tDecimal :: d.serialize
  | .str s => tString :: putText s
  | .date d => tDate :: le32 (Int32.ofInt d.days).toUInt32
  | .dateTime t => tDateTime :: leI64 (Clocks.timestampMillis t)
  | .time t =>
      tTime :: le32 (UInt32.ofNat (Clocks.numSecondsFromMidnight t * 1000 + Clocks.timeNanosecond t / 1000000))
  | .array items => tArray :: (putLen items.length ++ encodeItems items)
  | .object m => tObject :: (putLen m.length ++ encodeMembers m)

def encodeItems : List Doc → Bytes
  | [] => []
  | d :: ds => encodeValue d ++ encodeItems ds

def encodeMembers : List (String × Doc) → Bytes
  | [] => []
  | (k, d) :: ds => putText k ++ (encodeValue d ++ encodeMembers ds)

end

/-- The version byte, then the value. -/
def encode (d : Doc) : Bytes := version :: encodeValue d

def text : R String := do
  let n ← count
  let bytes ← take n
  match fromUtf8 bytes with
  | some s => return s
  | none => bad "a text that is not UTF-8"

def members (value : R Doc) : Nat → List (String × Doc) → R (List (String × Doc))
  | 0, m => return m
  | n + 1, m => do
      let k ← text
      let v ← value
      if m.any (·.1 = k) then bad "a member given twice" else members value n (m ++ [(k, v)])

/-- What follows the type byte. -/
def payload (value : R Doc) (t : UInt8) : R Doc := do
  if t = tNull then return .null
  else if t = tFalse then return .bool false
  else if t = tTrue then return .bool true
  else if t = tInt then return .int (unzigzag (UInt64.ofNat (← varint)))
  else if t = tFloat then
    match F64.ofBits (ofLE (← array 8)) with
    | some f => return .float f
    | none => bad "a float that is not finite"
  else if t = tDecimal then
    let raw ← array 16
    let flags := u32At raw 0
    if flags &&& ~~~0x801F0000 ≠ 0 ∨ Decimal.maxScale < (flags >>> 16 &&& 0xFF).toNat then
      bad "a decimal with a wrong scale"
    else return .decimal (Decimal.deserialize raw)
  else if t = tString then return .str (← text)
  else if t = tDate then
    let d := Date.epoch.addDays (u32At (← array 4) 0).toInt32.toInt
    if inRange d then return .date d else bad "a date out of range"
  else if t = tDateTime then
    match Clocks.fromTimestampMillis (i64At (← array 8) 0) with
    | some t => return .dateTime t
    | none => bad "a datetime out of range"
  else if t = tTime then
    let ms := (u32At (← array 4) 0).toNat
    match (Clocks.fromNumSecondsFromMidnight (ms / 1000) (ms % 1000 * 1000000)).filter fun _ => ms < 86400000 with
    | some t => return .time t
    | none => bad "a time out of range"
  else if t = tArray then return .array (← items value (← count))
  else if t = tObject then return .object (← members value (← count) [])
  else bad "an unknown type"

/-- A value with at most this many levels. -/
def value : Nat → R Doc
  | 0 => bad s!"nesting deeper than {maxDepth}"
  | levels + 1 => do payload (value levels) (← byte)

/-- Reads exactly one well-formed value of a known version. -/
def decode (bytes : Bytes) : Except Stop Doc :=
  match byte ⟨bytes, 0⟩ with
  | .error .panic _ => .error .panic
  | .error (.bad _) _ => .error (.bad "an empty document")
  | .ok v r =>
      if v ≠ version then
        .error (.bad s!"a document of encoding version {v}, which this KivaDB does not read: it was written by a newer one")
      else
        match value maxDepth r with
        | .error e _ => .error e
        | .ok doc r =>
            if r.pos ≠ bytes.length then .error (.bad (said "bytes after the document" r.pos)) else .ok doc

end Kdoc

end KivaDb
