import KivaDb.SecIndex
import KivaDb.Lib.Days

namespace KivaDb

open Lib.Calendar

inductive CmpOp
  | eq
  | ne
  | gt
  | ge
  | lt
  | le
  | in_
  | like
  | ilike
  deriving DecidableEq

def CmpOp.symbol : CmpOp → String
  | eq => "="
  | ne => "!="
  | gt => ">"
  | ge => ">="
  | lt => "<"
  | le => "<="
  | in_ => "in"
  | like => "like"
  | ilike => "ilike"

inductive TimeFn
  | year
  | month
  | day
  | hour
  | minute
  | second
  | weekday
  deriving DecidableEq

/-- What conditions use of `chrono` and of the time zones: texts read as moments,
where a wall clock needs a zone, and the parts and the order of moments. -/
class Zones [Chrono] where
  Zone : Type
  utc : Zone
  parseDate : String → Option Date
  parseDatetime : String → Zone → Option Chrono.DateTime
  wall : Zone → Chrono.DateTime → Date × Chrono.NaiveTime
  cmpDateTime : Chrono.DateTime → Chrono.DateTime → Ordering
  cmpTime : Chrono.NaiveTime → Chrono.NaiveTime → Ordering
  hour : Chrono.NaiveTime → Nat
  minute : Chrono.NaiveTime → Nat
  second : Chrono.NaiveTime → Nat

inductive Tag
  | datetime
  | time
  deriving DecidableEq

/-- The kind of a condition value written with a date function, if it is one. -/
def tagged : Json → Option (Tag × String)
  | .object [("$datetime", .string s)] => some (.datetime, s)
  | .object [("$time", .string s)] => some (.time, s)
  | _ => none

inductive LikePart
  | any
  | one
  | char (c : Char)

def likeParts : List Char → List LikePart
  | [] => []
  | '%' :: cs => .any :: likeParts cs
  | '_' :: cs => .one :: likeParts cs
  | '\\' :: c :: cs => .char c :: likeParts cs
  | c :: cs => .char c :: likeParts cs

/-- The loop of `like_match` on what is left of the pattern and of the text; `last`
is what followed the last `%`, in the pattern and in the text it was tried at. -/
def likeLoop : Nat → List LikePart → List Char → Option (List LikePart × List Char) → Bool
  | 0, _, _, _ => false
  | _ + 1, p, [], _ => p.all fun | .any => true | _ => false
  | fuel + 1, p, c :: t, last =>
      let back : Bool := match last with
        | some (ap, at_) => likeLoop fuel ap at_.tail (some (ap, at_.tail))
        | none => false
      match p with
      | .any :: p => likeLoop fuel p (c :: t) (some (p, c :: t))
      | .one :: p => likeLoop fuel p t last
      | .char d :: p => if d = c then likeLoop fuel p t last else back
      | [] => back

section

variable [Chrono] [Codec]

def likeMatch (text pattern : String) (fold : Bool) : Bool :=
  let t := (if fold then Codec.lowercase text else text).toList
  let p := likeParts (if fold then Codec.lowercase pattern else pattern).toList
  likeLoop ((t.length + 1) * (p.length + 2)) p t none

end

/-- What a comparison answers, from the order of its two values (`none`: not
comparable, which only `!=` accepts). -/
def verdict : Option Ordering → CmpOp → Bool
  | none, .ne => true
  | none, _ => false
  | some o, .eq => o = .eq
  | some o, .ne => o ≠ .eq
  | some o, .gt => o = .gt
  | some o, .ge => o ≠ .lt
  | some o, .lt => o = .lt
  | some o, .le => o ≠ .gt
  | some _, _ => false

/-- The order of two JSON values of the same kind; booleans only compare for `=`
and `!=`. -/
def plainOrder (a b : Json) (op : CmpOp) : Option Ordering :=
  match a, b with
  | .number x, .number y => some (Num.cmp x y)
  | .string x, .string y => some (compare x y)
  | .bool x, .bool y => if op = .eq ∨ op = .ne then some (if x = y then .eq else .lt) else none
  | .null, .null => some .eq
  | _, _ => none

/-- `<pattern>.<field> <op> <value>`; `func` is the part of the field's date that is
compared. -/
structure Cond where
  pattern : String
  field : String
  op : CmpOp
  value : Json
  func : Option TimeFn

variable [Chrono] [Zones]

namespace TimeFn

def ofDate (f : TimeFn) (d : Date) : Option Int :=
  match f with
  | year => some d.year
  | month => some d.month
  | day => some d.day
  | weekday => some ((d.days + 3) % 7 + 1)
  | _ => none

def ofTime (f : TimeFn) (t : Chrono.NaiveTime) : Option Int :=
  match f with
  | hour => some (Zones.hour t)
  | minute => some (Zones.minute t)
  | second => some (Zones.second t)
  | _ => none

/-- The part of a date, time or datetime; a datetime is read in the zone. -/
def of (zone : Zones.Zone) (f : TimeFn) (v : Json) : Option Int := do
  let text ← match v with
    | .string s => some s
    | .object m => (tagged (.object m)).map Prod.snd
    | _ => none
  match Zones.parseDate text with
  | some d => f.ofDate d
  | none =>
      match Chrono.parseTime text with
      | some t => f.ofTime t
      | none =>
          let wall := Zones.wall zone (← Zones.parseDatetime text zone)
          f.ofDate wall.1 <|> f.ofTime wall.2

end TimeFn

/-- A field of a document read as a moment. -/
def instantOf (zone : Zones.Zone) (j : Json) : Option Chrono.DateTime :=
  match j with
  | .string s => Zones.parseDatetime s zone
  | .object [("$datetime", .string s)] => Zones.parseDatetime s zone
  | _ => none

/-- A field against a `$datetime` or `$time` value. -/
def compareTagged (zone : Zones.Zone) (field : Json) (tag : Tag) (text : String) : Option Ordering :=
  match tag with
  | .datetime => do return Zones.cmpDateTime (← instantOf zone field) (← Zones.parseDatetime text Zones.utc)
  | .time => do
      let s ← match field with
        | .string s => some s
        | .object [("$time", .string s)] => some s
        | _ => none
      return Zones.cmpTime (← Chrono.parseTime s) (← Chrono.parseTime text)

def compareOrder (zone : Zones.Zone) (a : Json) (op : CmpOp) (b : Json) : Bool :=
  verdict (match tagged b with
    | some (tag, text) => compareTagged zone a tag text
    | none => plainOrder a b op) op

variable [Codec]

def compareJson (zone : Zones.Zone) (a : Json) (op : CmpOp) (b : Json) : Bool :=
  match op, a, b with
  | .in_, a, .array list => list.any fun v => compareOrder zone a .eq v
  | .like, .string text, .string pattern => likeMatch text pattern false
  | .ilike, .string text, .string pattern => likeMatch text pattern true
  | .in_, _, _ => false
  | .like, _, _ => false
  | .ilike, _, _ => false
  | op, a, b => compareOrder zone a op b

/-- A decimal of a typed document against the value of a condition, by their exact
values. -/
def compareDecimal (d : Decimal) (op : CmpOp) (b : Json) : Bool :=
  let order (b : Json) : Option Ordering := match b with
    | .number n => some ((NumKey.decimal d).cmpJson n)
    | _ => none
  match op, b with
  | .in_, .array list => list.any fun v => verdict (order v) .eq
  | .in_, _ => false
  | .like, _ => false
  | .ilike, _ => false
  | op, b => verdict (order b) op

namespace Cond

def test (c : Cond) (zone : Zones.Zone) (v : Json) : Bool :=
  match c.func with
  | some f => (f.of zone v).any fun n => compareJson zone (.number (.ofInt (Int64.ofInt n))) c.op c.value
  | none => compareJson zone v c.op c.value

/-- A decimal by its exact value, any other value as its JSON. -/
def testLeaf (c : Cond) (zone : Zones.Zone) (v : Leaf) : Bool :=
  match v.decimal? with
  | some d => if c.func.isNone then compareDecimal d c.op c.value else c.test zone v.toJson
  | none => c.test zone v.toJson

end Cond

end KivaDb
