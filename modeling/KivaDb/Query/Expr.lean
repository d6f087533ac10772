import KivaDb.Query.Aggregate
import KivaDb.Time.Reading

namespace KivaDb

open Lib.Calendar

/-- The order of moments. -/
class Moments [Chrono] where
  cmpDateTime : Chrono.DateTime → Chrono.DateTime → Ordering
  cmpTime : Chrono.NaiveTime → Chrono.NaiveTime → Ordering

/-- Conditions read dates as everything else does, in the zones of sessions. -/
@[reducible] def Time.zones [Chrono] [Formats] [Moments] : Zones where
  Zone := Time.Zone
  utc := .utc
  parseDate s := (Time.parseDate s).toOption
  parseDatetime s zone := (Time.parseDatetime s zone).toOption
  wall := Time.Zone.wall
  cmpDateTime := Moments.cmpDateTime
  cmpTime := Moments.cmpTime
  hour := Formats.hour
  minute := Formats.minute
  second := Formats.second

def CmpOp.isWord : CmpOp → Bool
  | in_ | like | ilike => true
  | _ => false

namespace Query

def asI64 : Json → Option Int64
  | .number n => n.asI64
  | _ => none

/-- Comparisons one query may hold. -/
def maxConditions : Nat := 64

/-- Nesting of `and`, `or` and `not` one query may hold. -/
def maxDepth : Nat := 16

def maxInValues : Nat := 1024

def operatorMessage : String :=
  "the comparison operators are = != > >= < <= with one value, in [...] with a list of values, like and ilike with a text pattern (% for any text, _ for one character); for a range, join two comparisons with 'and'."

/-- One string, number, boolean or null; a moment counts as one value. -/
def isScalar (j : Json) : Bool :=
  match j with
  | .array _ => false
  | .object _ => (tagged j).isSome
  | _ => true

/-- The value of the condition. -/
def checkValue [Arithmetic] (op : CmpOp) (value : Json) : Except String Unit :=
  let shown := Arithmetic.jsonText value
  match op, value with
  | .in_, .array list =>
      if list = [] then .error "'in' needs at least one value: in [\"Goma\", \"Bukavu\"]"
      else if maxInValues < list.length then
        .error s!"an 'in' list holds at most {maxInValues} values, this one has {list.length}"
      else if list.all isScalar then .ok ()
      else .error "the values of an 'in' list are strings, numbers, booleans or null"
  | .in_, _ => .error s!"'in' takes a list of values, such as in [\"Goma\", \"Bukavu\"], not {shown}"
  | .like, .string _ => .ok ()
  | .ilike, .string _ => .ok ()
  | .like, _ | .ilike, _ =>
      .error s!"'{op.symbol}' takes a quoted text pattern, such as \"Kin%\" (% for any text, _ for one character), not {shown}"
  | _, _ =>
      if isScalar value then .ok ()
      else
        .error s!"a condition compares with one string, number, boolean or null, not with an array or an object: {operatorMessage}"

end Query

/-- One comparison, with its field path parsed once. -/
structure Test where
  cond : Cond
  path : List Seg

/-- The condition of a query: comparisons joined by `and`, `or`, `not`. -/
inductive Expr
  | test (t : Test)
  | and_ (parts : List Expr)
  | or_ (parts : List Expr)
  | not (e : Expr)

namespace Expr

/-- `and` of the parts; nested `and`s are flattened. -/
def and (parts : List Expr) : Expr :=
  match parts.flatMap fun | and_ v => v | p => [p] with
  | [p] => p
  | flat => and_ flat

def or (parts : List Expr) : Expr :=
  match parts.flatMap fun | or_ v => v | p => [p] with
  | [p] => p
  | flat => or_ flat

def negate : Expr → Expr
  | not inner => inner
  | e => not e

mutual

/-- How many comparisons there are. -/
def conditions : Expr → Nat
  | test _ => 1
  | and_ v | or_ v => conditionsAll v
  | not e => conditions e

def conditionsAll : List Expr → Nat
  | [] => 0
  | e :: es => conditions e + conditionsAll es

end

mutual

def depth : Expr → Nat
  | test _ => 0
  | and_ v | or_ v => 1 + depthAll v
  | not e => 1 + depth e

def depthAll : List Expr → Nat
  | [] => 0
  | e :: es => max (depth e) (depthAll es)

end

def checkSize (e : Expr) : Except String Unit :=
  let n := e.conditions
  if Query.maxConditions < n then .error s!"a query holds at most {Query.maxConditions} comparisons, this one has {n}"
  else if Query.maxDepth < e.depth then
    .error s!"a query nests and / or / not at most {Query.maxDepth} levels deep"
  else .ok ()

section

variable [Chrono] [Formats] [Moments] [Codec] [Arithmetic]

attribute [local instance] Time.zones

mutual

/-- Whether a document satisfies the expression: a comparison on a field the document lacks
is false, so `not` of it is true. -/
def matchesView (zone : Time.Zone) (doc : DocView) : Expr → Bool
  | test t => (doc.get t.path).any fun v => t.cond.testLeaf zone v
  | and_ v => allMatch zone doc v
  | or_ v => anyMatch zone doc v
  | not e => !matchesView zone doc e

def allMatch (zone : Time.Zone) (doc : DocView) : List Expr → Bool
  | [] => true
  | e :: es => matchesView zone doc e && allMatch zone doc es

def anyMatch (zone : Time.Zone) (doc : DocView) : List Expr → Bool
  | [] => false
  | e :: es => matchesView zone doc e || anyMatch zone doc es

end

/-- A comparison that is no range of years. -/
def plainTest (cond : Cond) : Except String Expr := do
  Query.checkField cond.field
  Query.checkValue cond.op cond.value
  return test ⟨cond, ← JsonPath.parsePath cond.field⟩

/-- The first instant of a year in the zone. -/
def yearStart (zone : Time.Zone) (year : Int) : Option Chrono.DateTime :=
  if -262143 ≤ year ∧ year ≤ 262142 then
    (Date.ofYmd? year 1 1).bind fun d => zone.instant (d, Formats.midnight)
  else none

/-- The instants of a year of the zone, the second bound left out. -/
def yearBounds (zone : Time.Zone) (year : Int64) : Option (Chrono.DateTime × Chrono.DateTime) := do
  return (← yearStart zone year.toInt, ← yearStart zone (year.toInt + 1))

/-- `year(x) = 2026` as a range, in the session's zone. The comparisons it is made of have no
function, so `plainTest` is what `test` is for them. -/
def yearRange (zone : Time.Zone) (cond : Cond) : Except String (Option Expr) :=
  match cond.func, Query.asI64 cond.value with
  | some .year, some year =>
      match yearBounds zone year with
      | none => .ok none
      | some (start, stop) =>
          let bound (op : CmpOp) (at_ : Chrono.DateTime) : Except String Expr :=
            plainTest ⟨cond.pattern, cond.field, op, .object [("$datetime", .string (Chrono.iso at_))], none⟩
          match cond.op with
          | .eq => do return some (and [← bound .ge start, ← bound .lt stop])
          | .ne => do return some (or [← bound .lt start, ← bound .ge stop])
          | .gt => do return some (← bound .ge stop)
          | .ge => do return some (← bound .ge start)
          | .lt => do return some (← bound .lt start)
          | .le => do return some (← bound .lt stop)
          | .in_ | .like | .ilike => .ok none
  | _, _ => .ok none

/-- The expression of one comparison. -/
def ofCond (zone : Time.Zone) (cond : Cond) : Except String Expr := do
  Query.checkField cond.field
  Query.checkValue cond.op cond.value
  match ← yearRange zone cond with
  | some e => return e
  | none => return test ⟨cond, ← JsonPath.parsePath cond.field⟩

omit [Moments] [Codec] in
theorem ofCond_plain (zone : Time.Zone) (pattern field : String) (op : CmpOp) (value : Json) :
    ofCond zone ⟨pattern, field, op, value, none⟩ = plainTest ⟨pattern, field, op, value, none⟩ := rfl

end

end Expr

end KivaDb
