import KivaDb.Query.GroupKey
import KivaDb.Cond
import KivaDb.Lib.Commuting

namespace KivaDb

open Std Arithmetic Lib.Commuting

def Decimal.zero : Decimal := ⟨0, 0, by decide, zero_scale⟩

/-- Quotients of decimals, as `rust_decimal` makes them. -/
class Quotients where
  checkedDiv : Decimal → Decimal → Option Decimal

/-- A running sum, exact over integers; no `float` once it is infinite. -/
structure Sum where
  int : Int
  float : Option F64
  fractional : Bool
  deriving DecidableEq

namespace Sum

def zero : Sum := ⟨0, some ⟨false, 0, 0⟩, false⟩

/-- The integer that a number adds: `1.0` adds exactly, as `1` does. -/
def whole (n : Number) : Option Int :=
  match Num.exact n with
  | .int i => some i
  | .float f => if f.isWhole ∧ -(2 ^ 63) ≤ f.value ∧ f.value < 2 ^ 64 then some (Num.truncate f.value) else none

def push (s : Sum) (n : Number) : Sum :=
  match whole n with
  | some i => { s with int := s.int + i }
  | none => { s with fractional := true, float := s.float.bind fun f => f.add n.asF64 }

/-- The sum while only integers were added. -/
def exactInt (s : Sum) : Option Int := if s.fractional then none else some s.int

def total (s : Sum) : Option F64 := s.float.bind fun f => (F64.ofInt s.int).add f

end Sum

namespace Query

/-- A number as JSON: an integer when it is one. -/
def num (f : Option F64) : Json :=
  match f with
  | some f =>
      if f.isWhole ∧ |f.value| < 9 * 10 ^ 15 then .number (.ofInt (Int64.ofInt (Num.truncate f.value)))
      else .number (.float f)
  | none => .null

end Query

namespace Sum

/-- The sum as JSON: an exact integer when only integers were added. -/
def json (s : Sum) : Except String Json :=
  if s.fractional then .ok (Query.num s.total)
  else
    match Num.intJson s.int with
    | some n => .ok (.number n)
    | none => .error "the sum is beyond the 64-bit integers"

end Sum

inductive Func
  | count
  | sum
  | avg
  | min
  | max
  deriving DecidableEq

/-- One aggregate to compute, under a name. -/
structure Agg where
  name : String
  func : Func
  field : Option String
  path : List Seg

structure Acc where
  /-- Values taken into account. -/
  n : Nat
  sum : Sum
  /-- The exact sum of the decimals of typed documents, if any. -/
  decimals : Option Decimal
  /-- The smallest or largest value. -/
  best : Option Amount

structure Bucket where
  matches_ : Nat
  accs : List Acc

def maxGroups : Nat := 100000

def TimeFn.parse (name : String) : Option TimeFn :=
  match name.toLower with
  | "year" => some .year
  | "month" => some .month
  | "day" => some .day
  | "hour" => some .hour
  | "minute" => some .minute
  | "second" => some .second
  | "weekday" => some .weekday
  | _ => none

namespace Query

def joinMessage : String :=
  "joins are not supported: a query reads one key pattern and compares with a literal value. Keep related data in the same document, or read the related keys by name (get a and b)."

/-- A field of the condition: a path, without wildcards. -/
def checkField (field : String) : Except String PUnit :=
  if field.toList.any fun c => c = '*' ∨ c = '?' then
    .error s!"the field '{field}' contains a wildcard: wildcards go in the key pattern, before the field: {joinMessage}"
  else do
    let _ ← JsonPath.parsePath field
    return ⟨⟩

/-- `month(created_at)` is the month of `created_at`; a plain field has no function. -/
def splitTimeFn (field : String) : Option TimeFn × String :=
  let chars := field.toList
  match chars.dropWhile (· ≠ '(') with
  | [] => (none, field)
  | _ :: rest =>
      match TimeFn.parse (String.ofList (chars.takeWhile (· ≠ '('))) with
      | none => (none, field)
      | some f =>
          if rest.getLast? = some ')' then (some f, String.ofList (JsonPath.trim rest.dropLast)) else (none, field)

example : splitTimeFn "month( created_at )" = (some .month, "created_at") := by decide +kernel

end Query

variable [Chrono] [Zones] [Arithmetic] [Quotients]

/-- Aggregates folded over documents, one at a time. -/
structure Aggregation where
  aggs : List Agg
  groupBy : Option (String × List Seg × Option TimeFn)
  groups : ExtTreeMap GroupKey Bucket GroupKey.cmp
  matches_ : Nat

/-- The result of one group. -/
structure GroupResult where
  key : Option Json
  matches_ : Nat
  /-- The name, the value, and how many values were taken into account. -/
  values : List (String × Json × Nat)

structure Aggregated where
  matches_ : Nat
  groups : List GroupResult

/-- Whether `min` and `max` take a value into account. -/
def Leaf.compared (v : Leaf) : Bool :=
  v.decimal?.isSome || match v.toJson with
    | .number _ => true
    | .string _ => true
    | _ => false

def Acc.empty : Acc := ⟨0, .zero, none, none⟩

namespace Agg

/-- The least or the largest of what was found and a value. -/
def better (agg : Agg) (best : Option Amount) (v : Amount) : Bool :=
  best.all fun b => Query.orderValues v b = if agg.func = .min then .lt else .gt

/-- Folds the value of a document's field in. -/
def foldLeaf (agg : Agg) (leaf : Leaf) (acc : Acc) : Except String Acc :=
  match agg.func with
  | .count => .ok { acc with n := acc.n + 1 }
  | .sum | .avg =>
      match leaf.decimal? with
      | some d =>
          match checkedAdd (acc.decimals.getD .zero) d with
          | some total => .ok { acc with n := acc.n + 1, decimals := some total }
          | none => .error s!"{agg.name}: the sum is beyond what a decimal holds exactly"
      | none =>
          match leaf.toJson with
          | .number x => .ok { acc with n := acc.n + 1, sum := acc.sum.push x }
          | _ => .ok acc
  | .min | .max =>
      if leaf.compared then
        .ok { acc with n := acc.n + 1, best := if agg.better acc.best leaf.amount then some leaf.amount else acc.best }
      else .ok acc

def fold (agg : Agg) (doc : DocView) (acc : Acc) : Except String Acc :=
  if agg.field.isNone then .ok { acc with n := acc.n + 1 }
  else
    match doc.get agg.path with
    | none => .ok acc
    | some leaf => agg.foldLeaf leaf acc

def foldAll (doc : DocView) : List Agg → List Acc → Except String (List Acc)
  | agg :: aggs, acc :: accs => do
      let acc ← agg.fold doc acc
      return acc :: (← foldAll doc aggs accs)
  | _, accs => .ok accs

/-- `sum` or `avg` over decimals, and the integers next to them, exactly; a float among
them is refused. -/
def decimalTotal (acc : Acc) (agg : Agg) : Except String Json :=
  let beyond := "the sum is beyond what a decimal holds exactly"
  match acc.sum.exactInt with
  | none => .error "decimals and floats do not mix in a sum: the result would look exact without being so"
  | some ints =>
      if h : -(2 ^ 63) ≤ ints ∧ ints < 2 ^ 63 then
        match checkedAdd (acc.decimals.getD .zero) ⟨ints, 0, by omega, by omega⟩ with
        | none => .error beyond
        | some total =>
            match if agg.func = .avg then Quotients.checkedDiv total (NumKey.ofU64 (UInt64.ofNat acc.n)) else some total with
            | some value => .ok (.string value.text)
            | none => .error beyond
      else .error beyond

def named (agg : Agg) (r : Except String Json) : Except String Json := r.mapError fun e => s!"{agg.name}: {e}"

/-- What an aggregate comes to. -/
def value (agg : Agg) (acc : Acc) : Except String Json :=
  match agg.func with
  | .count => .ok (.number (.posInt (UInt64.ofNat acc.n)))
  | .sum => agg.named (if acc.decimals.isSome then decimalTotal acc agg else acc.sum.json)
  | .avg =>
      if acc.decimals.isSome then agg.named (decimalTotal acc agg)
      else if acc.n = 0 then .ok .null
      else .ok (Query.num (acc.sum.total.bind fun t => t.div (F64.ofInt acc.n)))
  | .min | .max => .ok ((acc.best.map Prod.fst).getD .null)

end Agg

namespace Aggregation

def emptyBucket (aggs : List Agg) : Bucket := ⟨0, aggs.map fun _ => .empty⟩

def new (aggs : List Agg) (groupBy : Option String) : Except String Aggregation :=
  if aggs.isEmpty then .error "nothing to compute: give count, sum, avg, min or max"
  else
    match groupBy with
    | some f => do
        let (func, field) := Query.splitTimeFn f
        Query.checkField field
        let path ← JsonPath.parsePath field
        return ⟨aggs, some (f, path, func), ∅, 0⟩
    | none => .ok ⟨aggs, none, ExtTreeMap.empty.insert ⟨.null⟩ (emptyBucket aggs), 0⟩

variable (zone : Zones.Zone)

/-- The group of a document. -/
def keyOf (a : Aggregation) (doc : DocView) : GroupKey :=
  match a.groupBy with
  | some (_, path, func) =>
      match doc.get path with
      | none => ⟨.null⟩
      | some v =>
          match func with
          | some f => ⟨((f.of zone v.toJson).map fun i => Json.number (.ofInt (Int64.ofInt i))).getD .null⟩
          | none => ⟨Query.groupValue v⟩
  | none => ⟨.null⟩

/-- Folds a document into its bucket. -/
def foldBucket (aggs : List Agg) (doc : DocView) (b : Bucket) : Except String Bucket := do
  return ⟨b.matches_ + 1, ← Agg.foldAll doc aggs b.accs⟩

def tooMany (a : Aggregation) : String :=
  let field := (a.groupBy.map Prod.fst).getD ""
  s!"more than {maxGroups} distinct values of {field}: group by a field with fewer values"

/-- Folds one document in. -/
def addView (a : Aggregation) (doc : DocView) : Except String Aggregation := do
  let groups ← upsert maxGroups a.tooMany (emptyBucket a.aggs) (foldBucket a.aggs doc) a.groups (a.keyOf zone doc)
  return { a with groups, matches_ := a.matches_ + 1 }

def valueOf (agg : Agg) (acc : Acc) : Except String (String × Json × Nat) := do
  return (agg.name, ← agg.value acc, acc.n)

def groupResult (a : Aggregation) (g : GroupKey × Bucket) : Except String GroupResult := do
  let values ← (a.aggs.zip g.2.accs).mapM fun p => valueOf p.1 p.2
  return ⟨if a.groupBy.isSome then some g.1.value else none, g.2.matches_, values⟩

/-- The results. A sum of integers is exact, and refused beyond the 64-bit integers. -/
def finish (a : Aggregation) : Except String Aggregated := do
  return ⟨a.matches_, ← a.groups.toList.mapM a.groupResult⟩

end Aggregation

end KivaDb
