import KivaDb.Digits
import KivaDb.Edits
import KivaDb.Kdoc.RoundTrip
import KivaDb.Time.Reading

namespace KivaDb

open Lib.Fallible Time

/-- Decimals read from their digits by `rust_decimal`, where it holds them exactly. -/
class ExactDecimals where
  fromStrExact : String → Option Decimal

namespace Decimal

def unsigned : List Char → List Char
  | '-' :: rest => rest
  | s => s

/-- What follows a point, where there is one. -/
def pointed (s : List Char) : Option (List Char) :=
  match s.dropWhile (· ≠ '.') with
  | [] => none
  | _ :: frac => some frac

def isDigits (p : List Char) : Bool := p ≠ [] ∧ p.all Char.isDigit

/-- Reads a decimal: an optional `-`, digits, and optionally a point and digits. -/
def parse [ExactDecimals] (text : String) : Except String Decimal :=
  let s := JsonPath.trim text.toList
  let whole := (unsigned s).takeWhile (· ≠ '.')
  if ¬ isDigits whole ∨ (pointed (unsigned s)).any (fun f => ¬ isDigits f) then
    .error s!"'{text}' is not a decimal: write it as 1250.50 (digits, and optionally a point and digits)"
  else
    match ExactDecimals.fromStrExact (String.ofList s) with
    | some d => .ok d
    | none =>
        .error s!"'{text}' does not fit a decimal: at most 28 digits after the point, and about 28 significant digits"

end Decimal

namespace Doc

/-- The tags of extended JSON. -/
def tags : List String := ["$decimal", "$date", "$time", "$datetime"]

def tagged (tag text : String) : Json := .object [(tag, .string text)]

/-- A key of the data, never taken for a tag. -/
def escaped (k : String) : String := if k.toList.head? = some '$' then String.ofList ('$' :: k.toList) else k

section

variable [Chrono]

mutual

/-- Every type kept without ambiguity: decimals, dates, times and datetimes under their
tags. -/
def toExtendedJson : Doc → Json
  | decimal d => tagged "$decimal" d.text
  | date d => tagged "$date" (dateText d)
  | dateTime t => tagged "$datetime" (Chrono.iso t)
  | time t => tagged "$time" (Chrono.timeText t)
  | array items => .array (extendedItems items)
  | object m => .object (extendedMembers m)
  | other => toPlainJson other

def extendedItems : List Doc → List Json
  | [] => []
  | d :: ds => toExtendedJson d :: extendedItems ds

def extendedMembers : List (String × Doc) → List (String × Json)
  | [] => []
  | (k, d) :: ds => (escaped k, toExtendedJson d) :: extendedMembers ds

end

variable [Clocks] [Formats] [ExactDecimals] [Arithmetic]

/-- Whether `text` names another instant in a zone of its own, so that it has no offset. -/
def elsewhere (text : String) (at_ : Chrono.DateTime) : Bool :=
  haveI := Chrono.decEqDateTime
  match Zone.parse "+01:00" with
  | .ok zone =>
      match parseDatetime text zone with
      | .ok t => t ≠ at_
      | .error _ => true
  | .error _ => false

/-- The value of a tag, read in ISO only. Times and datetimes are kept to the millisecond. -/
def typedLeaf (tag text : String) : Except String Doc :=
  if tag = "$decimal" then (Decimal.parse text).map decimal
  else if tag = "$date" then (parseDate text).map date
  else if tag = "$time" then do
    let t ← parseTime text
    return time ((Formats.withNanosecond t (Clocks.timeNanosecond t / 1000000 * 1000000)).getD t)
  else do
    let at_ ← parseDatetime text .utc
    if elsewhere text at_ then
      .error s!"'{text}' has no offset: write it as 2026-10-31T15:18:00Z or with +01:00"
    else return dateTime ((Clocks.fromTimestampMillis (Clocks.timestampMillis at_)).getD at_)

/-- The key of the data that a key of extended JSON is. -/
def unescaped (k : String) : Except String String :=
  match k.toList with
  | '$' :: '$' :: rest => .ok (String.ofList ('$' :: rest))
  | '$' :: _ =>
      let list := ", ".intercalate tags
      .error s!"'{k}' is not a tag ({list}); a key of the data that starts with $ is written ${k}"
  | _ => .ok k

/-- An object whose only key is a tag. -/
def tag? : List (String × Json) → Option (String × Json)
  | [(tag, value)] => if tag ∈ tags then some (tag, value) else none
  | _ => none

def tooDeep : String := s!"a document nested deeper than {Kdoc.maxDepth}"

mutual

/-- Reads extended JSON at a depth. -/
def fromExtended : Json → Nat → Except String Doc
  | .number n, depth =>
      if Kdoc.maxDepth < depth then .error tooDeep
      else
        match n.asI64, n with
        | some i, _ => .ok (int i)
        | none, .float f => .ok (float f)
        | none, _ =>
            let s := Arithmetic.jsonText (.number n)
            .error s!"{s} does not fit an int: write it as \x7b\"$decimal\": \"{s}\"\x7d"
  | .array items, depth =>
      if Kdoc.maxDepth < depth then .error tooDeep else (extendedArray items (depth + 1)).map array
  | .object m, depth =>
      if Kdoc.maxDepth < depth then .error tooDeep
      else
        match tag? m with
        | some (tag, .string text) => typedLeaf tag text
        | some (tag, value) =>
            let s := Arithmetic.jsonText value
            .error s!"{tag} takes a text, not {s}"
        | none => (extendedObject m (depth + 1) []).map object
  | .null, depth => if Kdoc.maxDepth < depth then .error tooDeep else .ok null
  | .bool b, depth => if Kdoc.maxDepth < depth then .error tooDeep else .ok (bool b)
  | .string s, depth => if Kdoc.maxDepth < depth then .error tooDeep else .ok (str s)

def extendedArray : List Json → Nat → Except String (List Doc)
  | [], _ => .ok []
  | j :: js, depth => do
      let d ← fromExtended j depth
      return d :: (← extendedArray js depth)

def extendedObject : List (String × Json) → Nat → Members Doc → Except String (Members Doc)
  | [], _, out => .ok out
  | (k, j) :: ms, depth, out => do
      let key ← unescaped k
      let d ← fromExtended j depth
      extendedObject ms depth (out.insert key d)

end

/-- Reads extended JSON. An object whose only key is a tag is a typed value. -/
def fromExtendedJson (j : Json) : Except String Doc := fromExtended j 1

end

end Doc

end KivaDb
