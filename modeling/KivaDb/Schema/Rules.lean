import KivaDb.Cond
import KivaDb.Edits
import KivaDb.NumClass

namespace KivaDb

def Decimal.isWhole (d : Decimal) : Bool := d.mantissa % 10 ^ d.scale = 0

mutual

/-- Equality of JSON values: an integer is no float, and members may stand in any order. -/
def Json.same : Json → Json → Bool
  | .null, .null => true
  | .bool a, .bool b => a = b
  | .number a, .number b =>
      match Num.exact a, Num.exact b with
      | .int x, .int y => x = y
      | .float f, .float g => f.value = g.value
      | _, _ => false
  | .string a, .string b => a = b
  | .array a, .array b => sameItems a b
  | .object a, .object b => a.length = b.length && sameMembers a b
  | _, _ => false

def Json.sameItems : List Json → List Json → Bool
  | [], [] => true
  | x :: xs, y :: ys => same x y && sameItems xs ys
  | _, _ => false

/-- Each member of the first is one of the second. -/
def Json.sameMembers : List (String × Json) → List (String × Json) → Bool
  | [], _ => true
  | (k, x) :: xs, ys => (ys.lookup k).any (fun y => same x y) && sameMembers xs ys

end

namespace Rules

/-- What schemas take from others: regular expressions, and numbers and documents as
texts. -/
class Texts where
  Regex : Type
  isMatch : Regex → String → Bool
  asStr : Regex → String
  floatText : F64 → String
  numberText : Number → String
  jsonText : Json → String

inductive FieldType
  | string
  | number
  | integer
  | boolean
  | null
  | array
  | object
  | date
  | dateTime
  | time
  | int
  | float
  | decimal
  | any
  deriving DecidableEq

def FieldType.name : FieldType → String
  | string => "string"
  | number => "number"
  | integer => "integer"
  | boolean => "boolean"
  | null => "null"
  | array => "array"
  | object => "object"
  | date => "date"
  | dateTime => "datetime"
  | time => "time"
  | int => "int"
  | float => "float"
  | decimal => "decimal"
  | any => "any"

/-- What is left after `n` bytes, where they end with a character. -/
def dropBytes : List Char → Nat → Option (List Char)
  | cs, 0 => some cs
  | [], _ + 1 => none
  | c :: cs, n + 1 => if c.utf8Size ≤ n + 1 then dropBytes cs (n + 1 - c.utf8Size) else none

variable [Chrono] [Zones]

/-- An ISO 8601 moment that carries its offset: read the same whatever the zone. -/
def isInstant (s : String) : Bool :=
  let s := JsonPath.trim s.toList
  let tail := (dropBytes s 10).getD []
  let offset := s.getLast? = some 'Z' || s.getLast? = some 'z' || tail.contains '+' || tail.contains '-'
  offset && (Zones.parseDatetime (String.ofList s) Zones.utc).isSome

namespace FieldType

/-- Whether a JSON value is of this type. -/
def accepts : FieldType → Json → Bool
  | string, .string _ => true
  | number, .number _ => true
  | integer, .number n => n.asF64.isWhole
  | boolean, .bool _ => true
  | null, .null => true
  | array, .array _ => true
  | object, .object _ => true
  | date, .string s => (Zones.parseDate s).isSome
  | dateTime, .string s => isInstant s
  | time, .string s => (Chrono.parseTime s).isSome
  | int, .number n => n.asI64.isSome
  | float, .number (.float _) => true
  | decimal, .number n => n.asU64.isSome && n.asI64.isNone
  | any, _ => true
  | _, _ => false

/-- Whether a value of a document is of this type. -/
def acceptsLeaf (ty : FieldType) : Leaf → Bool
  | .json j => ty.accepts j
  | .doc d =>
      match ty, d with
      | any, _ => true
      | number, .int _ => true
      | number, .float _ => true
      | number, .decimal _ => true
      | integer, .int _ => true
      | integer, .float f => f.isWhole
      | integer, .decimal x => x.isWhole
      | int, .int _ => true
      | float, .float _ => true
      | decimal, .decimal _ => true
      | date, .date _ => true
      | dateTime, .dateTime _ => true
      | time, .time _ => true
      | _, .decimal _ => false
      | _, .date _ => false
      | _, .dateTime _ => false
      | _, .time _ => false
      | array, .array _ => true
      | object, .object _ => true
      | _, .array _ => false
      | _, .object _ => false
      | ty, scalar => ty.accepts scalar.toPlainJson

end FieldType

/-- The value a missing field is given. -/
inductive Fill
  | value (j : Json)
  | now
  | today
  | currentTime

/-- What a rule says of the value itself. -/
structure Own [Texts] where
  ty : Option FieldType
  required : Bool
  nullable : Bool
  unique : Bool
  min : Option F64
  max : Option F64
  minLength : Option Nat
  maxLength : Option Nat
  minItems : Option Nat
  maxItems : Option Nat
  oneOf : Option (List Json)
  pattern : Option Texts.Regex
  fill : Option Fill

/-- A rule: what it says of the value, of its members and of its items. -/
inductive Rule [Texts]
  | mk (own : Own) (properties : Option (List (String × Rule))) (items : Option Rule)

abbrev Fields [Texts] := List (String × Rule)

variable [Texts]

namespace Rule

def own : Rule → Own
  | mk own _ _ => own

def properties : Rule → Option Fields
  | mk _ properties _ => properties

end Rule

def join (pre name : String) : String := if pre.isEmpty then name else s!"{pre}.{name}"

/-- A value in an error message, cut short. -/
def short (v : Json) : String :=
  let s := Texts.jsonText v
  if s.toList.length > 60 then String.ofList (s.toList.take 57) ++ "..." else s

/-- The number a value is, by its exact value. -/
def numKey : Leaf → Option NumKey
  | .json (.number n) => some (.json n)
  | .doc (.decimal d) => some (.decimal d)
  | .doc (.int i) => some (.json (.ofInt i))
  | .doc (.float f) => some (.json (.float f))
  | _ => none

def shown : NumKey → String
  | .json n => Texts.numberText n
  | .decimal d => d.text

def isNull : Leaf → Bool
  | .json .null => true
  | .doc .null => true
  | _ => false

namespace Own

def nullAllowed (o : Own) : Bool := o.nullable || o.ty = none || o.ty = some .null || o.ty = some .any

def wanted : FieldType → String
  | .date => "a date such as \"2026-10-27\""
  | .dateTime => "a datetime with its offset, such as \"2026-10-27T14:30:00Z\""
  | .time => "a time such as \"08:00:00\""
  | .integer => "an integer"
  | t =>
      let name := t.name
      s!"of type {name}"

def checkType (o : Own) (v : Leaf) (path : String) : Except String Unit :=
  match o.ty with
  | none => .ok ()
  | some ty =>
      if ty.acceptsLeaf v then .ok ()
      else
        let want := wanted ty
        let got := short v.toJson
        let null := if isNull (.json v.toJson) then " (add \"nullable\": true to accept null)" else ""
        .error s!"{path}: expected {want}, got {got}{null}"

def checkMin (o : Own) (n : NumKey) (path : String) : Except String Unit :=
  match o.min with
  | none => .ok ()
  | some m =>
      if n.cmpJson (.float m) = .lt then
        let got := shown n
        let bound := Texts.floatText m
        .error s!"{path}: {got} is below the minimum {bound}"
      else .ok ()

def checkMax (o : Own) (n : NumKey) (path : String) : Except String Unit :=
  match o.max with
  | none => .ok ()
  | some m =>
      if n.cmpJson (.float m) = .gt then
        let got := shown n
        let bound := Texts.floatText m
        .error s!"{path}: {got} is above the maximum {bound}"
      else .ok ()

/-- The bounds, exactly: a decimal is compared by its value, never as a float. -/
def checkBounds (o : Own) (v : Leaf) (path : String) : Except String Unit :=
  match numKey v with
  | none => .ok ()
  | some n => do
      o.checkMin n path
      o.checkMax n path

def listed (values : List Json) (v : Leaf) : Bool :=
  match v.decimal?, numKey v with
  | some _, some n => values.any fun x =>
      match x with
      | .number m => n.cmpJson m = .eq
      | _ => false
  | _, _ => values.any fun x => x.same v.toJson

def checkOneOf (o : Own) (v : Leaf) (path : String) : Except String Unit :=
  match o.oneOf with
  | none => .ok ()
  | some values =>
      if listed values v then .ok ()
      else
        let got := short v.toJson
        let list := ", ".intercalate (values.map Texts.jsonText)
        .error s!"{path}: {got} is not one of {list}"

def checkItems (o : Own) (len : Nat) (path : String) : Except String Unit :=
  match o.minItems.filter (len < ·) with
  | some m => .error s!"{path}: {len} items, at least {m} needed"
  | none =>
      match o.maxItems.filter (· < len) with
      | some m => .error s!"{path}: {len} items, at most {m} allowed"
      | none => .ok ()

def checkText (o : Own) (s : String) (path : String) : Except String Unit :=
  let len := s.toList.length
  match o.minLength.filter (len < ·) with
  | some m => .error s!"{path}: {len} characters, at least {m} needed"
  | none =>
      match o.maxLength.filter (· < len) with
      | some m => .error s!"{path}: {len} characters, at most {m} allowed"
      | none =>
          match o.pattern with
          | none => .ok ()
          | some re =>
              if Texts.isMatch re s then .ok ()
              else
                let got := short (.string s)
                let text := Texts.asStr re
                .error s!"{path}: {got} does not match the pattern {text}"

/-- The rules on texts and on the number of items. -/
def checkShape (o : Own) (v : Leaf) (path : String) : Except String Unit :=
  match v with
  | .json (.string s) => o.checkText s path
  | .json (.array a) => o.checkItems a.length path
  | .doc (.str s) => o.checkText s path
  | .doc (.array a) => o.checkItems a.length path
  | _ => .ok ()

/-- What a rule says of the value itself. -/
def check (o : Own) (v : Leaf) (path : String) : Except String Unit :=
  if isNull v && o.nullAllowed then .ok ()
  else do
    o.checkType v path
    o.checkBounds v path
    o.checkOneOf v path
    o.checkShape v path

end Own

/-- The members of an object, by name. -/
def members : Leaf → Option (String → Option Leaf)
  | .json (.object m) => some fun n => (m.lookup n).map .json
  | .doc (.object m) => some fun n => (m.lookup n).map .doc
  | _ => none

def elements : Leaf → List Leaf
  | .json (.array a) => a.map .json
  | .doc (.array a) => a.map .doc
  | _ => []

/-- Each element in turn, with its path. -/
def checkEach (check : Leaf → String → Except String Unit) (path : String) : Nat → List Leaf → Except String Unit
  | _, [] => .ok ()
  | i, v :: vs => do
      check v s!"{path}[{i}]"
      checkEach check path (i + 1) vs

mutual

def checkValue : Rule → Leaf → String → Except String Unit
  | .mk own properties items, v, path => do
      own.check v path
      checkInner items v path
      checkProperties properties v path

def checkInner : Option Rule → Leaf → String → Except String Unit
  | none, _, _ => .ok ()
  | some each, v, path => checkEach (checkValue each) path 0 (elements v)

def checkProperties : Option (List (String × Rule)) → Leaf → String → Except String Unit
  | none, _, _ => .ok ()
  | some fields, v, path =>
      match members v with
      | some map => checkFields fields map path
      | none => .ok ()

def checkFields : List (String × Rule) → (String → Option Leaf) → String → Except String Unit
  | [], _, _ => .ok ()
  | (name, rule) :: fields, map, pre => do
      match map name with
      | none => if rule.own.required then .error s!"{join pre name}: required" else .ok ()
      | some v => checkValue rule v (join pre name)
      checkFields fields map pre

end

/-- The moment a write happens: one for every default of the write. -/
structure Moment where
  now : Chrono.DateTime
  zone : Zones.Zone

/-- Hours, minutes and seconds. -/
def clockText (t : Chrono.NaiveTime) : String :=
  let two := Time.padded 2
  String.ofList (two (Zones.hour t) ++ (':' :: two (Zones.minute t)) ++ (':' :: two (Zones.second t)))

def defaultValue (d : Fill) (at_ : Moment) : Json :=
  match d with
  | .value v => v
  | .now => .string (Chrono.iso at_.now)
  | .today => .string (Time.dateText (Zones.wall at_.zone at_.now).1)
  | .currentTime => .string (clockText (Zones.wall at_.zone at_.now).2)

/-- The object with the default of a missing field. -/
def withDefault (o : Own) (name : String) (at_ : Moment) (m : Members Json) : Members Json :=
  match m.lookup name, o.fill with
  | none, some d => Members.insert name (defaultValue d at_) m
  | _, _ => m

def withDefaultTyped (o : Own) (name : String) (at_ : Moment) (m : Members Doc) : Members Doc :=
  match m.lookup name, o.fill with
  | none, some d => Members.insert name (.fromJson (defaultValue d at_)) m
  | _, _ => m

mutual

/-- The defaults inside an object present in the document. -/
def fillRule (at_ : Moment) : Rule → Json → String → Except String Json
  | .mk _ (some fields) _, .object inner, path => do
      let inner ← fillLoop at_ fields inner path
      checkFields fields (fun n => (inner.lookup n).map .json) path
      return .object inner
  | .mk _ _ _, j, _ => .ok j

def fillLoop (at_ : Moment) : List (String × Rule) → Members Json → String → Except String (Members Json)
  | [], m, _ => .ok m
  | (name, rule) :: fields, m, pre => do
      let m := withDefault rule.own name at_ m
      let m ← match m.lookup name with
        | none => pure m
        | some j => do
            let j ← fillRule at_ rule j (join pre name)
            pure (Members.insert name j m)
      fillLoop at_ fields m pre

end

def fillAndCheck (fields : Fields) (m : Members Json) (pre : String) (at_ : Moment) : Except String (Members Json) := do
  let m ← fillLoop at_ fields m pre
  checkFields fields (fun n => (m.lookup n).map .json) pre
  return m

mutual

def fillRuleTyped (at_ : Moment) : Rule → Doc → String → Except String Doc
  | .mk _ (some fields) _, .object inner, path => do
      let inner ← fillLoopTyped at_ fields inner path
      checkFields fields (fun n => (inner.lookup n).map .doc) path
      return .object inner
  | .mk _ _ _, d, _ => .ok d

def fillLoopTyped (at_ : Moment) : List (String × Rule) → Members Doc → String → Except String (Members Doc)
  | [], m, _ => .ok m
  | (name, rule) :: fields, m, pre => do
      let m := withDefaultTyped rule.own name at_ m
      let m ← match m.lookup name with
        | none => pure m
        | some d => do
            let d ← fillRuleTyped at_ rule d (join pre name)
            pure (Members.insert name d m)
      fillLoopTyped at_ fields m pre

end

def fillAndCheckTyped (fields : Fields) (m : Members Doc) (pre : String) (at_ : Moment) :
    Except String (Members Doc) := do
  let m ← fillLoopTyped at_ fields m pre
  checkFields fields (fun n => (m.lookup n).map .doc) pre
  return m

def kindOf : Json → String
  | .null => "null"
  | .bool _ => "a boolean"
  | .number _ => "a number"
  | .string _ => "a string"
  | .array _ => "an array"
  | .object _ => "an object"

mutual

/-- No two rules are for one field. -/
def Rule.Distinct : Rule → Prop
  | .mk _ properties items => propertiesDistinct properties ∧ itemsDistinct items

def propertiesDistinct : Option (List (String × Rule)) → Prop
  | none => True
  | some fields => fieldsDistinct fields

def itemsDistinct : Option Rule → Prop
  | none => True
  | some each => each.Distinct

def fieldsDistinct : List (String × Rule) → Prop
  | [] => True
  | (name, rule) :: fields => name ∉ fields.map Prod.fst ∧ rule.Distinct ∧ fieldsDistinct fields

end

/-- The rules the documents of a key pattern follow. -/
structure Schema where
  pattern : String
  fields : Fields
  distinct : fieldsDistinct fields

namespace Schema

/-- Fills in the defaults of a document, then checks it. -/
def conform (s : Schema) (doc : Json) (at_ : Moment) : Except String Json :=
  match doc with
  | .object m => (fillAndCheck s.fields m "" at_).map .object
  | j =>
      let kind := kindOf j
      .error s!"a JSON object is expected, not {kind}"

def conformTyped (s : Schema) (doc : Doc) (at_ : Moment) : Except String Doc :=
  match doc with
  | .object m => (fillAndCheckTyped s.fields m "" at_).map .object
  | d =>
      let kind := d.typeName
      .error s!"a JSON object is expected, not {kind}"

/-- Checks a document as it is, without defaults. -/
def checkView (s : Schema) : DocView → Except String Unit
  | .json (.object m) => checkFields s.fields (fun n => (m.lookup n).map .json) ""
  | .typed (.object m) => checkFields s.fields (fun n => (m.lookup n).map .doc) ""
  | .json j =>
      let kind := kindOf j
      .error s!"not a JSON object but {kind}"
  | .typed d =>
      let kind := d.typeName
      .error s!"not a JSON object but {kind}"

def check (s : Schema) (doc : Json) : Except String Unit := s.checkView (.json doc)

end Schema

end Rules

end KivaDb
