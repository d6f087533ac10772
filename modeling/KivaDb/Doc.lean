import KivaDb.Num
import KivaDb.Time
import KivaDb.Record

namespace KivaDb

open Lib.LittleEndian Lib.Calendar

inductive Json
  | null
  | bool (b : Bool)
  | number (n : Number)
  | string (s : String)
  | array (items : List Json)
  | object (members : List (String × Json))

/-- One step of a path into a document. -/
inductive Seg
  | key (k : String)
  | idx (i : Int)
  deriving DecidableEq, Repr

namespace JsonPath

/-- What Rust takes for white space. -/
def isWhitespace (c : Char) : Bool :=
  let n := c.toNat
  (9 ≤ n && n ≤ 13) || n == 32 || n == 0x85 || n == 0xA0 || n == 0x1680 || (0x2000 ≤ n && n ≤ 0x200A) ||
    n == 0x2028 || n == 0x2029 || n == 0x202F || n == 0x205F || n == 0x3000

def trim (s : List Char) : List Char := ((s.dropWhile isWhitespace).reverse.dropWhile isWhitespace).reverse

/-- A text read as an `i64`: an optional sign, then digits. -/
def parseI64 (s : List Char) : Option Int :=
  let read (sign : Int) (digits : List Char) : Option Int :=
    if digits ≠ [] ∧ digits.all Char.isDigit then
      let n := sign * (digits.foldl (fun n c => n * 10 + (c.toNat - 48)) 0 : Nat)
      if -(2 ^ 63) ≤ n ∧ n < 2 ^ 63 then some n else none
    else none
  match s with
  | '+' :: rest => read 1 rest
  | '-' :: rest => read (-1) rest
  | rest => read 1 rest

/-- The segments of what is left of a path. -/
def segments (bad : String → String) : Nat → List Char → Bool → List Seg → Except String (List Seg)
  | 0, _, _, segs => .ok segs
  | _ + 1, [], needName, segs => if needName then .error (bad "empty segment") else .ok segs
  | fuel + 1, c :: rest, needName, segs =>
      if c = '[' then
        match rest with
        | [] => .error (bad "missing ']'")
        | q :: text =>
            if q = '"' ∨ q = '\'' then
              match text.dropWhile (· ≠ q) with
              | [] => .error (bad "unclosed quote")
              | _ :: after =>
                  match after with
                  | ']' :: after =>
                      segments bad fuel after false (segs ++ [.key (String.ofList (text.takeWhile (· ≠ q)))])
                  | _ => .error (bad "missing ']'")
            else
              match rest.dropWhile (· ≠ ']') with
              | [] => .error (bad "missing ']'")
              | _ :: after =>
                  match parseI64 (trim (rest.takeWhile (· ≠ ']'))) with
                  | none => .error (bad "an array index must be an integer")
                  | some n => segments bad fuel after false (segs ++ [.idx n])
      else if c = '.' then
        if needName ∨ rest = [] then .error (bad "empty segment") else segments bad fuel rest true segs
      else if c = ']' then .error (bad "unexpected ']'")
      else if segs ≠ [] ∧ ¬ needName then .error (bad "expected '.' or '[' between segments")
      else
        let isName (c : Char) : Bool := c ≠ '.' ∧ c ≠ '[' ∧ c ≠ ']'
        segments bad fuel ((c :: rest).dropWhile isName) false
          (segs ++ [.key (String.ofList ((c :: rest).takeWhile isName))])

/-- Reads a path: `.name`, `address.city`, `tags[0]`, `["a.b"]`. -/
def parsePath (path : String) : Except String (List Seg) :=
  let bad (why : String) : String := s!"invalid path '{path}': {why}"
  match trim path.toList with
  | ['.'] => .ok []
  | '.' :: rest => segments bad (rest.length + 1) rest true []
  | chars => segments bad (chars.length + 1) chars false []

/-- The position `seg` designates in an array of `len` elements. -/
def position (seg : Seg) (len : Nat) : Option Nat :=
  let n : Option Int := match seg with
    | .idx i => some i
    | .key k => parseI64 k.toList
  n.bind fun n =>
    let at_ := if n < 0 then len + n else n
    if 0 ≤ at_ ∧ at_ ≤ (len : Int) - 1 then some at_.toNat else none

def get : Json → List Seg → Option Json
  | j, [] => some j
  | .object m, seg :: path =>
      match seg with
      | .key k => (m.lookup k).bind fun j => get j path
      | .idx _ => none
  | .array a, seg :: path => (position seg a.length).bind fun i => a[i]?.bind fun j => get j path
  | _, _ :: _ => none

end JsonPath

namespace Decimal

/-- Takes trailing zeros off the fraction. -/
def stripZeros : Nat → Int → Nat → Int × Nat
  | 0, m, s => (m, s)
  | fuel + 1, m, s => if s ≠ 0 ∧ m % 10 = 0 then stripZeros fuel (m / 10) (s - 1) else (m, s)

/-- The mantissa and the scale without trailing zeros. -/
def normalize (d : Decimal) : Int × Nat := if d.mantissa = 0 then (0, 0) else stripZeros d.scale d.mantissa d.scale

/-- An integer above the 64-bit signed range and within the unsigned one. -/
def u64BeyondI64 (d : Decimal) : Option UInt64 :=
  let (m, s) := d.normalize
  if s = 0 ∧ 2 ^ 63 ≤ m ∧ m < 2 ^ 64 then some (UInt64.ofNat m.toNat) else none

/-- Digits, and a point when there is a fraction: `1250.50`. -/
def text (d : Decimal) : String :=
  let digits := Time.padded (d.scale + 1) d.mantissa.natAbs
  let whole := digits.take (digits.length - d.scale)
  let frac := digits.drop (digits.length - d.scale)
  String.ofList ((if d.mantissa < 0 then ['-'] else []) ++ whole ++ if d.scale = 0 then [] else '.' :: frac)

end Decimal

def Number.ofInt (i : Int64) : Number := if 0 ≤ i then .posInt i.toUInt64 else .negInt i

variable [Chrono]

/-- A document with typed values: what JSON holds, plus integers, floats,
decimals, dates, times and datetimes as leaves. -/
inductive Doc
  | null
  | bool (b : Bool)
  | int (i : Int64)
  | float (f : F64)
  | decimal (d : Decimal)
  | str (s : String)
  | date (d : Date)
  | dateTime (t : Chrono.DateTime)
  | time (t : Chrono.NaiveTime)
  | array (items : List Doc)
  | object (members : List (String × Doc))

/-- A typed value. A `doc` always holds a JSON array or object. -/
inductive Value
  | str (s : String)
  | num (s : String)
  | bool (b : Bool)
  | null
  | doc (j : Json)
  | typed (d : Doc)
  | bytes (b : Bytes)
  | date (d : Date)
  | dateTime (t : Chrono.DateTime)
  | time (t : Chrono.NaiveTime)

namespace Value

def ty : Value → Ty
  | str _ => .string
  | num _ => .number
  | bool _ => .boolean
  | null => .null
  | doc (.array _) => .array
  | doc _ => .object
  | typed (.array _) => .array
  | typed _ => .object
  | bytes _ => .bytes
  | date _ => .date
  | dateTime _ => .dateTime
  | time _ => .time

end Value

namespace Doc

mutual

/-- Plain JSON: a decimal as its text, dates, times and datetimes as their ISO
texts. -/
def toPlainJson : Doc → Json
  | null => .null
  | bool b => .bool b
  | int i => .number (.ofInt i)
  | float f => .number (.float f)
  | decimal d =>
      match d.u64BeyondI64 with
      | some u => .number (.posInt u)
      | none => .string d.text
  | str s => .string s
  | date d => .string (Time.dateText d)
  | dateTime t => .string (Chrono.iso t)
  | time t => .string (Chrono.timeText t)
  | array items => .array (listJson items)
  | object m => .object (membersJson m)

def listJson : List Doc → List Json
  | [] => []
  | d :: ds => toPlainJson d :: listJson ds

def membersJson : List (String × Doc) → List (String × Json)
  | [] => []
  | (k, d) :: ds => (k, toPlainJson d) :: membersJson ds

end

theorem listJson_eq_map (ds : List Doc) : listJson ds = ds.map toPlainJson := by
  induction ds with
  | nil => rfl
  | cons d ds ih => rw [listJson, ih, List.map_cons]

theorem membersJson_eq_map (ds : List (String × Doc)) :
    membersJson ds = ds.map fun m => (m.1, toPlainJson m.2) := by
  induction ds with
  | nil => rfl
  | cons d ds ih => rw [membersJson, ih, List.map_cons]

end Doc

/-- A document as queries and indexes read it: JSON as stored, or a typed tree. -/
inductive DocView
  | json (j : Json)
  | typed (d : Doc)

/-- The value at a path of a document. -/
inductive Leaf
  | json (j : Json)
  | doc (d : Doc)

namespace DocPath

open JsonPath

def get : Doc → List Seg → Option Doc
  | d, [] => some d
  | .object m, seg :: path =>
      match seg with
      | .key k => (m.lookup k).bind fun d => get d path
      | .idx _ => none
  | .array a, seg :: path => (position seg a.length).bind fun i => a[i]?.bind fun d => get d path
  | _, _ :: _ => none

end DocPath

namespace DocView

/-- The document a value holds, if it holds one. -/
def of : Value → Option DocView
  | .doc j => some (json j)
  | .typed d => some (typed d)
  | _ => none

def get (v : DocView) (path : List Seg) : Option Leaf :=
  match v with
  | json j => (JsonPath.get j path).map Leaf.json
  | typed d => (DocPath.get d path).map Leaf.doc

end DocView

namespace Leaf

/-- The value in plain JSON. -/
def toJson : Leaf → Json
  | json j => j
  | doc d => d.toPlainJson

/-- The decimal it is, which plain JSON would turn into a text. -/
def decimal? : Leaf → Option Decimal
  | doc (.decimal d) => some d
  | _ => none

end Leaf

end KivaDb
