import KivaDb.SKey
import KivaDb.Glob
import Std.Data.ExtTreeMap
import Std.Data.ExtTreeSet

namespace KivaDb

open Lib.LittleEndian Lib.Calendar Glob

/-- What the engine uses of Unicode tables and of the libraries that write and
read documents (`serde_json`, `rmp_serde`, `KDOC`). -/
class Codec [Chrono] where
  lowercase : String → String
  jsonText : Json → String
  /-- `==` on values. -/
  sameValue : Value → Value → Bool
  encodeStored : Value → Bool → Result (Bytes × DocEnc)
  decode : Ty → Bytes → DocEnc → Result Value

namespace Scalar

def toJson : Scalar → Json
  | null => .null
  | bool b => .bool b
  | num (.json n) => .number n
  | num (.decimal d) => .string d.text
  | str s => .string s

def fromJson : Json → Option Scalar
  | .null => some null
  | .bool b => some (bool b)
  | .number n => some (num (.json n))
  | .string s => some (str s)
  | _ => none

variable [Chrono]

/-- The key of a value of a document: a decimal by its exact value. -/
def fromLeaf (v : Leaf) : Option Scalar :=
  match v.decimal? with
  | some d => some (num (.decimal d))
  | none => fromJson v.toJson

end Scalar

def SKey.toJson : SKey → Json
  | one s => s.toJson
  | tuple parts => .array (parts.map Scalar.toJson)

/-- How a secondary index keeps the values of its field. -/
inductive IndexKind
  | btree
  | hash
  deriving DecidableEq, Repr

def IndexKind.name : IndexKind → String
  | btree => "btree"
  | hash => "hash"

/-- The keys of the documents, in order. -/
abbrev KeySet := Std.ExtTreeSet String compare

/-- Field value to keys of the documents holding it. -/
abbrev Postings := Std.ExtTreeMap SKey KeySet SKey.cmp

namespace Postings

def add (m : Postings) (sk : SKey) (key : String) : Postings := m.insert sk ((m[sk]?.getD ∅).insert key)

def take (m : Postings) (sk : SKey) (key : String) : Postings :=
  match m[sk]? with
  | none => m
  | some set =>
      let left := set.erase key
      if set.contains key ∧ left.isEmpty then m.erase sk else m.insert sk left

end Postings

structure SecIndex where
  pattern : String
  /-- The field, or the fields joined by `, ` for an index on several. -/
  field : String
  paths : List (List Seg)
  kind : IndexKind
  /-- Two documents of the pattern may not hold the same value. -/
  unique : Bool
  /-- Texts are kept in small letters. -/
  fold : Bool
  map : Postings
  rev : Std.ExtTreeMap String SKey compare

namespace SecIndex

def new (pattern field : String) (paths : List (List Seg)) (kind : IndexKind) (unique fold : Bool) : SecIndex :=
  { pattern, field, paths, kind, unique, fold, map := ∅, rev := ∅ }

def clear (s : SecIndex) : SecIndex := { s with map := ∅, rev := ∅ }

/-- `user:* (email)`, as errors and plans name the index. -/
def describe (s : SecIndex) : String :=
  let case := if s.fold then " ignore case" else ""
  s!"{s.pattern} ({s.field}){case}"

/-- The keys other than `key` that hold `sk`, when the index is unique. -/
def holders (s : SecIndex) (key : String) (sk : SKey) : List String :=
  if s.unique then ((s.map[sk]?.getD ∅).toList).filter (· ≠ key) else []

/-- Two keys that hold the same value, and that value, if there are some. -/
def firstDuplicate (s : SecIndex) : Option (String × String × Json) :=
  s.map.toList.findSome? fun (sk, keys) =>
    match keys.toList with
    | a :: b :: _ => some (a, b, sk.toJson)
    | _ => none

def remove (s : SecIndex) (key : String) : SecIndex :=
  match s.rev[key]? with
  | none => s
  | some sk => { s with rev := s.rev.erase key, map := Postings.take s.map sk key }

variable [Chrono] [Codec]

/-- The value of one field of `doc`. -/
def fieldValue (s : SecIndex) (doc : DocView) (path : List Seg) : Option Scalar :=
  ((doc.get path).bind Scalar.fromLeaf).map fun sk =>
    match sk with
    | .str t => if s.fold then .str (Codec.lowercase t) else .str t
    | sk => sk

/-- The indexed value of `doc`. On several fields, a document lacking one of
them, or holding an array or an object there, is not indexed. -/
def value (s : SecIndex) (doc : DocView) : Option SKey :=
  match s.paths with
  | [path] => (s.fieldValue doc path).map .one
  | paths => (paths.mapM (s.fieldValue doc)).map .tuple

def update (s : SecIndex) (key : String) (doc : Option DocView) : SecIndex :=
  if ¬ globMatch s.pattern key then s
  else
    let sk := doc.bind s.value
    let same : Bool := match s.rev[key]?, sk with
      | some a, some b => SKey.cmp a b == .eq
      | none, none => true
      | _, _ => false
    -- a write that leaves the indexed field as it was costs nothing more
    if same then s
    else
      let s := s.remove key
      match sk with
      | none => s
      | some sk => { s with map := Postings.add s.map sk key, rev := s.rev.insert key sk }

end SecIndex

end KivaDb
