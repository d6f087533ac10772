import KivaDb.Resp.Commands

namespace KivaDb

namespace Json

/-- The member `k` of an object. -/
def get? (k : String) : Json → Option Json
  | object members => (members.find? fun p => p.1 == k).map Prod.snd
  | _ => none

def isArray : Json → Bool
  | array _ => true
  | _ => false

def isObject : Json → Bool
  | object _ => true
  | _ => false

def asString : Json → Option String
  | string s => some s
  | _ => none

end Json

namespace Resp

open Lib.LittleEndian Lib.Utf8 Lib.Program Front

/-- `set`, `zset` or `stream` when `j` is one of these, `none` for a plain
object. -/
def marked (j : Json) : Option String := do
  let mark ← (← j.get? "redis").asString
  let holds (k : String) (p : Json → Bool) : Bool := (j.get? k).any p
  if mark = "set" ∧ holds "members" Json.isArray then some "set"
  else if mark = "zset" ∧ holds "members" Json.isObject then some "zset"
  else if mark = "stream" ∧ holds "entries" Json.isArray then some "stream"
  else none

variable [External] [Chrono] [Codec] [Vectors]

def jsonText : Json → Bytes
  | .string s => asBytes s
  | other => asBytes (Codec.jsonText other)

/-- The document at `k` when it is of type `want` and neither a set, a sorted set
nor a stream. -/
def doc (k : String) (want : Ty) : Cmd (Option (Json × Meta)) := do
  match ← Cmd.get k with
  | none => return none
  | some (.doc j, m) => if (Value.doc j).ty = want ∧ marked j = none then return some (j, m) else .fail .wrongType
  | some _ => .fail .wrongType

/-- The Redis type of a key: `hash` and `list` from its type, `set`, `zset` and
`stream` from the object's marker. -/
def redisType (k : String) : Ty → Cmd String
  | .object => do
      match ← Cmd.get k with
      | some (.doc j, _) => return (marked j).getD "hash"
      | _ => return "hash"
  | .array => return "list"
  | _ => return "string"

/-- How many members the value holds. -/
def memberCount : Option (Value × Meta) → Nat
  | some (.doc (.array a), _) => a.length
  | some (.doc j, _) =>
      match j.get? "members" with
      | some (.array a) => a.length
      | some (.object o) => o.length
      | _ => 0
  | _ => 0

/-- Refuses to let the collection at `k` grow to `len` members beyond
`resp.max_collection_members`. One already above the limit may still shrink. -/
def checkSize (k kind : String) (len : Nat) : Cmd Unit := do
  let limit : Nat ← Cmd.ask .maxMembers
  if limit = 0 ∨ len ≤ limit then return ()
  else
    let now := memberCount (← Cmd.get k)
    if len ≤ now then return ()
    else .fail (.err s!"the {kind} '{k}' would hold {len} members, more than resp.max_collection_members ({limit}). Every command reads and rewrites the whole value: split it over several keys, or raise the limit")

end Resp

end KivaDb
