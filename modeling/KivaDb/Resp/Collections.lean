import KivaDb.Resp.Values

namespace KivaDb.Resp

open Lib.LittleEndian Lib.Utf8 Lib.Program Front

/-- Whether the number is nearer to a finite double than to infinity. -/
def isFinite (digits : Nat) (e : Int) : Bool :=
  digits * 10 ^ e.toNat < (2 ^ 1024 - 2 ^ 970) * 10 ^ (-e).toNat

/-- `LEFT` (true) or `RIGHT` (false). -/
def side (arg : Bytes) : Except Reply Bool :=
  if upper arg = "LEFT" then .ok true
  else if upper arg = "RIGHT" then .ok false
  else .error (.err "syntax error")

/-- Members of a set (value `null`) or of a sorted set (value: the score), in
insertion order. -/
abbrev Members := List (String × Json)

namespace Members

def insert (ms : Members) (m : String) (v : Json) : Members :=
  if (ms.map Prod.fst).contains m then ms.map fun p => if p.1 = m then (m, v) else p else ms ++ [(m, v)]

/-- The others keep their order. -/
def shiftRemove (ms : Members) (m : String) : Members := ms.filter fun p => p.1 ≠ m

def ofTexts (names : List String) : Members := names.foldl (fun ms m => ms.insert m .null) []

end Members

/-- What is to be saved under a key: `size` members make up `value`. -/
structure Save [Chrono] where
  key : String
  kind : String
  size : Nat
  value : Value
  expiresAt : Int64

variable [External] [Chrono] [Codec] [Vectors]

/-- Saves a collection; like Redis, an empty one disappears. -/
def Save.run (s : Save) : Cmd Unit := do
  if s.size = 0 then
    let _ ← Cmd.del s.key
    return ()
  else
    checkSize s.key s.kind s.size
    Cmd.put s.key s.value s.expiresAt

/-- The list at `k` and its expiry; `none` when there is no key. -/
def list (k : String) : Cmd (Option (List Json × Int64)) := do
  match ← doc k .array with
  | some (.array a, m) => return some (a, m.expiresAt)
  | _ => return none

def listSave (k : String) (l : List Json) (expiresAt : Int64) : Save :=
  ⟨k, "list", l.length, .doc (.array l), expiresAt⟩

def storeList (k : String) (l : List Json) (expiresAt : Int64) : Cmd Unit := (listSave k l expiresAt).run

/-- The members a marked document holds. -/
def membersOf (kind : String) (j : Json) : Members :=
  match j.get? "members" with
  | some (.array a) => if kind = "set" then .ofTexts (a.filterMap Json.asString) else []
  | some (.object o) => o
  | _ => []

/-- The members of the set or sorted set at `k` and its expiry. -/
def load (k kind : String) : Cmd (Option (Members × Int64)) := do
  match ← Cmd.get k with
  | none => return none
  | some (.doc j, m) => if marked j = some kind then return some (membersOf kind j, m.expiresAt) else .fail .wrongType
  | some _ => .fail .wrongType

def setSave (k kind : String) (ms : Members) (expiresAt : Int64) : Save :=
  let body : Json := if kind = "set" then .array (ms.map fun p => .string p.1) else .object ms
  ⟨k, if kind = "set" then "set" else "sorted set", ms.length,
    .doc (.object [("redis", .string kind), ("members", body)]), expiresAt⟩

def store (k kind : String) (ms : Members) (expiresAt : Int64) : Cmd Unit := (setSave k kind ms expiresAt).run

/-- What a command that moves an element is about to do: answer, or save one
collection or two and then answer. -/
inductive Plan
  | answer (r : Reply)
  | one (s : Save) (r : Reply)
  | two (s t : Save) (r : Reply)

def Plan.run : Plan → Cmd Reply
  | answer r => return r
  | one s r => do
      s.run
      return r
  | two s t r => do
      s.run
      t.run
      return r

/-- Whether `LMOVE` takes from the left and adds to the left; `RPOPLPUSH` takes
from the right. -/
def ends (name : String) (args : List Bytes) : Except Reply (Bool × Bool) := do
  if name = "LMOVE" then
    arity args 5
    return (← side (args.getD 3 []), ← side (args.getD 4 []))
  else
    arity args 3
    return (false, true)

end KivaDb.Resp
