import KivaDb.Engine.Chunks
import KivaDb.Engine.Maintain

namespace KivaDb.Engine

open Lib.LittleEndian Lib.Utf8 Glob

variable [External] [Chrono] [Codec] [Vectors]

def get (key : String) (now : Int64) : M (Option (Value × Entry)) := do
  match ← live key now with
  | none => return none
  | some e =>
      let v ← attempt ((← MonadState.get).readValue key e)
      return some (v, e)

/-- The entry of `key`, without reading its value. -/
def meta_ (key : String) (now : Int64) : M (Option Entry) := live key now

def len : M Nat := return (← MonadState.get).index.size

/-- The keys whose TTL has not elapsed, in key order. -/
def range (now : Int64) : M (List (String × Entry)) :=
  return (← MonadState.get).index.toList.filter fun p => !p.2.isExpired now

/-- Keys matching a glob pattern, in key order. -/
def keysMatching (pattern : String) (now : Int64) : M (List (String × Entry)) :=
  let pre := globPrefix pattern
  return ((((← MonadState.get).index.toList.dropWhile fun p => p.1 < String.ofList pre).takeWhile
    fun p => pre.isPrefixOf p.1.toList).filter fun p => !p.2.isExpired now && globMatch pattern p.1)

def watchConflict (watched : List WatchedKey) (now : Int64) : M (Option String) := changed now watched

/-- Memory taken by one key in the in-memory index: its bytes, the entry and the
B-tree node overhead. -/
def keyCost (key : String) : Nat := (asBytes key).length + 24 + 48 + 48

/-- Checks that writing `keys` fits in the memory bound. Changing a key that
exists is always allowed. -/
def checkRoom (keys : List String) (now : Int64) : M Unit := do
  let i ← MonadState.get
  let new := keys.filter fun k => !(i.index[k]?).any fun e => !e.isExpired now
  let needed := (new.map keyCost).sum
  if i.maxMemory = 0 ∨ new.isEmpty = true ∨ i.resident + needed ≤ i.maxMemory then return ()
  else
    throw (.other s!"OOM: this workspace reached its memory bound ({Vectors.humanSize i.resident} of {Vectors.humanSize i.maxMemory} used), so new keys are refused. Delete keys or expired data, drop an index, or raise storage.max_memory_mb.")

end KivaDb.Engine
