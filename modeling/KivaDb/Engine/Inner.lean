import KivaDb.SecIndex
import KivaDb.Table

namespace KivaDb

open Lib.LittleEndian Lib.Utf8 Lib.Flags Format Crypt Glob

/-- The whole document in plain JSON. -/
def DocView.toJson [Chrono] : DocView → Json
  | .json j => j
  | .typed d => d.toPlainJson

/-- The vector indexes, as the write path uses them. `resident` estimates the
memory that cannot be given back. -/
class Vectors where
  VecIndex : Type
  update : VecIndex → String → Option Json → VecIndex
  remove : VecIndex → String → VecIndex
  clear : VecIndex → VecIndex
  growth : VecIndex → String → Option Json → Nat
  memoryBytes : VecIndex → Nat
  resident : Index → List SecIndex → List VecIndex → Nat
  humanSize : Nat → String

variable [External] [Chrono] [Codec] [Vectors]

/-- The schema of a key pattern: what it makes of a document at an instant, its
defaults filled in, or why it refuses it. -/
structure Schema where
  pattern : String
  conform : Value → Int64 → Except String Value

/-- A committed mutation, delivered to listeners in commit order. -/
inductive Op
  | set (key : String) (ty : Ty) (raw : Bytes) (enc : DocEnc) (timestamp expiresAt : Int64) (created : Bool)
  | del (key : String)
  | reset
  deriving DecidableEq

/-- The state behind the engine's lock. The file is its bytes; `emitted` is
what the listeners were told. -/
structure Inner where
  file : Bytes
  fileId : UInt64
  format : UInt32
  table : Table
  seq : Nat
  compression : Compression
  sec : List SecIndex
  vecs : List Vectors.VecIndex
  schemas : List Schema
  maxMemory : Nat
  maxVectors : Nat
  keys : Option Keys
  activeTxns : Nat
  /-- Versions of keys deleted while a transaction was open. -/
  tombVersions : Std.ExtTreeMap String Nat compare
  resetSeq : Nat
  compacting : Bool
  closed : Bool
  emitted : List Op

/-- A call on the engine: it may fail, and a failed call may still have dropped
keys whose TTL had elapsed. -/
abbrev M := EStateM KivaError Inner

namespace Inner

def index (i : Inner) : Index := i.table.index

def readAt (i : Inner) (offset len : Nat) : Option Bytes :=
  if offset + len ≤ i.file.length then some (slice i.file offset len) else none

/-- Reads and checksums the record behind `e`. -/
def readRecord (i : Inner) (key : String) (e : Entry) : Result Bytes :=
  match i.readAt e.offset e.recLen with
  | none => .error (.corrupted s!"record of '{key}' cannot be read")
  | some rec => if verifyRecord rec then .ok rec else .error (.corrupted s!"checksum mismatch on key '{key}'")

/-- The value bytes of the record behind `e`, decrypted and decompressed. -/
def readRaw (i : Inner) (key : String) (e : Entry) : Result Bytes := do
  let rec ← i.readRecord key e
  match openRecord i.keys rec with
  | .error err => .error (err.intoError s!"the record of '{key}'")
  | .ok (_, stored) => Compress.unpack stored e.compression

def readValue (i : Inner) (key : String) (e : Entry) : Result Value := do
  let raw ← i.readRaw key e
  match Codec.decode e.ty raw e.docEnc with
  | .ok v => .ok v
  | .error (.corrupted why) => .error (.corrupted s!"the record of '{key}': {why}")
  | .error other => .error other

def idxInsert (i : Inner) (key : String) (e : Entry) (doc : Option DocView) : Inner :=
  { i with
    table := i.table.insert key e
    sec := i.sec.map (·.update key doc)
    vecs := i.vecs.map fun v => Vectors.update v key (doc.map DocView.toJson) }

def idxRemove (i : Inner) (key : String) : Inner :=
  match i.index[key]? with
  | none => i
  | some _ =>
      { i with
        table := i.table.remove key
        sec := i.sec.map (·.remove key)
        vecs := i.vecs.map fun v => Vectors.remove v key }

/-- Drops `key` if its TTL has elapsed. -/
def dropExpired (i : Inner) (key : String) (now : Int64) : Inner :=
  match i.index[key]? with
  | some e => if e.isExpired now then i.idxRemove key else i
  | none => i

def emit (i : Inner) (op : Op) : Inner := { i with emitted := i.emitted ++ [op] }

/-- Memory the vector indexes would gain from writing `doc` under `key`. -/
def vectorGrowth (i : Inner) (key : String) (doc : Option DocView) : Nat :=
  (i.vecs.map fun v => Vectors.growth v key (doc.map DocView.toJson)).sum

def vecBytes (i : Inner) : Nat := (i.vecs.map Vectors.memoryBytes).sum

def resident (i : Inner) : Nat := Vectors.resident i.index i.sec i.vecs

/-- Refuses a write that would take the vector indexes past their bound, or
past the workspace's memory bound. -/
def checkVectorRoom (i : Inner) (added : Nat) : Result Unit :=
  if added = 0 then .ok ()
  else if 0 < i.maxVectors ∧ i.maxVectors < i.vecBytes + added then
    .error (.other s!"OOM: the vector indexes of this workspace reached their memory bound ({Vectors.humanSize i.vecBytes} of {Vectors.humanSize i.maxVectors} used), so new vectors are refused. Delete documents, drop a vector index, or raise vector.max_ram_mb.")
  else if 0 < i.maxMemory ∧ i.maxMemory < i.resident + added then
    .error (.other s!"OOM: this workspace reached its memory bound ({Vectors.humanSize i.resident} of {Vectors.humanSize i.maxMemory} used), so new vectors are refused. Delete keys or expired data, drop an index, or raise storage.max_memory_mb.")
  else .ok ()

/-- What one write does to a unique index: the keys taken so far by the writes
before it, or the refusal. -/
def checkWrite (i : Inner) (s : SecIndex) (writes : List (String × Option DocView)) (now : Int64)
    (taken : Std.ExtTreeMap SKey String SKey.cmp) (w : String × Option DocView) :
    Result (Std.ExtTreeMap SKey String SKey.cmp) :=
  if ¬ globMatch s.pattern w.1 then .ok taken
  else
    match w.2.bind s.value with
    | none => .ok taken
    | some sk =>
        let holder := (s.holders w.1 sk).find? fun k =>
          ¬ writes.any (·.1 = k) ∧ (i.index[k]?).any fun e => ¬ e.isExpired now
        match (taken[sk]?).or holder with
        | some other =>
            .error (.unique s!"'{w.1}' not written: '{other}' already holds {Codec.jsonText sk.toJson} in the unique index on {s.describe}")
        | none => .ok (taken.insert sk w.1)

/-- Refuses writes that would give two documents the same value in a unique
index. Keys written together are judged by their new values. -/
def checkUnique (i : Inner) (writes : List (String × Option DocView)) (now : Int64) : Result Unit :=
  (i.sec.filter (·.unique)).forM fun s => do
    let _ ← writes.foldlM (i.checkWrite s writes now) ∅
    .ok ()

end Inner

/-- A check that leaves the state as it is. -/
def refuse (r : Result Unit) : M Unit :=
  match r with
  | .ok () => pure ()
  | .error e => throw e

/-- The entry for `key`, dropping it first if its TTL has elapsed. -/
def live (key : String) (now : Int64) : M (Option Entry) := do
  let i ← get
  set (i.dropExpired key now)
  return (i.index[key]?).filter fun e => ¬ e.isExpired now

/-- Marks the file as being of a format it does not yet have. -/
def Inner.raiseFormat (i : Inner) (need : UInt32) : Inner :=
  if i.format < need then { i with file := i.file.take 4 ++ (le32 need ++ i.file.drop 8), format := need } else i

/-- The records of `buf` at the end of the file. -/
def Inner.extend (i : Inner) (buf : Bytes) : Inner :=
  let i := i.raiseFormat (formatNeeded buf)
  { i with file := i.file ++ buf }

/-- Adds `buf` at the end of the data file; returns where it starts. -/
def append (buf : Bytes) : M Nat := do
  let i ← get
  if i.closed then throw (.other "database is closed")
  else
    set (i.extend buf)
    return (i.raiseFormat (formatNeeded buf)).file.length

end KivaDb
