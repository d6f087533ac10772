import KivaDb.Engine.Ops

namespace KivaDb

open Lib.LittleEndian Lib.Utf8 Lib.Flags Format Crypt Glob

/-- A key watched by Redis `WATCH`, with the engine sequence at that time. -/
structure WatchedKey where
  key : String
  since : Nat
  /-- It held a live value: expiring counts as a change. -/
  existed : Bool

variable [External] [Chrono] [Codec] [Vectors]

inductive BatchOp
  | put (key : String) (value : Value) (expiresAt : Int64) (msgpack : Bool)
  | del (key : String)

namespace BatchOp

def key : BatchOp → String
  | put k _ _ _ => k
  | del k => k

/-- The document the key holds after the operation. -/
def doc : BatchOp → Option DocView
  | put _ v _ _ => DocView.of v
  | del _ => none

end BatchOp

/-- The sequence number of the last change of `key` still known. -/
def Inner.versionOf (i : Inner) (key : String) : Nat :=
  (((i.index[key]?).map (·.version)).or i.tombVersions[key]?).getD 0

/-- The first watched key that changed since it was watched, if any. -/
def changed (now : Int64) : List WatchedKey → M (Option String)
  | [] => return none
  | w :: ws => do
      let i ← get
      -- written, deleted, emptied with the database, or expired
      if w.since < i.versionOf w.key ∨ w.since < i.resetSeq then return some w.key
      else if w.existed then
        if (← live w.key now).isNone then return some w.key else changed now ws
      else changed now ws

/-- The conflict of a transaction that began at `begin_`. -/
def Inner.conflict (i : Inner) (begin_ : Nat) (ops : List BatchOp) : Result Unit :=
  if begin_ < i.resetSeq then .error (.conflict "the database was reset during the transaction")
  else
    match ops.find? fun op => begin_ < i.versionOf op.key with
    | some op => .error (.conflict s!"key '{op.key}' was modified by another session")
    | none => .ok ()

/-- Fills in the defaults of the schemas. -/
def conformAll (at_ now : Int64) : List BatchOp → M (List BatchOp)
  | [] => return []
  | .put key value expiresAt msgpack :: ops => do
      let v ← conformed key value at_ now
      return .put key (v.getD value) expiresAt msgpack :: (← conformAll at_ now ops)
  | .del key :: ops => return .del key :: (← conformAll at_ now ops)

/-- Sets what `key` holds, in place when it is already listed. -/
def setLast (last : List (String × Option DocView)) (key : String) (doc : Option DocView) :
    List (String × Option DocView) :=
  if last.any (·.1 = key) then last.map fun p => if p.1 = key then (key, doc) else p else last ++ [(key, doc)]

/-- What each key holds once the whole batch is applied. -/
def lastDocs (ops : List BatchOp) : List (String × Option DocView) :=
  ops.foldl (fun last op => setLast last op.key op.doc) []

inductive Staged
  | put (key : String) (entry : Entry) (raw : Bytes) (doc : Option DocView) (ty : Ty) (created : Bool)
  | del (key : String)

namespace Staged

def key : Staged → String
  | put k _ _ _ _ _ => k
  | del k => k

/-- The entry of the commit record says that it is one. -/
def markCommit : Staged → Staged
  | put k e raw doc ty created => put k { e with flags := e.flags ||| flagTxnCommit } raw doc ty created
  | del k => del k

end Staged

/-- What staging has gathered: the operations that write something with their
records, whether each key of them exists at that point, and the memory the
vector indexes would gain. -/
structure Staging where
  staged : List (Staged × Bytes)
  shadow : Std.ExtTreeMap String Bool compare
  growth : Nat

/-- Later operations in the batch must see earlier ones. -/
def existsNow (shadow : Std.ExtTreeMap String Bool compare) (key : String) (now : Int64) : M Bool :=
  match shadow[key]? with
  | some e => pure e
  | none => do return (← live key now).isSome

def stage (now ts : Int64) (draws : Nat → Draw) : Nat → List BatchOp → Staging → M Staging
  | _, [], st => return st
  | n, .put key value expiresAt msgpack :: ops, st => do
      let (rec, entry, raw) ← attempt (buildPut (← get) key value expiresAt msgpack ts flagTxn (draws n))
      let found ← existsNow st.shadow key now
      let doc := DocView.of value
      let growth := st.growth + (← get).vectorGrowth key doc
      stage now ts draws (n + 1) ops
        { staged := st.staged ++ [(.put key entry raw doc entry.ty (!found), rec)]
          shadow := st.shadow.insert key true
          growth }
  | n, .del key :: ops, st => do
      let found ← existsNow st.shadow key now
      if found then
        let rec ← attempt (encodeRecord (← get).keys (draws n) key [] 0 (flagTombstone ||| flagTxn) now 0)
        stage now ts draws (n + 1) ops
          { st with staged := st.staged ++ [(.del key, rec)], shadow := st.shadow.insert key false }
      else stage now ts draws (n + 1) ops st

/-- Marks the final record as the commit point. -/
def commitLast : List (Staged × Bytes) → List (Staged × Bytes)
  | [] => []
  | [(s, rec)] => [(s.markCommit, stampCommit rec)]
  | p :: q :: ps => p :: commitLast (q :: ps)

/-- Applies a staged operation whose record starts at `offset`. -/
def Inner.applyStaged (i : Inner) (offset : Nat) : Staged → Inner
  | .put key entry raw doc ty created =>
      let entry := { entry with offset, version := i.seq + 1 }
      ({ i with seq := i.seq + 1 }.idxInsert key entry doc).emit
        (.set key ty raw entry.docEnc entry.timestamp entry.expiresAt created)
  | .del key =>
      let i := { i with seq := i.seq + 1 }.idxRemove key
      let i := if 0 < i.activeTxns then { i with tombVersions := i.tombVersions.insert key i.seq } else i
      i.emit (.del key)

def Inner.applyAllStaged : Inner → Nat → List (Staged × Bytes) → Inner
  | i, _, [] => i
  | i, offset, (s, rec) :: rest => (i.applyStaged offset s).applyAllStaged (offset + rec.length) rest

/-- Refused when a watched key changed. -/
def checkWatched (watched : Option (List WatchedKey)) (now : Int64) : M Unit :=
  match watched with
  | none => pure ()
  | some ws => do
      match ← changed now ws with
      | some key => throw (.conflict s!"the watched key '{key}' changed")
      | none => pure ()

/-- Refused when a key of the batch changed after the transaction began. -/
def checkConflict (beginSeq : Option Nat) (ops : List BatchOp) : M Unit :=
  match beginSeq with
  | none => pure ()
  | some b => do refuse ((← get).conflict b ops)

def conformBatch (at_ now : Int64) (ops : List BatchOp) : M (List BatchOp) := do
  if (← get).schemas.isEmpty then return ops else conformAll at_ now ops

/-- Refused when two documents would hold the same value in a unique index once
the whole batch is applied. -/
def checkLast (ops : List BatchOp) (now : Int64) : M Unit := do
  if (← get).sec.any (·.unique) then refuse ((← get).checkUnique (lastDocs ops) now) else return ()

/-- The checks a batch passes before anything of it is encoded. -/
def checkBatch (ops : List BatchOp) (beginSeq : Option Nat) (watched : Option (List WatchedKey)) (clock : Clock) :
    M (List BatchOp) := do
  checkWatched watched (clock.now 0)
  checkConflict beginSeq ops
  let ops ← conformBatch (clock.now 1) (clock.now 2) ops
  checkLast ops (clock.now 3)
  return ops

/-- The records a batch would append, the last one marked as its commit point;
none when it has nothing to write. -/
def stageBatch (ops : List BatchOp) (beginSeq : Option Nat) (watched : Option (List WatchedKey)) (clock : Clock)
    (draws : Nat → Draw) : M (List (Staged × Bytes)) := do
  let ops ← checkBatch ops beginSeq watched clock
  let st ← stage (clock.now 0) (clock.secs 0) draws 0 ops ⟨[], ∅, 0⟩
  if st.staged.isEmpty then return []
  else
    refuse ((← get).checkVectorRoom st.growth)
    return commitLast st.staged

/-- Applies several operations atomically: either every record of the batch is
on disk and applied, or none is. Refused as a conflict when one of the `watched`
keys changed, or one of its keys after `beginSeq`. -/
def applyBatchWatched (ops : List BatchOp) (beginSeq : Option Nat) (watched : Option (List WatchedKey)) (clock : Clock)
    (draws : Nat → Draw) : M Unit := do
  let recs ← stageBatch ops beginSeq watched clock draws
  if recs.isEmpty then return ()
  else
    let base ← append (recs.flatMap Prod.snd)
    modify fun i => i.applyAllStaged base recs

/-- Starts watching keys; until `unwatch`, deletions are remembered. -/
def watchAll (now : Int64) (since : Nat) : List String → M (List WatchedKey)
  | [] => return []
  | k :: ks => do
      let existed := (← live k now).isSome
      return ⟨k, since, existed⟩ :: (← watchAll now since ks)

def watch (keys : List String) (now : Int64) : M (List WatchedKey) := do
  modify fun i => { i with activeTxns := i.activeTxns + 1 }
  watchAll now (← get).seq keys

end KivaDb
