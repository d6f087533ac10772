import KivaDb.Engine.Batch

namespace KivaDb

open Lib.LittleEndian Lib.Utf8 Lib.Flags Format Crypt

variable [External] [Chrono] [Codec] [Vectors]

/-- Marks a transaction as open and returns the sequence number it starts
from. -/
def txnBegin : M Nat := do
  modify fun i => { i with activeTxns := i.activeTxns + 1 }
  return (← get).seq

/-- Ends a transaction, or a watch. -/
def Inner.txnEnd (i : Inner) : Inner :=
  if i.activeTxns - 1 = 0 then { i with activeTxns := 0, tombVersions := ∅ }
  else { i with activeTxns := i.activeTxns - 1 }

def txnEnd : M Unit := modify Inner.txnEnd

structure CheckReport where
  total : Nat
  ok : Nat
  corrupted : List String
  repaired : Nat
  backup : Bool

/-- The keys whose value cannot be read back. -/
def Inner.corruptedKeys (i : Inner) : List String :=
  (i.index.toList.filter fun p => !(i.readValue p.1 p.2).isOk).map Prod.fst

/-- The key goes, and its deletion is told. -/
def Inner.repaired (i : Inner) (key : String) : Inner := ({ i with seq := i.seq + 1 }.idxRemove key).emit (.del key)

def repairKey (key : String) (timestamp : Int64) (nonce : Draw) : M Unit := do
  let rec ← attempt (encodeRecord (← get).keys nonce key [] 0 flagTombstone timestamp 0)
  let _ ← append rec
  modify (·.repaired key)

/-- The clock is read twice for each key: for its record and for the journal. -/
def repairAll (clock : Clock) (draws : Nat → Draw) : Nat → List String → M Unit
  | _, [] => return ()
  | n, k :: ks => do
      repairKey k (clock.secs (2 * n + 1)) (draws n)
      repairAll clock draws (n + 1) ks

/-- Verifies every live record. With `repair`, a backup is taken and corrupted
entries are removed. -/
def check (repair : Bool) (copied : Except String Unit) (clock : Clock) (draws : Nat → Draw) : M CheckReport := do
  purgeAllExpired (clock.now 0)
  let i ← get
  let bad := i.corruptedKeys
  let report : CheckReport :=
    { total := i.index.size, ok := i.index.size - bad.length, corrupted := bad, repaired := 0, backup := false }
  if repair ∧ bad ≠ [] then
    match copied with
    | .error why => throw (.io why)
    | .ok () =>
        repairAll clock draws 0 bad
        return { report with repaired := bad.length, backup := true }
  else return report

/-- The key a record was encrypted with. -/
def recordKeyId (rec : Bytes) : Option Bytes :=
  if hasFlag (parseHeader rec).flags flagEncrypted ∧ 4 ≤ rec.length then some (rec.drop (rec.length - 4)) else none

/-- A compaction at work: the entries still to copy, the new file so far and
where it keeps the records of the old one. -/
structure Copying where
  recompress : Option Compression
  snapLen : Nat
  oldId : UInt64
  newId : UInt64
  todo : List (String × Entry)
  out : Bytes
  moved : Std.ExtTreeMap String (Nat × Entry) compare
  dropped : Nat

structure CompactReport where
  beforeBytes : Nat
  afterBytes : Nat
  records : Nat
  droppedCorrupted : Nat
  aborted : Bool

/-- First phase: freezes a view of the index. -/
def freeze (recompress : Option Compression) (newId : Except String UInt64) (now : Int64) : M Copying := do
  let i ← get
  if i.compacting then throw (.other "a compaction or a backup is already running")
  else if i.closed then throw (.other "database is closed")
  else
    purgeAllExpired now
    modify fun i => { i with compression := recompress.getD i.compression }
    match newId with
    | .error why => throw (randomFailed why)
    | .ok newId =>
        modify fun i => { i with compacting := true }
        let i ← get
        return {
          recompress := recompress
          snapLen := i.file.length
          oldId := i.fileId
          newId := newId
          todo := i.index.toList
          out := fileHeader newId formatV1
          moved := ∅
          dropped := 0 }

namespace Copying

/-- The value as it is stored in the new file, with its compression flag. -/
def restore (c : Copying) (e : Entry) (stored : Bytes) : Result (Bytes × UInt8) :=
  match c.recompress with
  | some algo =>
      if algo = e.compression then .ok (stored, e.flags &&& flagCompMask)
      else do
        let raw ← Compress.unpack stored e.compression
        .ok (Compress.pack raw algo)
  | none => .ok (stored, e.flags &&& flagCompMask)

/-- The record of `key` as the new file holds it, and its entry: none when it
cannot be read. Records of batches lose their marks. -/
def rewrite (c : Copying) (keys : Option Keys) (key : String) (e : Entry) (rec : Bytes) (nonce : Draw) :
    Result (Option (Bytes × Entry)) :=
  let wrongAlgo := c.recompress.any (· ≠ e.compression)
  let wrongKey := recordKeyId rec ≠ keys.map (·.current.id)
  if hasFlag e.flags (flagTxn ||| flagTxnCommit) ∨ wrongAlgo ∨ wrongKey then
    match openRecord keys rec with
    | .error _ => .ok none
    | .ok (_, stored) =>
        match c.restore e stored with
        | .error _ => .ok none
        | .ok (stored, cflag) => do
            let flags := (e.flags &&& (flagMsgpack ||| flagKdoc)) ||| cflag
            let rec ← encodeRecord keys nonce key stored e.ty.code flags e.timestamp e.expiresAt
            let h := parseHeader rec
            .ok (some (rec, { e with flags := h.flags, vSize := h.vSize }))
  else .ok (some (rec, e))

def drop (c : Copying) : Copying := { c with dropped := c.dropped + 1 }

/-- Second phase: copies the next record of the view. -/
def next (c : Copying) (i : Inner) (nonce : Draw) : Result Copying :=
  match c.todo with
  | [] => .ok c
  | (key, e) :: todo =>
      let c := { c with todo }
      match i.readAt e.offset e.recLen with
      | none => .ok c.drop
      | some rec =>
          if verifyRecord rec then do
            match ← c.rewrite i.keys key e rec nonce with
            | none => .ok c.drop
            | some (rec, ne) =>
                .ok { c with
                  out := c.out ++ rec
                  moved := c.moved.insert key (e.offset, { ne with offset := c.out.length }) }
          else .ok c.drop

/-- The entry of `key` in the new file: what was appended after the view was
taken is shifted, what was copied is found there. -/
def relocate (c : Copying) (key : String) (cur : Entry) : Option Entry :=
  if c.snapLen ≤ cur.offset then some { cur with offset := cur.offset - c.snapLen + c.out.length }
  else ((c.moved[key]?).filter (·.1 = cur.offset)).map fun p => { p.2 with version := cur.version }

def newIndex (c : Copying) (ix : Index) : Index := ix.filterMap c.relocate

/-- The keys whose record could not be copied. -/
def lost (c : Copying) (ix : Index) : List String :=
  (ix.toList.filter fun p => (c.relocate p.1 p.2).isNone).map Prod.fst

/-- The new file: it keeps the format of the one it replaces. -/
def newFile (c : Copying) (i : Inner) : Bytes :=
  let file := c.out ++ i.file.drop c.snapLen
  if formatV1 < i.format then file.take 4 ++ (le32 i.format ++ file.drop 8) else file

end Copying

/-- The new file takes the place of the old one. -/
def Inner.replaced (i : Inner) (c : Copying) : Inner :=
  { i.drop (c.lost i.index) with
    table := Table.ofIndex (c.newIndex i.index)
    file := c.newFile i
    fileId := c.newId
    compacting := false }

/-- Third phase: brings over what was appended meanwhile, then swaps the files.
`written` is what comes of the writes and of the renaming. -/
def swap (c : Copying) (written : Except String Unit) : M CompactReport := do
  let i ← get
  if i.fileId ≠ c.oldId ∨ i.closed then
    set { i with compacting := false }
    return { beforeBytes := i.file.length, afterBytes := i.file.length, records := 0, droppedCorrupted := 0, aborted := true }
  else
    match written with
    | .error why =>
        set { i with compacting := false }
        throw (.io why)
    | .ok () =>
        set (i.replaced c)
        return {
          beforeBytes := i.file.length
          afterBytes := (c.newFile i).length
          records := (c.newIndex i.index).size
          droppedCorrupted := c.dropped
          aborted := false }

end KivaDb
