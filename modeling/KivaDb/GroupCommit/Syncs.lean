import KivaDb.Format
import Std.Data.ExtTreeMap

namespace KivaDb.GroupCommit

open Format

/-- A record of a data file. Its stamp tells which write it is of: a compaction
may write it again with another length, not with another stamp. -/
structure Rec where
  key : String
  stamp : Nat
  tombstone : Bool
  body : Nat
  deriving DecidableEq

def Rec.len (r : Rec) : Nat := recHeaderLen + r.body

/-- The records at their offsets. -/
abbrev Recs := List (Nat × Rec)

/-- A file on disk, with the id its header has. -/
structure DataFile where
  id : Nat
  recs : Recs
  len : Nat

abbrev Index := Std.ExtTreeMap String (Nat × Rec) compare

/-- Where a write ended: `durable_mark`. -/
structure Mark where
  fileId : Nat
  ends : Nat
  deriving DecidableEq

/-- The part of a data file that an fsync has put on disk, as the writers know it. -/
structure Durable where
  fileId : Nat
  len : Nat
  syncing : Bool

/-- A write that must reach the disk before it is answered. -/
structure Write where
  mark : Mark
  recs : Recs

/-- How far a writer is: between two calls; in the loop of `sync_to`; before
`run_sync` locks the engine; before its fsync, on the file it opened and with the
length it read; after it (`none` when it failed); answered. -/
inductive Stage
  | idle
  | asking (mark : Mark)
  | leading (mark : Mark)
  | flushing (mark : Mark) (node len : Nat)
  | flushed (mark : Mark) (result : Option (Option Nat))
  | answered (ok : Bool)

/-- A writer, with its writes whose syncs it has put off. -/
structure Writer where
  putOff : List Write
  stage : Stage

/-- The view of the index that a compaction froze; `synced` when the fsync it made
then did not fail. -/
structure View where
  index : Index
  snapLen : Nat
  oldId : Nat
  synced : Bool

/-- A record that a compaction copied, from one offset to another. -/
structure Moved where
  key : String
  old : Nat
  new : Nat
  copy : Rec

/-- What a compaction copied to its own file, the file `node`. -/
structure Copy where
  view : View
  id : Nat
  node : Nat
  sizes : String → Option Nat
  moved : List Moved
  pos : Nat

inductive Compaction
  | off
  | frozen (view : View)
  | copied (copy : Copy)
  | held (copy : Copy)
  | swapped

def Compaction.view? : Compaction → Option View
  | .off | .swapped => none
  | .frozen view => some view
  | .copied copy | .held copy => some copy.view

/-- A compaction that replaced a file. -/
structure Swap where
  copy : Copy
  old : Recs
  new : Recs
  len : Nat

/-- What a file was replaced by. -/
inductive Fate
  | reset
  | compacted (swap : Swap)

/-- The engine, its files and its writers. `path` and `handle` are the files that
the path names and that the engine writes. `synced` tells how much of each file an
fsync has put on disk, `fate` what replaced it, and `used` has the ids given so
far. -/
structure State where
  nodes : Nat → DataFile
  path : Nat
  handle : Nat
  nextNode : Nat
  fileId : Nat
  fileLen : Nat
  index : Index
  syncFile : Option (Nat × Nat)
  durable : Durable
  compaction : Compaction
  writers : Nat → Writer
  synced : Nat → Nat
  fate : Nat → Option Fate
  used : List Nat
  stamps : Nat

/-- How a compaction ends once it holds the engine: the files are swapped; it
fails and the engine writes its file as before; or the new file could not take the
place of the old one, which then could not be opened again. -/
inductive Outcome
  | done
  | failed
  | stranded

inductive Event
  | write (w : Nat) (ops : List (String × Bool × Nat)) (syncWrites : Bool)
  | wait (w : Nat)
  | ask (w : Nat)
  | lead (w : Nat) (opens : Bool)
  | flush (w : Nat) (ok : Bool)
  | settle (w : Nat)
  | again (w : Nat)
  | expire (key : String)
  | reset (id : Nat) (cut : Bool)
  | freeze (expired : List String) (synced : Bool)
  | copy (id : Nat) (sizes : String → Option Nat)
  | giveUp
  | hold
  | swap (outcome : Outcome)
  | release

/-- The records of a write, from an offset and a stamp on. -/
def place : Nat → Nat → List (String × Bool × Nat) → Recs
  | _, _, [] => []
  | pos, stamp, (key, tombstone, body) :: ops =>
      let r : Rec := ⟨key, stamp, tombstone, body⟩
      (pos, r) :: place (pos + r.len) (stamp + 1) ops

def lengthOf (recs : Recs) : Nat := (recs.map fun p => p.2.len).sum

/-- The index after a record. -/
def indexed (index : Index) (p : Nat × Rec) : Index :=
  if p.2.tombstone then index.erase p.2.key else index.insert p.2.key p

/-- Copies the records of the view that can be read, one after the other. -/
def copyOut (sizes : String → Option Nat) : Nat → List (String × Nat × Rec) → List Moved × Nat
  | pos, [] => ([], pos)
  | pos, (key, old, r) :: rest =>
      match sizes key with
      | none => copyOut sizes pos rest
      | some body =>
          let copy := { r with body }
          let (moved, last) := copyOut sizes (pos + copy.len) rest
          (⟨key, old, pos, copy⟩ :: moved, last)

namespace Copy

/-- The records appended since the view was frozen, as they follow the copies. -/
def tail (c : Copy) (recs : Recs) : Recs :=
  (recs.filter fun p => c.view.snapLen ≤ p.1).map fun p => (p.1 - c.view.snapLen + c.pos, p.2)

/-- The records of the new file. -/
def records (c : Copy) (recs : Recs) : Recs := c.moved.map (fun m => (m.new, m.copy)) ++ c.tail recs

/-- Where the index finds a record after the swap. -/
def reindex (c : Copy) (key : String) (e : Nat × Rec) : Option (Nat × Rec) :=
  if c.view.snapLen ≤ e.1 then some (e.1 - c.view.snapLen + c.pos, e.2)
  else (c.moved.find? fun m => m.key = key && m.old = e.1).map fun m => (m.new, m.copy)

end Copy

namespace State

def recs (s : State) : Recs := (s.nodes s.path).recs

/-- The bytes the file has now are on disk. -/
def fsync (s : State) (node : Nat) : Nat → Nat := fun f =>
  if f = (s.nodes node).id then max (s.synced f) (s.nodes node).len else s.synced f

def setNode (s : State) (node : Nat) (file : DataFile) : Nat → DataFile := fun n => if n = node then file else s.nodes n

def setWriter (s : State) (w : Nat) (x : Writer) : Nat → Writer := fun v => if v = w then x else s.writers v

def setStage (s : State) (w : Nat) (stage : Stage) : Nat → Writer :=
  s.setWriter w { s.writers w with stage }

/-- A write under the engine's lock. -/
def write (s : State) (w : Nat) (ops : List (String × Bool × Nat)) (syncWrites : Bool) : State :=
  let placed := place s.fileLen s.stamps ops
  let fileLen := s.fileLen + lengthOf placed
  let file := s.nodes s.handle
  let x := s.writers w
  { s with
    nodes := s.setNode s.handle { file with recs := file.recs ++ placed, len := fileLen }
    fileLen
    index := placed.foldl indexed s.index
    stamps := s.stamps + ops.length
    writers := s.setWriter w
      { x with putOff := if syncWrites then x.putOff ++ [⟨⟨s.fileId, fileLen⟩, placed⟩] else x.putOff } }

/-- `run_sync` while it holds the engine. -/
def lead (s : State) (w : Nat) (mark : Mark) (opens : Bool) : State :=
  if s.fileId ≠ mark.fileId then { s with writers := s.setStage w (.flushed mark (some none)) }
  else
    match s.syncFile with
    | some (id, node) =>
        if id = mark.fileId then { s with writers := s.setStage w (.flushing mark node s.fileLen) }
        else opened
    | none => opened
where
  opened : State :=
    if opens then
      { s with
        syncFile := some (mark.fileId, s.path)
        writers := s.setStage w (.flushing mark s.path s.fileLen) }
    else { s with writers := s.setStage w (.flushed mark none) }

/-- The end of `sync_to`. -/
def settle (s : State) (w : Nat) (mark : Mark) (result : Option (Option Nat)) : State :=
  let d := { s.durable with syncing := false }
  let durable := match result with
    | some (some len) => if d.fileId ≠ mark.fileId ∨ d.len < len then { d with fileId := mark.fileId, len } else d
    | _ => d
  { s with durable, writers := s.setStage w (.answered result.isSome) }

def reset (s : State) (id : Nat) (cut : Bool) : State :=
  let s := { s with nodes := s.setNode s.handle ⟨id, [], fileHeaderLen⟩, used := id :: s.used }
  if cut then s
  else
    { s with
      synced := s.fsync s.handle
      fate := fun f => if f = s.fileId then some .reset else s.fate f
      fileId := id
      fileLen := fileHeaderLen
      index := ∅ }

def freeze (s : State) (expired : List String) (synced : Bool) : State :=
  let index := expired.foldl (fun i k => i.erase k) s.index
  { s with
    index
    synced := if synced then s.fsync s.handle else s.synced
    compaction := .frozen ⟨index, s.fileLen, s.fileId, synced⟩ }

def copy (s : State) (view : View) (id : Nat) (sizes : String → Option Nat) : State :=
  let (moved, pos) := copyOut sizes fileHeaderLen view.index.toList
  { s with
    nodes := s.setNode s.nextNode ⟨id, moved.map fun m => (m.new, m.copy), pos⟩
    nextNode := s.nextNode + 1
    used := id :: s.used
    compaction := .copied ⟨view, id, s.nextNode, sizes, moved, pos⟩ }

/-- The new file takes the place of the old one. -/
def replace (s : State) (c : Copy) : State :=
  let old := (s.nodes s.handle).recs
  let new := c.records old
  let len := c.pos + (s.fileLen - c.view.snapLen)
  { s with
    nodes := s.setNode c.node ⟨c.id, new, len⟩
    synced := fun f => if f = c.id then max (s.synced f) len else s.synced f
    fate := fun f => if f = s.fileId then some (.compacted ⟨c, old, new, len⟩) else s.fate f
    index := s.index.filterMap c.reindex
    path := c.node
    handle := c.node
    fileId := c.id
    fileLen := len }

/-- The last phase of a compaction, with the engine locked and the syncs held. -/
def swap (s : State) (c : Copy) (outcome : Outcome) : State :=
  let s := { s with syncFile := none, compaction := .swapped }
  if s.fileId ≠ c.view.oldId then s
  else
    match outcome with
    | .done => s.replace c
    | .failed => s
    | .stranded =>
        let len := c.pos + (s.fileLen - c.view.snapLen)
        { s with nodes := s.setNode c.node ⟨c.id, c.records (s.nodes s.handle).recs, len⟩, handle := c.node }

/-- One critical section, or one fsync. -/
def step (s : State) : Event → Option State
  | .write w ops syncWrites =>
      match (s.writers w).stage with
      | .idle => if ops = [] then none else some (s.write w ops syncWrites)
      | _ => none
  | .wait w =>
      -- within an engine, the last write ends after the others
      match (s.writers w).stage, (s.writers w).putOff.getLast? with
      | .idle, some x => some { s with writers := s.setStage w (.asking x.mark) }
      | _, _ => none
  | .ask w =>
      match (s.writers w).stage with
      | .asking mark =>
          if s.durable.fileId = mark.fileId ∧ mark.ends ≤ s.durable.len then
            some { s with writers := s.setStage w (.answered true) }
          else if s.durable.syncing then none
          else some { s with durable := { s.durable with syncing := true }, writers := s.setStage w (.leading mark) }
      | _ => none
  | .lead w opens =>
      match (s.writers w).stage with
      | .leading mark => some (s.lead w mark opens)
      | _ => none
  | .flush w ok =>
      match (s.writers w).stage with
      | .flushing mark node len =>
          if ok then some { s with synced := s.fsync node, writers := s.setStage w (.flushed mark (some (some len))) }
          else some { s with writers := s.setStage w (.flushed mark none) }
      | _ => none
  | .settle w =>
      match (s.writers w).stage with
      | .flushed mark result => some (s.settle w mark result)
      | _ => none
  | .again w =>
      match (s.writers w).stage with
      | .answered _ => some { s with writers := s.setWriter w ⟨[], .idle⟩ }
      | _ => none
  | .expire key => some { s with index := s.index.erase key }
  | .reset id cut => if id ∈ s.used then none else some (s.reset id cut)
  | .freeze expired synced =>
      match s.compaction with
      | .off => some (s.freeze expired synced)
      | _ => none
  | .copy id sizes =>
      match s.compaction with
      | .frozen view => if id ∈ s.used then none else some (s.copy view id sizes)
      | _ => none
  | .giveUp =>
      match s.compaction with
      | .frozen _ | .copied _ => some { s with compaction := .off }
      | _ => none
  | .hold =>
      match s.compaction with
      | .copied c =>
          if s.durable.syncing then none
          else some { s with durable := { s.durable with syncing := true }, compaction := .held c }
      | _ => none
  | .swap outcome =>
      match s.compaction with
      | .held c => some (s.swap c outcome)
      | _ => none
  | .release =>
      match s.compaction with
      | .swapped => some { s with durable := { s.durable with syncing := false }, compaction := .off }
      | _ => none

end State

end KivaDb.GroupCommit
