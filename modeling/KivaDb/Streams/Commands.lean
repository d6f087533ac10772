import KivaDb.Streams.State

namespace KivaDb.Streams

open Std (ExtTreeMap)
open Resp

/-- Whether arithmetic that overflows ends in a panic, or wraps around. -/
class Build where
  checked : Bool

def sub [Build] (a b : Int64) : Option Int64 :=
  if Build.checked ∧ ¬ (-2 ^ 63 ≤ a.toInt - b.toInt ∧ a.toInt - b.toInt < 2 ^ 63) then none else some (a - b)

def mul [Build] (a b : UInt64) : Option UInt64 :=
  if Build.checked ∧ 2 ^ 64 ≤ a.toNat * b.toNat then none else some (a * b)

/-- The key of a command, its clock in milliseconds, and `resp.max_collection_members`. -/
structure Env where
  key : String
  now : Int64
  limit : Nat
  now_nonneg : 0 ≤ now

def noGroup (e : Env) (group : String) : Reply := .error s!"NOGROUP No such key '{e.key}' or consumer group '{group}'"

def storeStream (e : Env) (s : Stream) : Except Reply Stream :=
  if 0 < e.limit ∧ e.limit < s.entries.size then
    .error (.err (s!"the stream '{e.key}' would hold {s.entries.size} entries, more than resp.max_collection_members " ++
      s!"({e.limit}). Every command reads and rewrites the whole stream: trim it (XADD ... MAXLEN ~ N, XTRIM), or raise the limit"))
  else .ok s

/-- The stream of a group command, and the group. -/
def groupOf (e : Env) (group : String) : Option Stream → Except Reply (Stream × Group)
  | none => .error (noGroup e group)
  | some s =>
      match s.groups[group]? with
      | none => .error (noGroup e group)
      | some g => .ok (s, g)

def Stream.setGroup (s : Stream) (name : String) (g : Group) : Stream := { s with groups := s.groups.insert name g }

/-- The id that `XADD` is asked for: `*`, `<ms>-*`, or an id. -/
inductive AddId
  | auto
  | inMs (ms : UInt64)
  | exactly (id : Id)

def tooSmall : Reply := .err "The ID specified in XADD is equal or smaller than the target stream top item"

/-- The next id: greater than every id the stream ever gave. -/
def nextId (now : Int64) (top : Id) : AddId → Except Reply Id
  | .auto =>
      let ms : UInt64 := if 0 ≤ now then now.toUInt64 else 0
      if top.ms < ms then .ok ⟨ms, 0⟩
      else
        match top.next with
        | some id => .ok id
        | none => .error (.err "The stream has exhausted the last possible ID, unable to add more items")
  | .inMs ms =>
      if top.ms < ms then .ok ⟨ms, 0⟩
      else if ms = top.ms then
        match top.next with
        | some id => if id.ms = ms then .ok id else .error tooSmall
        | none => .error tooSmall
      else .error tooSmall
  | .exactly id =>
      if id = .zero then .error (.err "The ID specified in XADD must be greater than 0-0")
      else if id ≤ top then .error tooSmall
      else .ok id

def Stream.add (s : Stream) (id : Id) (fields : List String) : Stream :=
  { s with entries := s.entries.insert id fields, last := id, added := s.added + 1 }

/-- `none` where the stream is not there and is not to be made. -/
def xadd (e : Env) (noMkStream : Bool) (trim : Option Trim) (arg : AddId) (fields : List String) (stream : Option Stream) :
    Except Reply (Option (Stream × Id)) :=
  if stream.isNone && noMkStream then .ok none
  else do
    let s := stream.getD .empty
    let id ← nextId e.now s.last arg
    let s := s.add id fields
    let s := match trim with
      | some t => (s.trim t).1
      | none => s
    let s ← storeStream e s
    return some (s, id)

/-- Removes the entries that are there, and counts them. -/
def deleteAll : List Id → Stream → Stream × Nat
  | [], s => (s, 0)
  | id :: ids, s =>
      if id ∈ s.entries then
        let (s, n) := deleteAll ids (s.erase id)
        (s, n + 1)
      else deleteAll ids s

/-- What is stored where something was removed. -/
def storeIf (e : Env) (s : Stream) : Stream × Nat → Except Reply (Stream × Nat)
  | (s', n) => if 0 < n then (storeStream e s').map fun s' => (s', n) else .ok (s, 0)

def xdel (e : Env) (ids : List Id) (s : Stream) : Except Reply (Stream × Nat) := storeIf e s (deleteAll ids s)

def xtrim (e : Env) (t : Trim) (s : Stream) : Except Reply (Stream × Nat) := storeIf e s (s.trim t)

def xsetid (e : Env) (id : Id) : Option Stream → Except Reply Stream
  | none => .error (.err "no such key")
  | some s =>
      if s.entries.maxKey?.any fun top => id < top then
        .error (.err "The ID specified in XSETID is smaller than the target stream top item")
      else storeStream e { s with last := id }

/-- An id of `XGROUP`; without one, `$`: the last of the stream. -/
def groupStart (s : Stream) (id : Option Id) : Id := id.getD s.last

def toCount (n : Int64) : UInt64 := if 0 ≤ n then n.toUInt64 else 0

def xgroupCreate (e : Env) (group : String) (id : Option Id) (entriesRead : Option Int64) (mkStream : Bool)
    (stream : Option Stream) : Except Reply Stream :=
  if stream.isNone && !mkStream then
    .error (.err ("The XGROUP subcommand requires the key to exist. Note that for CREATE you may want to use the " ++
      "MKSTREAM option to create an empty stream automatically."))
  else
    let s := stream.getD .empty
    if group ∈ s.groups then .error (.error "BUSYGROUP Consumer Group name already exists")
    else
      let last := groupStart s id
      let read := match entriesRead with
        | some n => some (toCount n)
        | none => if s.last ≤ last then some s.added else if last = .zero then some 0 else none
      storeStream e (s.setGroup group ⟨last, read, ∅, ∅⟩)

def xgroupSetId (e : Env) (group : String) (id : Option Id) (entriesRead : Option Int64) (stream : Option Stream) :
    Except Reply Stream := do
  let (s, g) ← groupOf e group stream
  let last := groupStart s id
  let read := match entriesRead with
    | some n => some (toCount n)
    | none => if s.last ≤ last then some s.added else none
  storeStream e (s.setGroup group { g with last := last, read := read })

def xgroupDestroy (e : Env) (group : String) (s : Stream) : Except Reply (Stream × Nat) :=
  storeIf e s (if group ∈ s.groups then ({ s with groups := s.groups.erase group }, 1) else (s, 0))

def xgroupCreateConsumer (e : Env) (group consumer : String) (stream : Option Stream) : Except Reply (Stream × Nat) := do
  let (s, g) ← groupOf e group stream
  if consumer ∈ g.consumers then return (s, 0)
  else
    let s ← storeStream e (s.setGroup group { g with consumers := g.consumers.insert consumer ⟨e.now, 0⟩ })
    return (s, 1)

/-- The pending entries of a consumer are dropped with it. -/
def xgroupDelConsumer (e : Env) (group consumer : String) (stream : Option Stream) : Except Reply (Stream × Nat) := do
  let (s, g) ← groupOf e group stream
  let kept := g.pending.filter fun _ p => p.consumer ≠ consumer
  let s ← storeStream e (s.setGroup group { g with pending := kept, consumers := g.consumers.erase consumer })
  return (s, g.pending.size - kept.size)

def ackAll : List Id → Pel → Pel × Nat
  | [], pending => (pending, 0)
  | id :: ids, pending =>
      if id ∈ pending then
        let (pending, n) := ackAll ids (pending.erase id)
        (pending, n + 1)
      else ackAll ids pending

def xack (e : Env) (group : String) (ids : List Id) (s : Stream) : Except Reply (Stream × Nat) :=
  match s.groups[group]? with
  | none => .ok (s, 0)
  | some g =>
      let (pending, n) := ackAll ids g.pending
      storeIf e s (s.setGroup group { g with pending := pending }, n)

/-- A consumer that has just been seen, or given something. -/
def Group.touch (g : Group) (consumer : String) (now : Int64) (active : Bool) : Group :=
  let c := g.consumers.getD consumer ⟨0, 0⟩
  { g with consumers := g.consumers.insert consumer ⟨now, if active then now else c.active⟩ }

/-- The entries of a stream that a group has not read. -/
def newEntries (s : Stream) (g : Group) (limit : Nat) : List (Id × List String) :=
  match g.last.next with
  | some start => range s.entries start limit
  | none => []

def deliver (consumer : String) (now : Int64) (pending : Pel) : List (Id × List String) → Pel
  | [] => pending
  | (id, _) :: new => deliver consumer now (pending.insert id ⟨consumer, now, 1⟩) new

/-- `XREADGROUP` with `>`, on one of its streams. -/
def readNew (e : Env) (group consumer : String) (limit : Nat) (noack : Bool) (stream : Option Stream) :
    Except Reply (Stream × List (Id × List String)) := do
  let (s, g) ← groupOf e group stream
  let new := newEntries s g limit
  let known := consumer ∈ g.consumers
  let g := g.touch consumer e.now !new.isEmpty
  let g := match new.getLast? with
    | some (last, _) => { g with last := last, read := g.read.map fun r => r + .ofNat new.length }
    | none => g
  let g := if noack then g else { g with pending := deliver consumer e.now g.pending new }
  if known ∧ new = [] then return (s, [])
  else
    let s ← storeStream e (s.setGroup group g)
    return (s, new)

def redeliver (entries : Entries) (now : Int64) (pending : Pel) : List (Id × Pending) → Pel × List (Id × Option (List String))
  | [] => (pending, [])
  | (id, p) :: mine =>
      let (pending, items) := redeliver entries now (pending.insert id { p with delivered := now, count := p.count + 1 }) mine
      (pending, (id, entries[id]?) :: items)

/-- `XREADGROUP` with an id, on one of its streams: the consumer's own pending entries, again. -/
def readOwn (e : Env) (group consumer : String) (limit : Nat) (after : Id) (stream : Option Stream) :
    Except Reply (Stream × List (Id × Option (List String))) := do
  let (s, g) ← groupOf e group stream
  let start := after.next.getD .max
  let mine := (g.pending.toList.filter fun x => start ≤ x.1 ∧ x.2.consumer = consumer).take limit
  let known := consumer ∈ g.consumers
  let (pending, items) := redeliver s.entries e.now g.pending mine
  let g := { g.touch consumer e.now false with pending := pending }
  if known ∧ mine = [] then return (s, items)
  else
    let s ← storeStream e (s.setGroup group g)
    return (s, items)

section

variable [Build]

/-- Rows of `XPENDING`: the owner of each entry, how long ago it was delivered, and how often. -/
def pendingRows (now idle : Int64) (consumer : Option String) : List (Id × Pending) → Nat → Option (List (Id × String × Int64 × UInt64))
  | [], _ => some []
  | _, 0 => some []
  | (id, p) :: rows, n + 1 =>
      if consumer.all fun c => p.consumer = c then do
        let since ← sub now p.delivered
        if idle ≤ since then
          let rest ← pendingRows now idle consumer rows n
          return (id, p.consumer, since, p.count) :: rest
        else pendingRows now idle consumer rows (n + 1)
      else pendingRows now idle consumer rows (n + 1)

def xpending (e : Env) (group : String) (idle : Int64) (lo hi : Id) (count : Nat) (consumer : Option String)
    (stream : Option Stream) : Option (Except Reply (List (Id × String × Int64 × UInt64))) :=
  match groupOf e group stream with
  | .error why => some (.error why)
  | .ok (_, g) =>
      (pendingRows e.now idle consumer (g.pending.toList.filter fun x => lo ≤ x.1 ∧ x.1 ≤ hi) count).map .ok

inductive ClaimOption
  | idle (n : Int64)
  | time (n : Int64)
  | retryCount (n : Int64)
  | lastId (id : Id)
  | force
  | justId

structure ClaimSettings where
  delivered : Option Int64
  retry : Option UInt64
  force : Bool
  justId : Bool

def claimSettings (now : Int64) : List ClaimOption → ClaimSettings → Option ClaimSettings
  | [], given => some given
  | .idle n :: opts, given => do
      let delivered ← sub now n
      claimSettings now opts { given with delivered := some delivered }
  | .time n :: opts, given => claimSettings now opts { given with delivered := some n }
  | .retryCount n :: opts, given => claimSettings now opts { given with retry := some (toCount n) }
  | .lastId _ :: opts, given => claimSettings now opts given
  | .force :: opts, given => claimSettings now opts { given with force := true }
  | .justId :: opts, given => claimSettings now opts { given with justId := true }

/-- Gives a pending entry to a consumer, if the entry is still there and has been idle for long enough. -/
def claimPending (now minIdle : Int64) (consumer : String) (set : ClaimSettings) (entries : Entries) (pending : Pel) (id : Id)
    (p : Pending) : Option (Pel × Option (List String)) :=
  match entries[id]? with
  | none => some (pending.erase id, none)
  | some fields => do
      let idle ← sub now p.delivered
      if idle < minIdle then return (pending, none)
      else
        let count := match set.retry with
          | some r => r
          | none => if set.justId then p.count else p.count + 1
        return (pending.insert id ⟨consumer, set.delivered.getD now, count⟩, some fields)

def claimOne (now minIdle : Int64) (consumer : String) (set : ClaimSettings) (entries : Entries) (pending : Pel) (id : Id) :
    Option (Pel × Option (List String)) :=
  match pending[id]? with
  | some p => claimPending now minIdle consumer set entries pending id p
  | none =>
      if set.force ∧ id ∈ entries then
        let p : Pending := ⟨consumer, now, 0⟩
        claimPending now minIdle consumer set entries (pending.insert id p) id p
      else some (pending, none)

def claimAll (now minIdle : Int64) (consumer : String) (set : ClaimSettings) (entries : Entries) :
    List Id → Pel → Option (Pel × List (Id × List String))
  | [], pending => some (pending, [])
  | id :: ids, pending => do
      let (pending, claimed) ← claimOne now minIdle consumer set entries pending id
      let (pending, out) ← claimAll now minIdle consumer set entries ids pending
      return (pending, (claimed.toList.map fun fields => (id, fields)) ++ out)

def atLeast (lo n : Int64) : Int64 := if n < lo then lo else n

def xclaim (e : Env) (group consumer : String) (minIdle : Int64) (ids : List Id) (opts : List ClaimOption) (stream : Option Stream) :
    Option (Except Reply (Stream × List (Id × List String))) := do
  let set ← claimSettings e.now opts ⟨none, none, false, false⟩
  match groupOf e group stream with
  | .error why => return .error why
  | .ok (s, g) =>
      let (pending, out) ← claimAll e.now (atLeast 0 minIdle) consumer set s.entries ids g.pending
      let g := { g with pending := pending }.touch consumer e.now !out.isEmpty
      return (storeStream e (s.setGroup group g)).map fun s => (s, out)

structure Sweep where
  pending : Pel
  next : Id
  taken : Nat
  claimed : List (Id × List String)
  deleted : List Id

/-- Goes through the entries of a window: `left` of them, the last of which is followed up where
the window is full. -/
def sweepFrom (now minIdle : Int64) (consumer : String) (justId : Bool) (entries : Entries) (count : Nat) (full : Bool) :
    List Id → Sweep → Option Sweep
  | [], w => some w
  | id :: ids, w =>
      if count ≤ w.taken then some { w with next := id }
      else
        let w := if ids = [] ∧ full then { w with next := id.next.getD .zero } else w
        match entries[id]?, w.pending[id]? with
        | none, _ =>
            sweepFrom now minIdle consumer justId entries count full ids
              { w with pending := w.pending.erase id, deleted := w.deleted ++ [id] }
        | some _, none => none
        | some fields, some p => do
            let idle ← sub now p.delivered
            if idle < minIdle then sweepFrom now minIdle consumer justId entries count full ids w
            else
              let p : Pending := ⟨consumer, now, if justId then p.count else p.count + 1⟩
              sweepFrom now minIdle consumer justId entries count full ids
                { w with pending := w.pending.insert id p, taken := w.taken + 1, claimed := w.claimed ++ [(id, fields)] }

def xautoclaim (e : Env) (group consumer : String) (minIdle : Int64) (start : Id) (count : Int64) (justId : Bool)
    (stream : Option Stream) : Option (Except Reply (Stream × Id × List (Id × List String) × List Id)) :=
  match groupOf e group stream with
  | .error why => some (.error why)
  | .ok (s, g) => do
      let count := toCount (atLeast 1 count)
      let window ← mul count 10
      let scanned := (range g.pending start window.toNat).map Prod.fst
      let full := scanned.length = window.toNat
      let w ← sweepFrom e.now (atLeast 0 minIdle) consumer justId s.entries count.toNat full scanned
        ⟨g.pending, .zero, 0, [], []⟩
      let g := { g with pending := w.pending }.touch consumer e.now (0 < w.taken)
      return (storeStream e (s.setGroup group g)).map fun s => (s, w.next, w.claimed, w.deleted)

end

end KivaDb.Streams
