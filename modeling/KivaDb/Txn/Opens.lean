import KivaDb.Engine.Maintain
import KivaDb.Lib.Fallible
import KivaDb.Lib.Runs

namespace KivaDb.Txn

open Lib.LittleEndian Lib.Fallible Crypt

variable [External] [Chrono] [Codec] [Vectors]

/-- What an open transaction or watch goes by: the engine as it was when it
began, and the key when only one is watched. -/
structure Mark where
  start : Inner
  watched : Option WatchedKey

/-- An engine, the transactions and watches that are open on it, the latest
reading of the clock and the compaction at work. -/
structure State where
  inner : Inner
  opens : List (List Mark)
  latest : Int64
  copying : Option Copying

inductive Event
  | txnBegin
  | watch (keys : List String) (now : Int64)
  /-- The keys of the second watch join those of the first one. -/
  | watchMore (m n : Nat)
  | txnEnd (n : Nat)
  | live (key : String) (now : Int64)
  | put (key : String) (value : Value) (expiresAt : Int64) (msgpack : Bool) (clock : Clock) (nonce : Draw)
  | updateWith (key : String) (f : Value → Result (Option Value × Unit)) (clock : Clock) (nonce : Draw)
  | delete (key : String) (clock : Clock) (nonce : Draw)
  /-- A batch, of the `m`-th one if it is a transaction, under the `n`-th one if
  it is a watch. -/
  | applyBatch (ops : List BatchOp) (m n : Option Nat) (clock : Clock) (draws : Nat → Draw)
  | reset (fileId : Except String UInt64)
  | purgeExpired (now : Int64)
  | check (repair : Bool) (copied : Except String Unit) (clock : Clock) (draws : Nat → Draw)
  | freeze (recompress : Option Compression) (newId : Except String UInt64) (now : Int64)
  | copy (nonce : Draw)
  | swap (written : Except String Unit)
  /-- Bytes of the data file go bad. -/
  | rot (file : Bytes)

/-- The sequence number a transaction began at. -/
def beginSeq (marks : List Mark) : Option Nat := (marks.find? (·.watched.isNone)).map (·.start.seq)

def watchedKeys (marks : List Mark) : List WatchedKey := marks.filterMap (·.watched)

namespace State

/-- The marks of everything that is open. -/
def marks (s : State) : List Mark := s.opens.flatten

/-- After a call that has last read the clock at `t`. -/
def after (s : State) (t : Int64) (i : Inner) : State :=
  { s with inner := i, latest := if s.latest ≤ t then t else s.latest }

/-- The marks of the `n`-th one, none when it is not asked for. -/
def pick (s : State) : Option Nat → Option (List Mark)
  | none => some []
  | some n => s.opens[n]?

/-- Whose sequence number and whose watched keys a batch is given. -/
def batchOf (s : State) (m n : Option Nat) : Option (Option Nat × Option (List WatchedKey)) := do
  let txn ← s.pick m
  let watch ← s.pick n
  return (beginSeq txn, n.map fun _ => watchedKeys watch)

/-- One step; none when there is nothing it could be about. -/
def step (s : State) : Event → Option State
  | .txnBegin =>
      let i := left KivaDb.txnBegin s.inner
      some { s with inner := i, opens := s.opens ++ [[⟨i, none⟩]] }
  | .watch keys now =>
      match KivaDb.watch keys now s.inner with
      | .ok ws i => some { s.after now i with opens := s.opens ++ [ws.map fun w => ⟨i, some w⟩] }
      | .error _ _ => none
  | .watchMore m n => do
      let kept ← s.opens[m]?
      let more ← s.opens[n]?
      if m = n then none
      else some { s with inner := s.inner.txnEnd, opens := (s.opens.set m (kept ++ more)).eraseIdx n }
  | .txnEnd n => do
      let _ ← s.opens[n]?
      some { s with inner := s.inner.txnEnd, opens := s.opens.eraseIdx n }
  | .live key now => some (s.after now (left (KivaDb.live key now) s.inner))
  | .put key value expiresAt msgpack clock nonce =>
      some (s.after (clock.now 4) (left (KivaDb.put key value expiresAt msgpack clock nonce) s.inner))
  | .updateWith key f clock nonce => some (s.after (clock.now 5) (left (KivaDb.updateWith key f clock nonce) s.inner))
  | .delete key clock nonce => some (s.after (clock.now 0) (left (KivaDb.delete key clock nonce) s.inner))
  | .applyBatch ops m n clock draws => do
      let (begin_, watched) ← s.batchOf m n
      some (s.after (clock.now 2) (left (applyBatchWatched ops begin_ watched clock draws) s.inner))
  | .reset fileId => some { s with inner := left (KivaDb.reset fileId) s.inner }
  | .purgeExpired now => some (s.after now (left (KivaDb.purgeExpired now) s.inner))
  | .check repair copied clock draws =>
      some (s.after (clock.now 0) (left (KivaDb.check repair copied clock draws) s.inner))
  | .freeze recompress newId now =>
      match KivaDb.freeze recompress newId now s.inner with
      | .ok c i => some { s.after now i with copying := some c }
      | .error _ i => some (s.after now i)
  | .copy nonce => do
      let c ← s.copying
      match c.next s.inner nonce with
      | .ok c => some { s with copying := some c }
      | .error _ => some { s with copying := none, inner := { s.inner with compacting := false } }
  | .swap written => do
      let c ← s.copying
      if c.todo = [] then some { s with inner := left (KivaDb.swap c written) s.inner, copying := none } else none
  | .rot file =>
      if file.length = s.inner.file.length then some { s with inner := { s.inner with file := file } } else none

end State

/-- The mark goes by the version of `key` alone: it could not tell from the key
being gone that something happened. -/
def Mark.blind (m : Mark) (key : String) : Bool := m.watched.all fun w => w.key == key && !w.existed

/-- The mark has found `key`. -/
def Mark.found (m : Mark) (key : String) : Bool := m.watched.any fun w => w.key == key && w.existed

/-- If `key` is dropped because its TTL has elapsed at `t`, no mark misses a
change of it. -/
def State.Spares (s : State) (t : Int64) (key : String) : Prop :=
  ∀ e ∈ s.inner.index[key]?, e.isExpired t = true → ∀ m ∈ s.marks, m.blind key = true → e.version ≤ m.start.seq

def State.SparesAll (s : State) (t : Int64) : Prop := ∀ p ∈ s.inner.index.toList, s.Spares t p.1

/-- Losing the entry of `key` makes no mark miss a change of it, nor see one that
was not made. -/
def State.Bears (s : State) (key : String) : Prop :=
  ∀ e ∈ s.inner.index[key]?, ∀ m ∈ s.marks,
    (m.blind key = true → e.version ≤ m.start.seq) ∧ (m.found key = true → m.start.seq < e.version)

/-- The step makes the engine forget no change that something open still has to
be told of: no such change expires, none is repaired away, and none is lost in a
compaction. -/
def State.Clean (s : State) : Event → Prop
  | .watch keys now => ∀ k ∈ keys, s.Spares now k
  | .live key now => s.Spares now key
  | .put key _ _ _ clock _ => s.Spares (clock.now 4) key
  | .updateWith key _ clock _ => s.Spares (clock.now 5) key
  | .delete key clock _ => s.Spares (clock.now 0) key
  | .applyBatch ops _ n clock _ =>
      (∀ op ∈ ops, s.Spares (clock.now 2) op.key) ∧
        ∀ ms ∈ s.pick n, ∀ w ∈ watchedKeys ms, s.Spares (clock.now 2) w.key
  | .purgeExpired now => s.SparesAll now
  | .check repair _ clock _ =>
      s.SparesAll (clock.now 0) ∧
        (repair = true → ∀ k ∈ (left (purgeAllExpired (clock.now 0)) s.inner).corruptedKeys, ∀ m ∈ s.marks,
          m.blind k = false)
  | .freeze _ _ now => s.SparesAll now
  | .swap _ => ∀ c ∈ s.copying, ∀ k ∈ c.lost s.inner.index, s.Bears k
  | _ => True

end KivaDb.Txn
