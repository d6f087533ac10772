import KivaDb.Engine.Inner

namespace KivaDb

open Lib.LittleEndian Lib.Utf8 Lib.Flags Format Crypt Glob

/-- What the clock shows, in milliseconds, each time one call reads it. It
never goes back. -/
structure Clock where
  now : Nat → Int64
  mono : ∀ i j, i ≤ j → now i ≤ now j

/-- A clock that stands still during the call. -/
def Clock.still (t : Int64) : Clock := ⟨fun _ => t, fun _ _ _ => Int64.le_refl t⟩

/-- The reading `i` in seconds. -/
def Clock.secs (c : Clock) (i : Nat) : Int64 := c.now i / 1000

variable [External] [Chrono] [Codec] [Vectors]

/-- Encodes a put as a full record plus the index entry (offset left at 0). -/
def buildPut (i : Inner) (key : String) (value : Value) (expiresAt : Int64) (msgpack : Bool) (timestamp : Int64)
    (extraFlags : UInt8) (nonce : Draw) : Result (Bytes × Entry × Bytes) := do
  validateKey key
  let ty := value.ty
  let (raw, enc) ← Codec.encodeStored value (msgpack && ty.isDoc)
  if maxValueLen < raw.length then .error (.invalid "value is larger than 256 MB")
  else
    let (stored, cflag) := Compress.pack raw i.compression
    let flags := cflag ||| extraFlags ||| enc.flags
    let rec ← encodeRecord i.keys nonce key stored ty.code flags timestamp expiresAt
    let h := parseHeader rec
    .ok (rec,
      { offset := 0
        kSize := h.kSize
        vSize := h.vSize
        rawSize := UInt32.ofNat raw.length
        ty := ty
        flags := h.flags
        timestamp := timestamp
        expiresAt := expiresAt
        version := 0 }, raw)

/-- Runs a fallible computation that reads the state only. -/
def attempt {α : Type} (r : Result α) : M α :=
  match r with
  | .ok a => pure a
  | .error e => throw e

/-- What a schema makes of a value written under `key`. -/
def Schema.apply (s : Schema) (key : String) (at_ : Int64) (value : Value) : Except String Value :=
  let res := match DocView.of value with
    | some _ => s.conform value at_
    | none => .error s!"a JSON object is expected, not a [{value.ty.name}]"
  match res with
  | .ok v => .ok v
  | .error e => .error s!"'{key}' not written: {e} (schema on {s.pattern})"

/-- The value to write under `key` once the schemas of its patterns have filled
in their defaults: `none` when it is to be written as it is. A value that breaks
a schema is refused, unless it is exactly what the key holds already. -/
def conformed (key : String) (value : Value) (at_ now : Int64) : M (Option Value) := do
  let i ← get
  let schemas := i.schemas.filter fun s => globMatch s.pattern key
  if schemas.isEmpty then return none
  match schemas.foldlM (fun v s => s.apply key at_ v) value with
  | .ok doc => return if Codec.sameValue doc value then none else some doc
  | .error why =>
      match ← live key now with
      | none => throw (.schema why)
      | some e =>
          match (← get).readValue key e with
          | .ok current => if Codec.sameValue current value then return none else throw (.schema why)
          | .error _ => throw (.schema why)

def putLocked (key : String) (value : Value) (expiresAt : Int64) (msgpack : Bool) (timestamp now : Int64)
    (nonce : Draw) : M Bool := do
  let (rec, entry, raw) ← attempt (buildPut (← get) key value expiresAt msgpack timestamp 0 nonce)
  let created := (← live key now).isNone
  let offset ← append rec
  modify fun i =>
    let entry := { entry with offset, version := i.seq + 1 }
    ({ i with seq := i.seq + 1 }.idxInsert key entry (DocView.of value)).emit
      (.set key value.ty raw entry.docEnc timestamp expiresAt created)
  return created

/-- Stores `value` under `key`. Returns whether the key was created. -/
def put (key : String) (value : Value) (expiresAt : Int64) (msgpack : Bool) (clock : Clock) (nonce : Draw) : M Bool := do
  let value := (← conformed key value (clock.now 1) (clock.now 2)).getD value
  let doc := DocView.of value
  refuse ((← get).checkUnique [(key, doc)] (clock.now 3))
  refuse ((← get).checkVectorRoom ((← get).vectorGrowth key doc))
  putLocked key value expiresAt msgpack (clock.secs 0) (clock.now 4) nonce

/-- What `updateWith` does once it has found the entry `e` of `key`. -/
def updateAfter {α : Type} (key : String) (f : Value → Result (Option Value × α)) (clock : Clock) (nonce : Draw)
    (e : Entry) : M (Option (α × Bool)) := do
  let current ← attempt ((← get).readValue key e)
  let (new, out) ← attempt (f current)
  match new with
  | none => return some (out, false)
  | some new =>
      let new := (← conformed key new (clock.now 1) (clock.now 2)).getD new
      let doc := DocView.of new
      refuse ((← get).checkUnique [(key, doc)] (clock.now 3))
      refuse ((← get).checkVectorRoom ((← get).vectorGrowth key doc))
      let _ ← putLocked key new e.expiresAt e.isMsgpack (clock.secs 4) (clock.now 5) nonce
      return some (out, true)

/-- Reads `key`, lets `f` compute its new value and writes it. The key keeps its
TTL and its encoding. `none` when the key does not exist, otherwise the result
of `f` and whether something was written. -/
def updateWith {α : Type} (key : String) (f : Value → Result (Option Value × α)) (clock : Clock) (nonce : Draw) :
    M (Option (α × Bool)) := do
  match ← live key (clock.now 0) with
  | none => return none
  | some e => updateAfter key f clock nonce e

def delete (key : String) (clock : Clock) (nonce : Draw) : M Bool := do
  match ← live key (clock.now 0) with
  | none => return false
  | some _ =>
      let rec ← attempt (encodeRecord (← get).keys nonce key [] 0 flagTombstone (clock.secs 1) 0)
      let _ ← append rec
      modify fun i =>
        let i := { i with seq := i.seq + 1 }.idxRemove key
        let i := if 0 < i.activeTxns then { i with tombVersions := i.tombVersions.insert key i.seq } else i
        i.emit (.del key)
      return true

/-- Removes the keys of `dead`, whose deadlines have passed. -/
def Inner.drop (i : Inner) (dead : List String) : Inner := dead.foldl idxRemove i

/-- Expired keys removed per pass of the maintenance thread. -/
def purgeBatch : Nat := 10000

/-- Removes keys whose TTL has elapsed, earliest deadline first, at most
`purgeBatch` per call. -/
def purgeExpired (now : Int64) : M Nat := do
  let i ← get
  let dead := ((i.table.expiry.toList.takeWhile fun p => p.1 ≤ now).take purgeBatch).map Prod.snd
  set (i.drop dead)
  return dead.length

/-- Rounds of `purgeExpired`, until one of them finds less than a full batch. -/
def purgeRounds (now : Int64) : Nat → M Unit
  | 0 => return ()
  | rounds + 1 => do
      let n ← purgeExpired now
      if n = purgeBatch then purgeRounds now rounds else return ()

/-- Removes every key whose TTL has elapsed: each round but the last removes a
full batch, so there are no more rounds than deadlines. -/
def purgeAllExpired (now : Int64) : M Unit := do
  let i ← get
  purgeRounds now (i.table.expiry.size + 1)

/-- Every key is gone and the data file is a new one. -/
def Inner.wiped (i : Inner) (fileId : UInt64) : Inner :=
  { i with
    file := fileHeader fileId formatV1
    fileId := fileId
    format := formatV1
    table := Table.empty
    sec := i.sec.map SecIndex.clear
    vecs := i.vecs.map Vectors.clear
    seq := i.seq + 1
    resetSeq := i.seq + 1
    tombVersions := ∅ }.emit .reset

/-- Wipes every key. The data file is recreated from scratch. -/
def reset (fileId : Except String UInt64) : M Unit := do
  let i ← get
  if i.compacting then throw (.other "a compaction or a backup is running: try again when it ends")
  else if i.closed then throw (.other "database is closed")
  else
    match fileId with
    | .error why => throw (randomFailed why)
    | .ok fileId => set (i.wiped fileId)

end KivaDb
