import KivaDb.Changes.Body
import KivaDb.Glob

namespace KivaDb.Changes

open Lib.LittleEndian Lib.Utf8 Lib.Flags Crypt Glob

/-- One read returns at most this many changes. -/
def maxRead : Nat := 1000

/-- One read looks at most at this many changes. -/
def maxScan : Nat := 20000

/-- Every this many changes of a segment, its index says where one starts. -/
def indexEvery : Nat := 256

structure Settings where
  values : Bool
  retainSecs : Nat
  maxBytes : Nat
  deriving DecidableEq

def Settings.segmentBytes (s : Settings) : Nat := max (2 ^ 20) (min (2 ^ 26) (s.maxBytes / 8))

inductive ChangeKind
  | set
  | del
  | reset
  deriving DecidableEq

def ChangeKind.code : ChangeKind → UInt8
  | set => kindSet
  | del => kindDel
  | reset => kindReset

/-- A change about to be journaled. -/
structure NewChange where
  kind : ChangeKind
  key : String
  ty : UInt8
  raw : Bytes
  enc : DocEnc
  timestamp : Int64
  expiresAt : Int64
  /-- `none` when not known. -/
  created : Option Bool
  dataEnd : Nat
  deriving DecidableEq

/-- What the engine lets into a change: a key and a value of the sizes it accepts,
a place in a file whose length is a `u64`. -/
structure NewChange.Fits (c : NewChange) : Prop where
  key : (asBytes c.key).length ≤ Format.maxKeyLen
  raw : c.raw.length ≤ Format.maxValueLen
  dataEnd : c.dataEnd < 2 ^ 64

/-- A change read back. -/
structure Change where
  seq : Nat
  kind : ChangeKind
  key : String
  ty : UInt8
  value : Option Bytes
  enc : DocEnc
  timestamp : Int64
  expiresAt : Int64
  created : Option Bool
  txn : Option Nat
  txnEnd : Bool
  deriving DecidableEq

def Body.intoChange (b : Body) : Change where
  seq := b.seq
  kind := if b.kind = kindDel then .del else if b.kind = kindReset then .reset else .set
  key := b.key
  ty := b.ty
  value := if hasFlag b.flags fValue then some b.value else none
  enc := if hasFlag b.flags fKdoc then .kdoc else if hasFlag b.flags fMsgpack then .msgPack else .json
  timestamp := b.timestamp
  expiresAt := b.expiresAt
  created := if hasFlag b.flags fRebuilt then none else some (hasFlag b.flags fCreated)
  txn := if b.txn ≠ 0 then some b.txn else none
  txnEnd := hasFlag b.flags fTxnEnd

/-- A file of the journal, with what is known of it without reading it. `index`
has the number and the place of a change every `indexEvery`. -/
structure Segment where
  firstSeq : Nat
  len : Nat
  lastTs : Int64
  index : List (Nat × Nat)
  records : Nat
  file : Bytes
  deriving DecidableEq

variable [External]

/-- `active` is the segment being written. `stray` is what a rotation that
failed has left of the next one. -/
structure Journal where
  dir : String
  id : UInt64
  settings : Settings
  keys : Option Keys
  older : List Segment
  active : Segment
  stray : Option Bytes
  lastSeq : Nat
  dirty : Bool
  lastPos : Option (Nat × Nat)
  broken : Option String
  written : Nat

inductive ReadError
  | expired (oldest : Nat)
  | invalid (msg : String)
  | other (e : KivaError)
  deriving DecidableEq

/-- What one read gave. -/
structure Batch where
  changes : List Change
  /-- The position after the last change looked at. -/
  next : Nat
  more : Bool
  deriving DecidableEq

/-- What the system does when the journal is written: the generator, and the
steps that fail with what they leave on the disk. -/
structure Io where
  draws : Nat → Draw
  sync : Option String
  /-- The new segment fails, that many bytes of its header there. -/
  create : Option (String × Option Nat)
  reopen : Option String
  /-- The write fails after that many bytes; whether they are cut off again. -/
  write : Option (String × Nat × Bool)

/-- Nothing fails but, it may be, the generator. -/
def Io.well (draws : Nat → Draw) : Io := ⟨draws, none, none, none, none⟩

abbrev JM := EStateM KivaError Journal

def segName (first : Nat) : String :=
  let digits := toString first
  String.ofList (List.replicate (20 - digits.length) '0') ++ digits ++ ".log"

omit [External] in
def header (id : UInt64) (first : Nat) : Bytes := magic ++ (le32 version ++ (le64 id ++ toLE 8 first))

def newSegment (id : UInt64) (first : Nat) : Segment where
  firstSeq := first
  len := headerLen
  lastTs := 0
  index := []
  records := 0
  file := header id first

def parseSegmentHeader (data : Bytes) (first : Nat) : Option UInt64 :=
  if data.length < headerLen ∨ slice data 0 4 ≠ magic ∨ u32At data 4 ≠ version then none
  else if (u64At data 16).toNat = first then some (u64At data 8) else none

/-- What `append` writes down of a change. -/
def entry (values : Bool) (first fileId : Nat) (txn last : Bool) (seq : Nat) (c : NewChange) : Body :=
  let encFlag := match c.enc with
    | .json => 0
    | .msgPack => fMsgpack
    | .kdoc => fKdoc
  let createdFlag := match c.created with
    | some true => fCreated
    | some false => 0
    | none => fRebuilt
  let keepValue := values && c.kind = .set
  { seq
    fileId
    dataEnd := c.dataEnd
    txn := if txn then first else 0
    kind := c.kind.code
    flags := encFlag ||| createdFlag ||| (if txn && last then fTxnEnd else 0) ||| (if keepValue then fValue else 0)
    ty := c.ty
    timestamp := c.timestamp
    expiresAt := c.expiresAt
    key := c.key
    value := if keepValue then c.raw else [] }

def entriesFrom (values : Bool) (first fileId : Nat) (txn : Bool) : Nat → List NewChange → List Body
  | _, [] => []
  | seq, c :: cs => entry values first fileId txn cs.isEmpty seq c :: entriesFrom values first fileId txn (seq + 1) cs

/-- The records of bodies, one after the other. -/
def pushAll (keys : Option Keys) (id : UInt64) (draws : Nat → Draw) : Nat → List Body → Result (List (Body × Bytes))
  | _, [] => .ok []
  | n, b :: bs => do
      let rec ← pushRecord keys id (draws n) (body b)
      let rest ← pushAll keys id draws (n + 1) bs
      .ok ((b, rec) :: rest)

/-- Where the changes stand among the bytes written together. -/
def offsets : Nat → List (Body × Bytes) → List (Nat × Nat × Int64)
  | _, [] => []
  | off, (b, rec) :: rs => (b.seq, off, b.timestamp) :: offsets (off + rec.length) rs

/-- Counts a change that starts at `pos`. -/
def Segment.note (s : Segment) (seq pos : Nat) (ts : Int64) : Segment :=
  { s with
    index := if s.records % indexEvery = 0 then s.index ++ [(seq, pos)] else s.index
    records := s.records + 1
    lastTs := ts }

def Segment.noteAt (at_ : Nat) (s : Segment) (o : Nat × Nat × Int64) : Segment := s.note o.1 (at_ + o.2.1) o.2.2

/-- The bytes of `buf` over those of `file` from `pos` on. -/
def overwrite (file : Bytes) (pos : Nat) (buf : Bytes) : Bytes :=
  file.take pos ++ (buf ++ file.drop (pos + buf.length))

namespace Journal

def segments (j : Journal) : List Segment := j.older ++ [j.active]

/-- The oldest number a reader can still get. -/
def firstSeq (j : Journal) : Nat := (j.segments.head?.map Segment.firstSeq).getD 1

def bytes (j : Journal) : Nat := (j.segments.map Segment.len).sum

/-- The files of the journal's folder, by the numbers in their names. -/
def files (j : Journal) : List (Nat × Bytes) :=
  j.segments.map (fun s => (s.firstSeq, s.file)) ++ j.stray.toList.map fun b => (j.lastSeq + 1, b)

def sync (io : Io) : JM Unit := do
  let j ← get
  if j.dirty then
    match io.sync with
    | some e => throw (.io e)
    | none => set { j with dirty := false }
  else return ()

def rotate (io : Io) : JM Unit := do
  sync io
  let j ← get
  let first := j.lastSeq + 1
  match io.create, io.reopen with
  | some (e, left), _ =>
      set { j with stray := (left.map fun n => (header j.id first).take n).or j.stray }
      throw (.io e)
  | none, some e =>
      set { j with stray := some (header j.id first) }
      throw (.io e)
  | none, none =>
      set { j with older := j.older ++ [j.active], active := newSegment j.id first, stray := none }

/-- Writes `buf` at the end of the active segment. -/
def writeActive (buf : Bytes) (offs : List (Nat × Nat × Int64)) (io : Io) : JM Unit := do
  let j ← get
  let seg := j.active
  let at_ := seg.len
  match io.write with
  | some (e, n, cut) =>
      let file := overwrite seg.file at_ (buf.take n)
      set { j with
        active := { seg with file := if cut then file.take at_ else file }
        broken := some e }
      throw (.io e)
  | none =>
      let seg := { seg with file := overwrite seg.file at_ buf, len := at_ + buf.length }
      set { j with
        active := offs.foldl (Segment.noteAt at_) seg
        dirty := true }

def write (buf : Bytes) (offs : List (Nat × Nat × Int64)) (io : Io) : JM Unit := do
  let j ← get
  if j.settings.segmentBytes ≤ j.active.len ∧ 0 < j.active.records then do
    rotate io
    writeActive buf offs io
  else writeActive buf offs io

def pushed (bs : List Body) (io : Io) : JM (List (Body × Bytes)) := do
  let j ← get
  match pushAll j.keys j.id io.draws 0 bs with
  | .ok rs => return rs
  | .error e => throw e

/-- Appends the changes of one write, or of one transaction. -/
def append (fileId : Nat) (changes : List NewChange) (txn : Bool) (io : Io) : JM Unit := do
  let j ← get
  match changes.getLast? with
  | none => return ()
  | some last =>
      let first := j.lastSeq + 1
      let rs ← pushed (entriesFrom j.settings.values first fileId txn first changes) io
      write (rs.flatMap Prod.snd) (offsets 0 rs) io
      modify fun j =>
        { j with
          lastSeq := first + changes.length - 1
          lastPos := some (fileId, last.dataEnd)
          written := j.written + changes.length }

omit [External] in
def markBody (seq fileId dataEnd : Nat) : Body where
  seq := seq
  fileId := fileId
  dataEnd := dataEnd
  txn := 0
  kind := kindMark
  flags := 0
  ty := 0
  timestamp := 0
  expiresAt := 0
  key := ""
  value := []

/-- Records where the data file stands without a change. -/
def mark (fileId dataEnd : Nat) (io : Io) : JM Unit := do
  let j ← get
  let rs ← pushed [markBody j.lastSeq fileId dataEnd] io
  write (rs.flatMap Prod.snd) [] io
  modify fun j => { j with lastPos := some (fileId, dataEnd) }

omit [External] in
def trimFrom (s : Settings) (nowSecs : Int64) (active : Segment) : List Segment → Nat → List Segment × Nat
  | [], removed => ([], removed)
  | old :: older, removed =>
      let tooOld := 0 < old.lastTs ∧ old.lastTs < nowSecs - Int64.ofNat s.retainSecs
      let tooBig := s.maxBytes < ((old :: older).map Segment.len).sum + active.len
      if tooOld ∨ tooBig then trimFrom s nowSecs active older (removed + old.records) else (old :: older, removed)

/-- Removes the oldest segments past the retention, never the one being
written. -/
def trim (nowSecs : Int64) : JM Nat := do
  let j ← get
  let r := trimFrom j.settings nowSecs j.active j.older 0
  set { j with older := r.1 }
  return r.2

omit [External] in
def hexDigits (n : Nat) : List Char := (List.range 16).reverse.map fun i => hexDigit (n / 16 ^ i % 16)

omit [External] in
def cursorOf (id : UInt64) (seq : Nat) : String := String.ofList (hexDigits id.toNat ++ hexDigits seq)

def cursor (j : Journal) (seq : Nat) : String := cursorOf j.id seq

omit [External] in
def hexValue (c : Char) : Option Nat :=
  if '0' ≤ c ∧ c ≤ '9' then some (c.toNat - 48)
  else if 'a' ≤ c ∧ c ≤ 'f' then some (c.toNat - 87)
  else if 'A' ≤ c ∧ c ≤ 'F' then some (c.toNat - 55)
  else none

omit [External] in
def fromHex (cs : List Char) : Nat := cs.foldl (fun n c => 16 * n + (hexValue c).getD 0) 0

omit [External] in
/-- The characters `str::trim` takes off at both ends. -/
def isWhitespace (c : Char) : Bool :=
  let n := c.toNat
  (9 ≤ n && n ≤ 13) || n = 0x20 || n = 0x85 || n = 0xA0 || n = 0x1680 || (0x2000 ≤ n && n ≤ 0x200A) || n = 0x2028 ||
    n = 0x2029 || n = 0x202F || n = 0x205F || n = 0x3000

omit [External] in
def trimmed (s : String) : List Char := ((s.toList.dropWhile isWhitespace).reverse.dropWhile isWhitespace).reverse

/-- The number a cursor stands for. -/
def parseCursor (j : Journal) (cursor : String) : Except ReadError Nat :=
  let c := trimmed cursor
  if c.length ≠ 32 ∨ !c.all fun ch => (hexValue ch).isSome then
    .error (.invalid s!"'{cursor}' is not a cursor of this change journal")
  else
    let id := fromHex (c.take 16)
    let seq := fromHex (c.drop 16)
    if id ≠ j.id.toNat then
      .error (.invalid "this cursor comes from another change journal (another node, or a journal started again after a restore or a reset of its files): read again from the beginning, and resynchronise")
    else if j.lastSeq < seq then
      .error (.invalid s!"this cursor is ahead of the journal (number {seq}, the last is {j.lastSeq})")
    else .ok seq

end Journal

/-- What a read has gathered. -/
structure Gathered where
  changes : List Change
  next : Nat
  scanned : Nat
  full : Bool

def wanted (pattern : Option String) (b : Body) : Bool :=
  match pattern with
  | none => true
  | some p => globMatch p b.key || b.kind = kindReset

/-- Looks at a record after `after`, up to the caps. -/
def Gathered.look (after limit : Nat) (pattern : Option String) (g : Gathered) (b : Body) : Gathered :=
  if g.full || b.isMark || b.seq ≤ after then g
  else
    let changes := if wanted pattern b then g.changes ++ [b.intoChange] else g.changes
    { changes
      next := b.seq
      scanned := g.scanned + 1
      full := limit ≤ changes.length || maxScan ≤ g.scanned + 1 }

/-- Where reading a segment for the changes after `after` starts. -/
def Segment.from (s : Segment) (after : Nat) : Nat :=
  ((s.index.reverse.find? fun p => p.1 ≤ after + 1).map Prod.snd).getD headerLen

namespace Journal

/-- Reads on in the segment `s`. -/
def readSegment (j : Journal) (after limit : Nat) (pattern : Option String) (g : Gathered) (s : Segment) :
    Except ReadError Gathered :=
  let start := s.from after
  if g.full || s.len ≤ start then .ok g
  else if s.file.length < s.len then .error (.other (.io "failed to fill whole buffer"))
  else
    let data := slice s.file start (s.len - start)
    let rs := Changes.records j.keys j.id data data.length 0
    let g' := rs.1.foldl (fun g r => g.look after limit pattern r.2.1) g
    match rs.2 with
    | some e => if g'.full then .ok g' else .error (.other e)
    | none => .ok g'

omit [External] in
/-- The segments from the last one on that starts at or before `after + 1`. -/
def startingAt (after : Nat) (segs : List Segment) : List Segment :=
  match segs.reverse.dropWhile fun s => ¬ s.firstSeq ≤ after + 1 with
  | [] => segs
  | before => segs.drop (before.length - 1)

/-- The changes after `after`, up to `limit`, whose key matches `pattern`. -/
def read (j : Journal) (after limit : Nat) (pattern : Option String) : Except ReadError Batch :=
  match j.broken with
  | some why =>
      .error (.other (.other s!"the change journal could not be written ({why}): restart KivaDB, which rebuilds it from the data"))
  | none =>
      if after + 1 < j.firstSeq then .error (.expired j.firstSeq)
      else do
        let limit := max 1 (min maxRead limit)
        let g ← (startingAt after j.segments).foldlM (j.readSegment after limit pattern) ⟨[], after, 0, false⟩
        .ok ⟨g.changes, g.next, g.next < j.lastSeq⟩

omit [External] in
/-- The data of the record did not reach the data file `fileId`, `len` bytes
long. -/
def beyond (fileId len : Nat) (b : Body) : Bool := b.fileId = fileId && len < b.dataEnd

omit [External] in
/-- The number of the last change among records, `seq` before them. -/
def lastChange (seq : Nat) (rs : List (Nat × Body × Nat)) : Nat :=
  rs.foldl (fun n r => if r.2.1.isMark then n else r.2.1.seq) seq

/-- The records of the active segment up to the first whose data is missing. -/
def kept (j : Journal) (fileId len : Nat) : List (Nat × Body × Nat) :=
  (Changes.records j.keys j.id j.active.file j.active.file.length headerLen).1.takeWhile fun r =>
    !beyond fileId len r.2.1

/-- The active segment cut after `kept`. -/
def cutAfter (j : Journal) (kept : List (Nat × Body × Nat)) : Journal :=
  let seg := j.active
  let keep := (kept.getLast?.map fun r => r.2.2).getD headerLen
  let keptSeq := lastChange (seg.firstSeq - 1) kept
  { j with
    active := { seg with
      file := seg.file.take keep
      len := keep
      index := seg.index.filter fun p => p.1 ≤ keptSeq
      records := keptSeq + 1 - seg.firstSeq }
    lastSeq := keptSeq
    lastPos := (kept.getLast?.map fun r => (r.2.1.fileId, r.2.1.dataEnd)).or j.lastPos }

def dropLoop (fileId len : Nat) : Nat → Nat → JM Nat
  | 0, dropped => return dropped
  | fuel + 1, dropped => do
      let j ← get
      let rs := Changes.records j.keys j.id j.active.file j.active.file.length headerLen
      let kept := j.kept fileId len
      if kept.length < rs.1.length then
        let j' := j.cutAfter kept
        let dropped := dropped + (j.lastSeq - j'.lastSeq)
        match j.older.getLast? with
        | some prev =>
            if j'.active.len = headerLen then do
              set { j' with older := j.older.dropLast, active := prev }
              dropLoop fileId len fuel dropped
            else do
              set j'
              return dropped
        | none => do
            set j'
            return dropped
      else
        match rs.2 with
        | some e => throw e
        | none => return dropped

/-- Drops the changes whose data is not in the data file. -/
def dropAfter (fileId len : Nat) : JM Nat := do
  let j ← get
  dropLoop fileId len (j.older.length + 1) 0

/-- Where the data file stood after the last record of a segment that names
it. -/
def positionIn (j : Journal) (fileId : Nat) (s : Segment) : Result (Option Nat) :=
  let rs := Changes.records j.keys j.id s.file s.file.length headerLen
  match rs.2 with
  | some e => .error e
  | none => .ok ((rs.1.filter fun r => r.2.1.fileId = fileId).getLast?.map fun r => r.2.1.dataEnd)

def positionBack (j : Journal) (fileId : Nat) : List Segment → Result (Option Nat)
  | [] => .ok none
  | s :: ss => do
      match ← j.positionIn fileId s with
      | some found => .ok (some found)
      | none => j.positionBack fileId ss

/-- Where the data file `fileId` stood after the last record that names it. -/
def positionFor (j : Journal) (fileId : Nat) : Result (Option Nat) := j.positionBack fileId j.segments.reverse

end Journal

/-- What opening has gathered of the segments so far. -/
structure Opening where
  id : Option UInt64
  segments : List Segment
  lastSeq : Nat
  lastPos : Option (Nat × Nat)

/-- A record found when a segment is opened. -/
def Segment.found (s : Segment) (r : Nat × Body × Nat) : Segment :=
  let s := if r.2.1.isMark then s else s.note r.2.1.seq r.1 r.2.1.timestamp
  { s with len := r.2.2 }

def Opening.file (dir : String) (keys : Option Keys) (o : Opening) (first : Nat) (data : Bytes) (newest : Bool) :
    Result Opening :=
  let path := dir ++ "/" ++ segName first
  match parseSegmentHeader data first with
  | none => if newest then .ok o else .error (.corrupted s!"{path} is not a change journal segment")
  | some id =>
      if o.id.getD id ≠ id then .error (.corrupted s!"{path} belongs to another change journal")
      else
        let rs := (records keys id data data.length headerLen).1
        let seg := rs.foldl Segment.found ⟨first, headerLen, 0, [], 0, data⟩
        let o' : Opening :=
          { id := some id
            segments := o.segments ++ [{ seg with file := data.take seg.len }]
            lastSeq := Journal.lastChange o.lastSeq rs
            lastPos := (rs.getLast?.map fun r => (r.2.1.fileId, r.2.1.dataEnd)).or o.lastPos }
        if seg.len < data.length ∧ !newest then
          .error (.corrupted s!"{path} is damaged at byte {seg.len}: remove the folder {dir} to start a new change journal")
        else .ok o'

def Opening.files (dir : String) (keys : Option Keys) : Opening → List (Nat × Bytes) → Result Opening
  | o, [] => .ok o
  | o, (first, data) :: rest => do
      let o ← o.file dir keys first data rest.isEmpty
      Opening.files dir keys o rest

/-- Opens the journal whose folder holds `files`, or starts one. -/
def Journal.open (dir : String) (files : List (Nat × Bytes)) (keys : Option Keys) (settings : Settings)
    (random : Except String UInt64) : Result Journal := do
  let names := files.mergeSort fun a b => a.1 ≤ b.1
  let o ← Opening.files dir keys ⟨none, [], 0, none⟩ names
  let id ← match o.id, random with
    | some id, _ => Except.ok id
    | none, .ok id => Except.ok id
    | none, .error why => Except.error (randomFailed why)
  let last := o.segments.getLast?.getD (newSegment id (o.lastSeq + 1))
  .ok
    { dir
      id
      settings
      keys
      older := o.segments.dropLast
      active := last
      stray := none
      lastSeq := o.lastSeq
      dirty := false
      lastPos := o.lastPos
      broken := none
      written := 0 }

end KivaDb.Changes
