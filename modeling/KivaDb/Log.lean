import KivaDb.Record
import Std.Data.ExtTreeMap

namespace KivaDb

open Lib.LittleEndian Lib.Utf8 Lib.Flags Format

/-- The keys in order, each with the entry of its last write. -/
abbrev Index := Std.ExtTreeMap String Entry compare

namespace Log

open Crypt

variable [External]

/-- What a record of the log does: the key it is about, and its new entry
unless it deletes the key. `pos` is the byte where the record stands. -/
structure Change where
  pos : Nat
  key : String
  entry : Option Entry
  deriving DecidableEq

/-- The size before compression: a compressed value starts with it. -/
def rawSize (flags : UInt8) (stored : Bytes) : UInt32 :=
  if hasFlag flags flagCompMask ∧ 4 ≤ stored.length then u32At stored 0 else UInt32.ofNat stored.length

/-- The next record as its header frames it and what comes after; `none` at a
torn header or a torn or unframed record. -/
def nextFrame (rest : Bytes) : Option (Bytes × Bytes) :=
  if rest.length < recHeaderLen then none
  else
    let h := parseHeader rest
    if h.kSize = 0 ∨ rest.length < h.totalLen then none
    else some (rest.take h.totalLen, rest.drop h.totalLen)

/-- The key and the stored value of a whole record, decrypted if need be;
`none` for one that fails its checksum or its authentication. -/
def opened (keys : Option Keys) (requireEncryption : Bool) (pos : Nat) (rec : Bytes) :
    Result (Option (Bytes × Bytes)) :=
  let h := parseHeader rec
  if External.crc32 (rec.drop 4) ≠ h.crc then .ok none
  else if hasFlag h.flags flagEncrypted then
    match openRecord keys rec with
    | .ok kv => .ok (some kv)
    | .error .tampered => .ok none
    | .error e => .error (e.intoError "this workspace")
  else if requireEncryption then
    .error (.denied s!"encryption.required is on, but the data file holds an unencrypted record at byte {pos}: turn it off, run 'compact' to encrypt the whole file, then turn it on again")
  else
    let k := h.kSize.toNat
    .ok (some (slice rec recHeaderLen k, rec.drop (recHeaderLen + k)))

/-- What the record at `pos` does, `none` when it is not valid. -/
def readRecord (keys : Option Keys) (requireEncryption : Bool) (pos : Nat) (rec : Bytes) : Result (Option Change) := do
  let h := parseHeader rec
  match ← opened keys requireEncryption pos rec with
  | none => .ok none
  | some (k, stored) =>
      match fromUtf8 k with
      | none => .ok none
      | some key =>
          if hasFlag h.flags flagTombstone then .ok (some ⟨pos, key, none⟩)
          else
            match Ty.fromU8 h.ty with
            | none => .ok none
            | some ty =>
                .ok (some ⟨pos, key, some
                  { offset := pos
                    kSize := h.kSize
                    vSize := h.vSize
                    rawSize := rawSize h.flags stored
                    ty := ty
                    flags := h.flags
                    timestamp := h.timestamp
                    expiresAt := h.expiresAt
                    version := 0 }⟩)

/-- The state of the replay. Records of an atomic batch wait in `pending` until
its commit record shows up; `acc` is what the applied records made. -/
structure Scan (σ : Type) where
  pos : Nat
  corrupted : Nat
  pending : List Change
  pendingStart : Nat
  acc : σ

namespace Scan

variable {σ : Type} (apply : σ → Change → σ)

def start (pos : Nat) (acc : σ) : Scan σ := { pos, corrupted := 0, pending := [], pendingStart := 0, acc }

/-- Passes over a record of `n` bytes that is not valid. -/
def skip (s : Scan σ) (n : Nat) : Scan σ :=
  { s with corrupted := s.corrupted + 1, pending := [], pos := s.pos + n }

/-- Takes a valid record of `n` bytes with its flags. -/
def take (s : Scan σ) (flags : UInt8) (c : Change) (n : Nat) : Scan σ :=
  if hasFlag flags flagTxn then
    let pendingStart := if s.pending = [] then s.pos else s.pendingStart
    let pending := s.pending ++ [c]
    if hasFlag flags flagTxnCommit then
      { s with pos := s.pos + n, pending := [], pendingStart, acc := pending.foldl apply s.acc }
    else { s with pos := s.pos + n, pending, pendingStart }
  else { s with pos := s.pos + n, pending := [], acc := apply s.acc c }

/-- A batch without its commit record never happened. -/
def stop (s : Scan σ) : Nat := if s.pending = [] then s.pos else s.pendingStart

end Scan

section

variable {σ : Type} (apply : σ → Change → σ) (keys : Option Keys) (requireEncryption : Bool)

def scanFrom : Nat → Scan σ → Bytes → Result (Scan σ)
  | 0, s, _ => .ok s
  | fuel + 1, s, rest =>
      match nextFrame rest with
      | none => .ok s
      | some (rec, rest) => do
          match ← readRecord keys requireEncryption s.pos rec with
          | none =>
              -- the last record: a torn write
              if rest = [] then .ok s else scanFrom fuel (s.skip rec.length) rest
          | some c => scanFrom fuel (s.take apply (parseHeader rec).flags c rec.length) rest

/-- Replays the log of `file` from `start`, applying its records to `acc`. -/
def replay (file : Bytes) (start : Nat) (acc : σ) : Result (Scan σ) :=
  scanFrom apply keys requireEncryption file.length (Scan.start start acc) (file.drop start)

end

/-- Applies a record to the index and the sequence number. -/
def applyChange (s : Index × Nat) (c : Change) : Index × Nat :=
  match c.entry with
  | some e => (s.1.insert c.key { e with version := s.2 + 1 }, s.2 + 1)
  | none => (s.1.erase c.key, s.2 + 1)

structure ScanOutcome where
  index : Index
  seq : Nat
  /-- Length of the valid prefix of the log. -/
  stop : Nat
  corrupted : Nat

def scanLog (file : Bytes) (start : Nat) (index : Index) (seq : Nat) (keys : Option Keys)
    (requireEncryption : Bool) : Result ScanOutcome := do
  let s ← replay applyChange keys requireEncryption file start (index, seq)
  .ok { index := s.acc.1, seq := s.acc.2, stop := s.stop, corrupted := s.corrupted }

end Log

end KivaDb
