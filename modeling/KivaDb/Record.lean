import KivaDb.Compress
import KivaDb.Crypt

namespace KivaDb

open Lib.LittleEndian Lib.Utf8 Lib.Flags Format

/-- On-disk type tag of a stored value. -/
inductive Ty
  | string
  | number
  | boolean
  | null
  | array
  | object
  | bytes
  | date
  | dateTime
  | time
  deriving DecidableEq, Repr

namespace Ty

def code : Ty → UInt8
  | string => 1
  | number => 2
  | boolean => 3
  | null => 4
  | array => 5
  | object => 6
  | bytes => 7
  | date => 8
  | dateTime => 9
  | time => 10

def fromU8 (b : UInt8) : Option Ty :=
  [string, number, boolean, null, array, object, bytes, date, dateTime, time].find? (·.code = b)

def name : Ty → String
  | string => "string"
  | number => "number"
  | boolean => "boolean"
  | null => "null"
  | array => "array"
  | object => "object"
  | bytes => "bytes"
  | date => "date"
  | dateTime => "datetime"
  | time => "time"

def isDoc : Ty → Bool
  | array | object => true
  | _ => false

theorem fromU8_code (t : Ty) : fromU8 t.code = some t := by
  cases t <;> decide

end Ty

/-- How a document's bytes are written, as the record flags say. -/
inductive DocEnc
  | json
  | msgPack
  | kdoc
  deriving DecidableEq, Repr

namespace DocEnc

def fromFlags (flags : UInt8) : DocEnc :=
  if hasFlag flags flagKdoc then kdoc else if hasFlag flags flagMsgpack then msgPack else json

def flags : DocEnc → UInt8
  | json => 0
  | msgPack => flagMsgpack
  | kdoc => flagKdoc

end DocEnc

/-- Where the value of a key is in the data file, and what is known of it
without reading it. -/
structure Entry where
  offset : Nat
  kSize : UInt16
  vSize : UInt32
  rawSize : UInt32
  ty : Ty
  flags : UInt8
  timestamp : Int64
  expiresAt : Int64
  version : Nat
  deriving DecidableEq, Repr

namespace Entry

def recLen (e : Entry) : Nat := recHeaderLen + e.kSize.toNat + e.vSize.toNat

def isExpired (e : Entry) (now : Int64) : Bool := 0 < e.expiresAt && e.expiresAt ≤ now

def isMsgpack (e : Entry) : Bool := hasFlag e.flags flagMsgpack

def docEnc (e : Entry) : DocEnc := DocEnc.fromFlags e.flags

def compression (e : Entry) : Compression := Compression.fromFlag (e.flags &&& flagCompMask)

/-- The entry as a reader of the file sees it: it takes the deadline through
`expiryToMs`. -/
def reread (e : Entry) : Entry := { e with expiresAt := expiryToMs e.expiresAt }

end Entry

def validateKey (key : String) : Result Unit :=
  if key = "" then .error (.invalid "key cannot be empty")
  else if maxKeyLen < (asBytes key).length then .error (.invalid s!"key is longer than {maxKeyLen} bytes")
  else .ok ()

abbrev ValidKey := { key : String // validateKey key = .ok () }

theorem validateKey_ok {key : String} :
    validateKey key = .ok () ↔ key ≠ "" ∧ (asBytes key).length ≤ maxKeyLen := by
  unfold validateKey
  split
  · simp_all
  · split
    · simp_all
    · simp_all

namespace ValidKey

theorem length_pos (key : ValidKey) : 0 < (asBytes key.1).length := by
  have h := (validateKey_ok.mp key.2).1
  exact List.length_pos_iff.mpr fun hn => h (asBytes_eq_nil.mp hn)

theorem length_le (key : ValidKey) : (asBytes key.1).length ≤ maxKeyLen :=
  (validateKey_ok.mp key.2).2

theorem length_lt (key : ValidKey) : (asBytes key.1).length < 2 ^ 16 :=
  lt_of_le_of_lt key.length_le (by decide)

end ValidKey

/-- The bytes of a value, of a size the engine accepts. -/
abbrev RawValue := { raw : Bytes // raw.length ≤ maxValueLen }

/-- A write as it reaches the log. -/
inductive Write
  | put (key : ValidKey) (raw : RawValue) (ty : Ty) (enc : DocEnc) (algo : Compression) (timestamp expiresAt : Int64)
  | delete (key : ValidKey) (timestamp : Int64)

namespace Write

open Crypt

/-- The bits `pack` and the encoding of a document may set are not those of
`m`. -/
structure Foreign (m : UInt8) : Prop where
  lz4 : hasFlag 1 m = false
  zlib : hasFlag 2 m = false
  msgpack : hasFlag flagMsgpack m = false
  kdoc : hasFlag flagKdoc m = false

theorem foreign_encrypted : Foreign flagEncrypted := by constructor <;> decide

theorem foreign_txn : Foreign flagTxn := by constructor <;> decide

theorem foreign_txnCommit : Foreign flagTxnCommit := by constructor <;> decide

theorem foreign_tombstone : Foreign flagTombstone := by constructor <;> decide

theorem hasFlag_enc {m : UInt8} (hm : Foreign m) (enc : DocEnc) : hasFlag enc.flags m = false := by
  cases enc with
  | json => exact hasFlag_zero m
  | msgPack => exact hm.msgpack
  | kdoc => exact hm.kdoc

variable [External]

def key : Write → ValidKey
  | put k _ _ _ _ _ _ => k
  | delete k _ => k

def timestamp : Write → Int64
  | put _ _ _ _ _ ts _ => ts
  | delete _ ts => ts

def expiresAt : Write → Int64
  | put _ _ _ _ _ _ ex => ex
  | delete _ _ => 0

/-- The value as the record holds it, before encryption. -/
def stored : Write → Bytes
  | put _ raw _ _ algo _ _ => (Compress.pack raw.1 algo).1
  | delete _ _ => []

def tyCode : Write → UInt8
  | put _ _ ty _ _ _ _ => ty.code
  | delete _ _ => 0

def flags (extra : UInt8) : Write → UInt8
  | put _ raw _ enc algo _ _ => (Compress.pack raw.1 algo).2 ||| extra ||| enc.flags
  | delete _ _ => flagTombstone ||| extra

def encode (w : Write) (keys : Option Keys) (nonce : Draw) (extra : UInt8) : Result Bytes :=
  encodeRecord keys nonce w.key.1 w.stored w.tyCode (w.flags extra) w.timestamp w.expiresAt

/-- The index entry of a record written at `pos`; a deletion has none. -/
def entry (keys : Option Keys) (extra : UInt8) (pos : Nat) : Write → Option Entry
  | put key raw ty enc algo ts ex => some
      { offset := pos
        kSize := UInt16.ofNat (asBytes key.1).length
        vSize := UInt32.ofNat ((Compress.pack raw.1 algo).1.length + overhead keys)
        rawSize := UInt32.ofNat raw.1.length
        ty := ty
        flags := sealFlags keys ((Compress.pack raw.1 algo).2 ||| extra ||| enc.flags)
        timestamp := ts
        expiresAt := ex
        version := 0 }
  | delete _ _ => none

/-- The length of the record of `w`. -/
def recLen (w : Write) (keys : Option Keys) : Nat :=
  recHeaderLen + (asBytes w.key.1).length + (w.stored.length + overhead keys)

theorem length_stored_le (w : Write) : w.stored.length ≤ maxValueLen := by
  cases w with
  | put key raw ty enc algo ts ex => exact le_trans (Compress.length_pack_le _ _) raw.2
  | delete key ts => exact Nat.zero_le _

theorem overhead_le (keys : Option Keys) : overhead keys ≤ 32 := by
  unfold overhead
  split
  · decide
  · exact Nat.zero_le _

theorem stored_overhead_lt (w : Write) (keys : Option Keys) : w.stored.length + overhead keys < 2 ^ 32 := by
  have hs := w.length_stored_le
  have ho := overhead_le keys
  have hm : maxValueLen + 32 < 2 ^ 32 := by decide
  omega

theorem hasFlag_pack {m : UInt8} (h1 : hasFlag 1 m = false) (h2 : hasFlag 2 m = false) (raw : Bytes)
    (algo : Compression) : hasFlag (Compress.pack raw algo).2 m = false := by
  rcases Compress.pack_flag_le raw algo with h | h
  · rw [h, hasFlag_zero]
  · rw [h]
    cases algo with
    | none => exact hasFlag_zero m
    | lz4 => exact h1
    | zlib => exact h2

theorem hasFlag_put {m : UInt8} (hm : Foreign m) (extra : UInt8) (raw : Bytes) (algo : Compression) (enc : DocEnc) :
    hasFlag ((Compress.pack raw algo).2 ||| extra ||| enc.flags) m = hasFlag extra m := by
  simp [hasFlag_pack hm.lz4 hm.zlib, hasFlag_enc hm]

theorem hasFlag_flags {m : UInt8} (hm : Foreign m) (ht : hasFlag flagTombstone m = false) (extra : UInt8) (w : Write) :
    hasFlag (w.flags extra) m = hasFlag extra m := by
  cases w with
  | put key raw ty enc algo ts ex => exact hasFlag_put hm extra raw.1 algo enc
  | delete key ts => simp [flags, ht]

theorem hasFlag_sealFlags {m : UInt8} (hm : hasFlag flagEncrypted m = false) (keys : Option Keys) (f : UInt8) :
    hasFlag (sealFlags keys f) m = hasFlag f m := by
  cases keys with
  | none => rfl
  | some k => simp [sealFlags, hm]

theorem hasFlag_sealFlags_encrypted (k : Keys) (f : UInt8) : hasFlag (sealFlags (some k) f) flagEncrypted = true := by
  have he : hasFlag flagEncrypted flagEncrypted = true := by decide
  simp [sealFlags, he]

/-- A record needs no longer be looked into once its header is read: the
framing of what `encode` makes. -/
theorem encode_ok {w : Write} {keys : Option Keys} {nonce : Draw} {extra : UInt8} {rec : Bytes}
    (h : w.encode keys nonce extra = .ok rec) :
    ∃ body, body.length = (asBytes w.key.1).length + (w.stored.length + overhead keys) ∧
      rec = withCrc (recHead (asBytes w.key.1).length (w.stored.length + overhead keys) w.tyCode
        (sealFlags keys (w.flags extra)) w.timestamp w.expiresAt ++ body) :=
  encodeRecord_ok h

theorem length_encode {w : Write} {keys : Option Keys} {nonce : Draw} {extra : UInt8} {rec : Bytes}
    (h : w.encode keys nonce extra = .ok rec) : rec.length = w.recLen keys := by
  obtain ⟨body, hb, rfl⟩ := encode_ok h
  simp only [length_withCrc, List.length_append, length_recHead, hb, recLen, recHeaderLen]
  omega

theorem openRecord_encode {w : Write} {ks keys : Option Keys} {nonce : Draw} {extra : UInt8} {rec : Bytes}
    (he : hasFlag extra flagEncrypted = false) (hc : CanOpen ks keys) (h : w.encode keys nonce extra = .ok rec) :
    openRecord ks rec = .ok (asBytes w.key.1, w.stored) :=
  openRecord_encodeRecord w.key.length_lt ((hasFlag_flags foreign_encrypted (by decide) extra w).trans he) hc h

end Write

end KivaDb
