import KivaDb.External
import KivaDb.Lib.Utf8

namespace KivaDb.Format

open Lib.LittleEndian Lib.Utf8

variable [External]

def magic : Bytes := [0x4B, 0x49, 0x56, 0x41]

def formatVersion : UInt32 := 3

def formatV1 : UInt32 := 1

def fileHeaderLen : Nat := 16

def recHeaderLen : Nat := 28

def flagCompMask : UInt8 := 0x03

def flagMsgpack : UInt8 := 0x04

def flagEncrypted : UInt8 := 0x08

def flagKdoc : UInt8 := 0x10

def flagTxn : UInt8 := 0x20

def flagTxnCommit : UInt8 := 0x40

def flagTombstone : UInt8 := 0x80

def compressMin : Nat := 64

def maxKeyLen : Nat := 1024

def maxValueLen : Nat := 256 * 1024 * 1024

/-- An expiry below 10^11 is in seconds, as KivaDB 1.5 wrote it. -/
def expiryToMs (expiresAt : Int64) : Int64 :=
  if 0 < expiresAt ∧ expiresAt < 100000000000 then expiresAt * 1000 else expiresAt

structure RecHeader where
  crc : UInt32
  kSize : UInt16
  vSize : UInt32
  ty : UInt8
  flags : UInt8
  timestamp : Int64
  expiresAt : Int64
  deriving DecidableEq

def RecHeader.totalLen (h : RecHeader) : Nat := recHeaderLen + h.kSize.toNat + h.vSize.toNat

def fileHeader (fileId : UInt64) (format : UInt32) : Bytes := magic ++ le32 format ++ le64 fileId

def parseFileHeader (h : Bytes) : Except String (UInt64 × UInt32) :=
  if h.length < fileHeaderLen ∨ slice h 0 4 ≠ magic then .error "missing KIVA signature"
  else
    let version := u32At h 4
    if version < formatV1 ∨ formatVersion < version then
      .error s!"unsupported storage format {version} (this build reads formats {formatV1} to {formatVersion}): it was written by a newer KivaDB"
    else .ok (u64At h 8, version)

def formatForRecord (ty flags : UInt8) : UInt32 :=
  if flags &&& flagKdoc ≠ 0 then 3 else if 8 ≤ ty then 2 else formatV1

/-- The header of a record past its checksum: what the checksum, and the
encryption of the rest, cover first. -/
def recHead (kLen vLen : Nat) (ty flags : UInt8) (timestamp expiresAt : Int64) : Bytes :=
  le16 (UInt16.ofNat kLen) ++ (le32 (UInt32.ofNat vLen) ++ ([ty, flags] ++
    (leI64 timestamp ++ leI64 expiresAt)))

def withCrc (tail : Bytes) : Bytes := le32 (External.crc32 tail) ++ tail

def encodeRecord (key : String) (value : Bytes) (ty flags : UInt8) (timestamp expiresAt : Int64) : Bytes :=
  let k := asBytes key
  withCrc (recHead k.length value.length ty flags timestamp expiresAt ++ (k ++ value))

def parseHeader (b : Bytes) : RecHeader where
  crc := u32At b 0
  kSize := u16At b 4
  vSize := u32At b 6
  ty := u8At b 10
  flags := u8At b 11
  timestamp := i64At b 12
  expiresAt := expiryToMs (i64At b 20)

def formatNeededFrom : Nat → Bytes → UInt32 → UInt32
  | 0, _, need => need
  | fuel + 1, buf, need =>
      if recHeaderLen ≤ buf.length then
        let h := parseHeader buf
        formatNeededFrom fuel (buf.drop h.totalLen) (max need (formatForRecord h.ty h.flags))
      else need

/-- The format the records of `buf` (whole records, one after the other) need. -/
def formatNeeded (buf : Bytes) : UInt32 := formatNeededFrom buf.length buf formatV1

/-- Checks the CRC of a complete record buffer. -/
def verifyRecord (rec : Bytes) : Bool :=
  if rec.length < recHeaderLen then false
  else
    let h := parseHeader rec
    h.totalLen == rec.length && External.crc32 (rec.drop 4) == h.crc

/-- Marks a record as the commit point of its batch: the flags byte is covered
by the CRC, which is stamped again. -/
def stampCommit (rec : Bytes) : Bytes := withCrc ((rec.set 11 (u8At rec 11 ||| flagTxnCommit)).drop 4)

omit [External] in
@[simp] theorem length_recHead (kLen vLen : Nat) (ty flags : UInt8) (ts ex : Int64) :
    (recHead kLen vLen ty flags ts ex).length = 24 := by
  simp [recHead]

@[simp] theorem length_withCrc (tail : Bytes) : (withCrc tail).length = 4 + tail.length := by
  simp [withCrc]

@[simp] theorem drop_withCrc (tail : Bytes) : (withCrc tail).drop 4 = tail := by
  simp [withCrc]

theorem withCrc_recHead (kLen vLen : Nat) (ty flags : UInt8) (ts ex : Int64) (body : Bytes) :
    withCrc (recHead kLen vLen ty flags ts ex ++ body) =
      le32 (External.crc32 (recHead kLen vLen ty flags ts ex ++ body)) ++
        (le16 (UInt16.ofNat kLen) ++ (le32 (UInt32.ofNat vLen) ++ ([ty, flags] ++
          (leI64 ts ++ (leI64 ex ++ body))))) := by
  simp only [withCrc, recHead, List.append_assoc]

omit [External] in
theorem parseHeader_fields {c k v t e : Bytes} (ty flags : UInt8) (body : Bytes) (hc : c.length = 4)
    (hk : k.length = 2) (hv : v.length = 4) (ht : t.length = 8) (he : e.length = 8) :
    parseHeader (c ++ (k ++ (v ++ ([ty, flags] ++ (t ++ (e ++ body)))))) =
      { crc := UInt32.ofNat (ofLE c)
        kSize := UInt16.ofNat (ofLE k)
        vSize := UInt32.ofNat (ofLE v)
        ty := ty
        flags := flags
        timestamp := (UInt64.ofNat (ofLE t)).toInt64
        expiresAt := expiryToMs (UInt64.ofNat (ofLE e)).toInt64 } := by
  have h0 : slice (c ++ (k ++ (v ++ ([ty, flags] ++ (t ++ (e ++ body)))))) 0 4 = c :=
    slice_eq_of_append (p := []) rfl rfl hc
  have h4 : slice (c ++ (k ++ (v ++ ([ty, flags] ++ (t ++ (e ++ body)))))) 4 2 = k :=
    slice_eq_of_append rfl hc hk
  have h6 : slice (c ++ (k ++ (v ++ ([ty, flags] ++ (t ++ (e ++ body)))))) 6 4 = v :=
    slice_eq_of_append (p := c ++ k) (List.append_assoc ..).symm (by simp [hc, hk]) hv
  have h12 : slice (c ++ (k ++ (v ++ ([ty, flags] ++ (t ++ (e ++ body)))))) 12 8 = t :=
    slice_eq_of_append (p := c ++ (k ++ (v ++ [ty, flags]))) (r := e ++ body)
      (by simp only [List.append_assoc]) (by simp [hc, hk, hv]) ht
  have h20 : slice (c ++ (k ++ (v ++ ([ty, flags] ++ (t ++ (e ++ body)))))) 20 8 = e :=
    slice_eq_of_append (p := c ++ (k ++ (v ++ ([ty, flags] ++ t)))) (r := body)
      (by simp only [List.append_assoc]) (by simp [hc, hk, hv, ht]) he
  have h10 (i : Nat) : u8At (c ++ (k ++ (v ++ ([ty, flags] ++ (t ++ (e ++ body)))))) (10 + i) =
      u8At ([ty, flags] ++ (t ++ (e ++ body))) i := by
    have hl : (c ++ (k ++ v)).length = 10 := by simp [hc, hk, hv]
    have hr := u8At_append_right (c ++ (k ++ v)) ([ty, flags] ++ (t ++ (e ++ body))) i
    simpa only [hl, List.append_assoc] using hr
  have hty : u8At (c ++ (k ++ (v ++ ([ty, flags] ++ (t ++ (e ++ body)))))) 10 = ty := h10 0
  have hfl : u8At (c ++ (k ++ (v ++ ([ty, flags] ++ (t ++ (e ++ body)))))) 11 = flags := h10 1
  simp only [parseHeader, u32At, u16At, i64At, u64At, h0, h4, h6, h12, h20, hty, hfl]

/-- Reading back the header of a record, whatever follows it. -/
theorem parseHeader_withCrc (kLen vLen : Nat) (ty flags : UInt8) (ts ex : Int64) (body : Bytes) :
    parseHeader (withCrc (recHead kLen vLen ty flags ts ex ++ body)) =
      { crc := External.crc32 (recHead kLen vLen ty flags ts ex ++ body)
        kSize := UInt16.ofNat kLen
        vSize := UInt32.ofNat vLen
        ty := ty
        flags := flags
        timestamp := ts
        expiresAt := expiryToMs ex } := by
  rw [withCrc_recHead, parseHeader_fields ty flags body (length_le32 _) (length_le16 _) (length_le32 _)
    (length_leI64 _) (length_leI64 _), u32_le32, u16_le16, u32_le32, i64_leI64, i64_leI64]

omit [External] in
theorem recHead_set_flags (kLen vLen : Nat) (ty flags x : UInt8) (ts ex : Int64) :
    (recHead kLen vLen ty flags ts ex).set 7 x = recHead kLen vLen ty x ts ex := by
  rw [recHead, recHead, List.set_append_right _ _ (by simp), List.set_append_right _ _ (by simp)]
  simp

theorem stampCommit_withCrc (kLen vLen : Nat) (ty flags : UInt8) (ts ex : Int64) (body : Bytes) :
    stampCommit (withCrc (recHead kLen vLen ty flags ts ex ++ body)) =
      withCrc (recHead kLen vLen ty (flags ||| flagTxnCommit) ts ex ++ body) := by
  have hf : u8At (withCrc (recHead kLen vLen ty flags ts ex ++ body)) 11 = flags :=
    congrArg RecHeader.flags (parseHeader_withCrc kLen vLen ty flags ts ex body)
  rw [stampCommit, hf, List.drop_set, drop_withCrc, if_neg (by omega), List.set_append_left _ _ (by simp),
    recHead_set_flags]

/-- A record whose header tells its true sizes passes its own check. -/
theorem verifyRecord_withCrc {kLen vLen : Nat} (ty flags : UInt8) (ts ex : Int64) {body : Bytes}
    (hk : kLen < 2 ^ 16) (hv : vLen < 2 ^ 32) (hb : body.length = kLen + vLen) :
    verifyRecord (withCrc (recHead kLen vLen ty flags ts ex ++ body)) = true := by
  have hkn : (UInt16.ofNat kLen).toNat = kLen := by
    rw [UInt16.toNat_ofNat', Nat.mod_eq_of_lt hk]
  have hvn : (UInt32.ofNat vLen).toNat = vLen := by
    rw [UInt32.toNat_ofNat', Nat.mod_eq_of_lt hv]
  have hl : ¬ (withCrc (recHead kLen vLen ty flags ts ex ++ body)).length < recHeaderLen := by
    simp [recHeaderLen]
    omega
  have ht : recHeaderLen + kLen + vLen = (withCrc (recHead kLen vLen ty flags ts ex ++ body)).length := by
    rw [length_withCrc, List.length_append, length_recHead, hb, recHeaderLen]
    omega
  rw [verifyRecord, if_neg hl]
  simp only [parseHeader_withCrc, RecHeader.totalLen, hkn, hvn, ht, drop_withCrc, beq_self_eq_true, Bool.and_true]

end KivaDb.Format
