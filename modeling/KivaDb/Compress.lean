import KivaDb.Format

namespace KivaDb

open Lib.LittleEndian Format

/-- Per-record value compression. -/
inductive Compression
  | none
  | lz4
  | zlib
  deriving DecidableEq, Repr

namespace Compression

def flag : Compression → UInt8
  | none => 0
  | lz4 => 1
  | zlib => 2

def fromFlag (f : UInt8) : Compression :=
  if f &&& 3 = 1 then lz4 else if f &&& 3 = 2 then zlib else none

def name : Compression → String
  | none => "none"
  | lz4 => "lz4"
  | zlib => "zlib"

theorem fromFlag_flag (c : Compression) : fromFlag c.flag = c := by
  cases c <;> decide

variable [External]

/-- The library behind an algorithm; nothing stands behind `none`. -/
def library : Compression → Option External.Compressor
  | none => .none
  | lz4 => some External.lz4
  | zlib => some External.zlib

end Compression

namespace Compress

variable [External]

/-- Compresses `raw` as `[raw_len u32][payload]`. Returns the stored bytes and
the flag actually used: values that are small or do not shrink stay plain. -/
def pack (raw : Bytes) (algo : Compression) : Bytes × UInt8 :=
  match algo.library with
  | none => (raw, 0)
  | some lib =>
      if raw.length < compressMin then (raw, 0)
      else
        match lib.compress raw with
        | none => (raw, 0)
        | some body =>
            if raw.length ≤ body.length + 4 then (raw, 0)
            else (le32 (UInt32.ofNat raw.length) ++ body, algo.flag)

def unpack (stored : Bytes) (algo : Compression) : Result Bytes :=
  match algo.library with
  | none => .ok stored
  | some lib =>
      if stored.length < 4 then .error (.corrupted "compressed value is truncated")
      else
        let rawLen := (u32At stored 0).toNat
        if maxValueLen < rawLen then .error (.corrupted "compressed value declares an absurd size")
        else
          match lib.decompress (stored.drop 4) rawLen with
          | .error e => .error (.corrupted s!"{algo.name}: {e}")
          | .ok raw =>
              if raw.length ≠ rawLen then .error (.corrupted "decompressed size mismatch") else .ok raw

/-- The ways `pack` can end: the bytes as they were, or a shorter payload
behind its length. -/
theorem pack_cases (raw : Bytes) (algo : Compression) :
    pack raw algo = (raw, 0) ∨
      ∃ lib body, algo.library = some lib ∧ lib.compress raw = some body ∧ body.length + 4 < raw.length ∧
        pack raw algo = (le32 (UInt32.ofNat raw.length) ++ body, algo.flag) := by
  unfold pack
  split
  · exact .inl rfl
  · rename_i lib hlib
    split
    · exact .inl rfl
    · split
      · exact .inl rfl
      · rename_i body hbody
        split
        · exact .inl rfl
        · exact .inr ⟨lib, body, hlib, hbody, by omega, rfl⟩

theorem length_pack_le (raw : Bytes) (algo : Compression) : (pack raw algo).1.length ≤ raw.length := by
  obtain h | ⟨lib, body, -, -, hb, h⟩ := pack_cases raw algo
  · simp [h]
  · simp only [h, List.length_append, length_le32]
    omega

theorem pack_flag_le (raw : Bytes) (algo : Compression) : (pack raw algo).2 = 0 ∨ (pack raw algo).2 = algo.flag := by
  obtain h | ⟨lib, body, -, -, -, h⟩ := pack_cases raw algo
  · simp [h]
  · simp [h]

/-- What was packed unpacks, under the algorithm its flag names. -/
theorem unpack_pack {raw : Bytes} (hr : raw.length ≤ maxValueLen) (algo : Compression) :
    unpack (pack raw algo).1 (Compression.fromFlag (pack raw algo).2) = .ok raw := by
  obtain h | ⟨lib, body, hlib, hbody, hb, h⟩ := pack_cases raw algo
  · have hf : Compression.fromFlag 0 = .none := by decide
    rw [h, hf]
    rfl
  · have hn : (UInt32.ofNat raw.length).toNat = raw.length := by
      have hm : maxValueLen < 2 ^ 32 := by decide
      rw [UInt32.toNat_ofNat', Nat.mod_eq_of_lt (by omega)]
    have hd : (le32 (UInt32.ofNat raw.length) ++ body).drop 4 = body :=
      List.drop_left' (length_le32 _)
    have hl : ¬ (le32 (UInt32.ofNat raw.length) ++ body).length < 4 := by simp
    rw [h, Compression.fromFlag_flag]
    simp only [unpack, hlib, if_neg hl, u32At_le32_append, hn, hd, if_neg (Nat.not_lt.mpr hr),
      lib.decompress_compress raw body hbody]
    simp

/-- What was left as it was can be unpacked, and so can what is not larger than
a value may be. -/
theorem unpack_pack_of {raw : Bytes} {algo : Compression} (h : (pack raw algo).2 = 0 ∨ raw.length ≤ maxValueLen) :
    unpack (pack raw algo).1 (Compression.fromFlag (pack raw algo).2) = .ok raw := by
  rcases h with h | h
  · have hf : Compression.fromFlag 0 = .none := by decide
    obtain hp | ⟨lib, body, hlib, -, -, hp⟩ := pack_cases raw algo
    · rw [hp, hf]
      rfl
    · rw [hp] at h
      cases algo with
      | none => simp [Compression.library] at hlib
      | lz4 => simp [Compression.flag] at h
      | zlib => simp [Compression.flag] at h
  · exact unpack_pack h algo

/-- What was packed unpacks to what it was, or not at all. -/
theorem unpack_pack_or (raw : Bytes) (algo : Compression) :
    unpack (pack raw algo).1 (Compression.fromFlag (pack raw algo).2) = .ok raw ∨
      ∃ err, unpack (pack raw algo).1 (Compression.fromFlag (pack raw algo).2) = .error err := by
  cases hu : unpack (pack raw algo).1 (Compression.fromFlag (pack raw algo).2) with
  | error err => exact .inr ⟨err, rfl⟩
  | ok out =>
      left
      obtain h | ⟨lib, body, hlib, hbody, hb, h⟩ := pack_cases raw algo
      · rw [unpack_pack_of (.inl (by rw [h]))] at hu
        exact hu.symm
      · have hd : (le32 (UInt32.ofNat raw.length) ++ body).drop 4 = body := List.drop_left' (length_le32 _)
        have hl : ¬ (le32 (UInt32.ofNat raw.length) ++ body).length < 4 := by simp
        rw [h, Compression.fromFlag_flag] at hu
        simp only [unpack, hlib, if_neg hl, u32At_le32_append, hd] at hu
        split at hu
        · exact absurd hu (by simp)
        · cases hdec : lib.decompress body (UInt32.ofNat raw.length).toNat with
          | error e =>
              simp only [hdec] at hu
              exact absurd hu (by simp)
          | ok out' =>
              simp only [hdec] at hu
              split at hu
              · exact absurd hu (by simp)
              · rename_i hlen
                have hn := lib.decompress_other raw body _ out' hbody hdec (not_not.mp hlen)
                rw [hn, lib.decompress_compress raw body hbody] at hdec
                obtain rfl := Except.ok.inj hdec
                exact hu.symm

end Compress

end KivaDb
