import KivaDb.Lib.LittleEndian

namespace KivaDb

open Lib.LittleEndian

/-- Every failure the engine or the command layer can report. -/
inductive KivaError
  | io (msg : String)
  | corrupted (msg : String)
  | locked (msg : String)
  | format (msg : String)
  | invalid (msg : String)
  | notFound (msg : String)
  | exists (msg : String)
  | type (msg : String)
  | conflict (msg : String)
  | denied (msg : String)
  | readOnly (msg : String)
  | unique (msg : String)
  | schema (msg : String)
  | script (msg : String)
  | other (msg : String)
  deriving DecidableEq, Repr

abbrev Result (α : Type) := Except KivaError α

namespace External

/-- A compression library (`lz4_flex`, `flate2`), as `pack` and `unpack` call
it: the second argument of `decompress` is the length of what to get back. Asked
for another length, it fails or gives something that is not of that length. -/
structure Compressor where
  compress : Bytes → Option Bytes
  decompress : Bytes → Nat → Except String Bytes
  decompress_compress : ∀ raw z, compress raw = some z → decompress z raw.length = .ok raw
  decompress_other : ∀ raw z n out, compress raw = some z → decompress z n = .ok out → out.length = n → n = raw.length

/-- AES-256-GCM as `ring` offers it. What was sealed opens to what it was, and
no longer opens once a byte of its associated data is another. -/
structure Aead where
  Key : Type
  sealInPlace : (key : Key) → (nonce aad data : Bytes) → Bytes × Bytes
  openInPlace : (key : Key) → (nonce aad data tag : Bytes) → Option Bytes
  length_data : ∀ k n a p, (sealInPlace k n a p).1.length = p.length
  length_tag : ∀ k n a p, (sealInPlace k n a p).2.length = 16
  open_seal : ∀ k n a p, openInPlace k n a (sealInPlace k n a p).1 (sealInPlace k n a p).2 = some p
  open_altered : ∀ k n a p i x, i < a.length → a.getD i 0 ≠ x →
    openInPlace k n (a.set i x) (sealInPlace k n a p).1 (sealInPlace k n a p).2 = none

end External

/-- The libraries the storage layer rests on. -/
class External where
  crc32 : Bytes → UInt32
  lz4 : External.Compressor
  zlib : External.Compressor
  aead : External.Aead

end KivaDb

namespace KivaDb.Reference

open Lib.LittleEndian

def crcBit (c : UInt32) : UInt32 := if c &&& 1 = 1 then (c >>> 1) ^^^ 0xEDB88320 else c >>> 1

def crcByte (c : UInt32) (b : UInt8) : UInt32 :=
  crcBit (crcBit (crcBit (crcBit (crcBit (crcBit (crcBit (crcBit (c ^^^ b.toUInt32))))))))

/-- CRC-32 as in zip and PNG, bit by bit. -/
def crc32 (b : Bytes) : UInt32 := b.foldl crcByte 0xFFFFFFFF ^^^ 0xFFFFFFFF

example : crc32 [0x31, 0x32, 0x33, 0x34, 0x35, 0x36, 0x37, 0x38, 0x39] = 0xCBF43926 := by decide +kernel

/-- A library that finds nothing to compress. -/
def incompressible : External.Compressor where
  compress := fun _ => none
  decompress := fun b _ => .ok b
  decompress_compress := by simp
  decompress_other := by simp

def byteSum (b : Bytes) : UInt8 := b.foldr (· + ·) 0

theorem byteSum_set {b : Bytes} {i : Nat} {x : UInt8} (hi : i < b.length) (hx : b.getD i 0 ≠ x) :
    byteSum (b.set i x) ≠ byteSum b := by
  induction b generalizing i with
  | nil => simp at hi
  | cons y b ih =>
      cases i with
      | zero =>
          intro h
          exact hx (add_right_cancel h).symm
      | succ i =>
          intro h
          exact ih (Nat.lt_of_succ_lt_succ hi) hx (add_left_cancel h)

def tag (aad : Bytes) : Bytes := byteSum aad :: List.replicate 15 0

/-- An authenticated cipher that hides nothing: its tag is a sum of the
associated data, enough to tell a changed byte. -/
def transparent : External.Aead where
  Key := Unit
  sealInPlace := fun _ _ aad data => (data, tag aad)
  openInPlace := fun _ _ aad data t => if t = tag aad then some data else none
  length_data := fun _ _ _ _ => rfl
  length_tag := fun _ _ _ _ => rfl
  open_seal := by simp
  open_altered := by
    intro _ _ a p i x hi hx
    have h : tag a ≠ tag (a.set i x) := fun h => byteSum_set hi hx (List.cons.inj h).1.symm
    simp [h]

/-- Libraries to run the storage layer with. -/
scoped instance libraries : External where
  crc32 := crc32
  lz4 := incompressible
  zlib := incompressible
  aead := transparent

end KivaDb.Reference
