import KivaDb.Backup.Archive
import KivaDb.Engine.Libraries

namespace KivaDb.Reference

open Lib.LittleEndian Lib.Utf8

namespace Sha256

/-- The words that each block is mixed into. -/
structure State where
  a : UInt32
  b : UInt32
  c : UInt32
  d : UInt32
  e : UInt32
  f : UInt32
  g : UInt32
  h : UInt32

def start : State :=
  ⟨0x6a09e667, 0xbb67ae85, 0x3c6ef372, 0xa54ff53a, 0x510e527f, 0x9b05688c, 0x1f83d9ab, 0x5be0cd19⟩

def constants : List UInt32 :=
  [0x428a2f98, 0x71374491, 0xb5c0fbcf, 0xe9b5dba5, 0x3956c25b, 0x59f111f1, 0x923f82a4, 0xab1c5ed5, 0xd807aa98,
    0x12835b01, 0x243185be, 0x550c7dc3, 0x72be5d74, 0x80deb1fe, 0x9bdc06a7, 0xc19bf174, 0xe49b69c1, 0xefbe4786,
    0x0fc19dc6, 0x240ca1cc, 0x2de92c6f, 0x4a7484aa, 0x5cb0a9dc, 0x76f988da, 0x983e5152, 0xa831c66d, 0xb00327c8,
    0xbf597fc7, 0xc6e00bf3, 0xd5a79147, 0x06ca6351, 0x14292967, 0x27b70a85, 0x2e1b2138, 0x4d2c6dfc, 0x53380d13,
    0x650a7354, 0x766a0abb, 0x81c2c92e, 0x92722c85, 0xa2bfe8a1, 0xa81a664b, 0xc24b8b70, 0xc76c51a3, 0xd192e819,
    0xd6990624, 0xf40e3585, 0x106aa070, 0x19a4c116, 0x1e376c08, 0x2748774c, 0x34b0bcb5, 0x391c0cb3, 0x4ed8aa4a,
    0x5b9cca4f, 0x682e6ff3, 0x748f82ee, 0x78a5636f, 0x84c87814, 0x8cc70208, 0x90befffa, 0xa4506ceb, 0xbef9a3f7,
    0xc67178f2]

def rotr (x : UInt32) (n : UInt32) : UInt32 := x >>> n ||| x <<< (32 - n)

/-- The words of a block, the last first, and as many made of them. -/
def extend : Nat → List UInt32 → List UInt32
  | 0, ws => ws
  | n + 1, ws =>
      let at_ (i : Nat) := ws.getD i 0
      let s0 := rotr (at_ 14) 7 ^^^ rotr (at_ 14) 18 ^^^ at_ 14 >>> 3
      let s1 := rotr (at_ 1) 17 ^^^ rotr (at_ 1) 19 ^^^ at_ 1 >>> 10
      extend n ((at_ 15 + s0 + at_ 6 + s1) :: ws)

def round (s : State) (kw : UInt32 × UInt32) : State :=
  let s1 := rotr s.e 6 ^^^ rotr s.e 11 ^^^ rotr s.e 25
  let ch := s.e &&& s.f ^^^ ~~~s.e &&& s.g
  let t1 := s.h + s1 + ch + kw.1 + kw.2
  let s0 := rotr s.a 2 ^^^ rotr s.a 13 ^^^ rotr s.a 22
  let maj := s.a &&& s.b ^^^ s.a &&& s.c ^^^ s.b &&& s.c
  ⟨t1 + (s0 + maj), s.a, s.b, s.c, s.d + t1, s.e, s.f, s.g⟩

def State.add (s t : State) : State :=
  ⟨s.a + t.a, s.b + t.b, s.c + t.c, s.d + t.d, s.e + t.e, s.f + t.f, s.g + t.g, s.h + t.h⟩

/-- The words of a text, most significant byte first. -/
def words : Bytes → List UInt32
  | b₀ :: b₁ :: b₂ :: b₃ :: rest =>
      (b₀.toUInt32 <<< 24 ||| b₁.toUInt32 <<< 16 ||| b₂.toUInt32 <<< 8 ||| b₃.toUInt32) :: words rest
  | _ => []

def blocks : Nat → List UInt32 → State → State
  | 0, _, s => s
  | n + 1, ws, s =>
      let schedule := (extend 48 (ws.take 16).reverse).reverse
      blocks n (ws.drop 16) (s.add ((constants.zip schedule).foldl round s))

def bytes (w : UInt32) : Bytes := [(w >>> 24).toUInt8, (w >>> 16).toUInt8, (w >>> 8).toUInt8, w.toUInt8]

def pad (b : Bytes) : Bytes :=
  b ++ 0x80 :: (List.replicate ((119 - b.length % 64) % 64) 0 ++ (toLE 8 (8 * b.length)).reverse)

end Sha256

open Sha256 in
def sha256 (b : Bytes) : Bytes :=
  let ws := words (pad b)
  let s := blocks (ws.length / 16) ws start
  [s.a, s.b, s.c, s.d, s.e, s.f, s.g, s.h].flatMap bytes

example : Crypt.idHex (sha256 (asBytes "abc")) = "ba7816bf8f01cfea414140de5dae2223b00361a396177a9cb410ff61f20015ad" := by
  decide +kernel

mutual

/-- JSON as a file holds it: a line for each item and each member. -/
def prettyChars (margin : List Char) : Json → List Char
  | .array (j :: items) => '[' :: prettyItems (' ' :: ' ' :: margin) (j :: items) ++ ('\n' :: margin ++ [']'])
  | .object (m :: members) =>
      '\x7b' :: prettyMembers (' ' :: ' ' :: margin) (m :: members) ++ ('\n' :: margin ++ ['\x7d'])
  | j => jsonChars j

def prettyItems (margin : List Char) : List Json → List Char
  | [] => []
  | [j] => '\n' :: margin ++ prettyChars margin j
  | j :: k :: items => '\n' :: margin ++ prettyChars margin j ++ (',' :: prettyItems margin (k :: items))

def prettyMembers (margin : List Char) : List (String × Json) → List Char
  | [] => []
  | [(name, j)] => '\n' :: margin ++ ('"' :: name.toList ++ ('"' :: ':' :: ' ' :: prettyChars margin j))
  | (name, j) :: m :: members =>
      '\n' :: margin ++ ('"' :: name.toList ++ ('"' :: ':' :: ' ' :: prettyChars margin j)) ++
        (',' :: prettyMembers margin (m :: members))

end

def jsonPretty (j : Json) : Bytes := asBytes (String.ofList (prettyChars [] j))

/-- Archives that are the list of their files; the JSON texts that are read are those of `samples`. -/
@[reducible] def archives (samples : List Json) : Archives where
  File := List (String × Bytes)
  content files := files.flatMap Prod.snd
  pack files := files
  unpack files := .ok files
  sha256 := sha256
  toJson := jsonPretty
  fromJson b := samples.find? fun j => jsonPretty j = b
  jsonText := jsonText
  fmtTime _ := "1970-01-01 00:00:00"

end KivaDb.Reference
