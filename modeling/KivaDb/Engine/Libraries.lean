import KivaDb.Engine.Batch
import KivaDb.External

namespace KivaDb.Reference

open Lib.LittleEndian Lib.Utf8 Lib.Calendar

/-- A clock face without moments: enough for documents that hold none. -/
scoped instance chrono : Chrono where
  DateTime := Empty
  NaiveTime := Empty
  decEqDateTime := inferInstance
  decEqNaiveTime := inferInstance
  iso := fun t => nomatch t
  timeText := fun t => nomatch t
  parseDatetime := fun _ => none
  parseTime := fun _ => none

mutual

/-- Compact JSON of texts, small numbers and what is made of them. -/
def jsonChars : Json → List Char
  | .null => "null".toList
  | .bool b => (if b then "true" else "false").toList
  | .number (.posInt n) => Nat.toDigits 10 n.toNat
  | .number (.negInt n) => '-' :: Nat.toDigits 10 n.toInt.natAbs
  | .number (.float _) => []
  | .string s => '"' :: (s.toList ++ ['"'])
  | .array items => '[' :: (itemsChars items ++ [']'])
  | .object members => '\x7b' :: (membersChars members ++ ['\x7d'])

def itemsChars : List Json → List Char
  | [] => []
  | [j] => jsonChars j
  | j :: k :: items => jsonChars j ++ (',' :: itemsChars (k :: items))

def membersChars : List (String × Json) → List Char
  | [] => []
  | [(name, j)] => '"' :: (name.toList ++ ('"' :: ':' :: jsonChars j))
  | (name, j) :: m :: members => '"' :: (name.toList ++ ('"' :: ':' :: (jsonChars j ++ (',' :: membersChars (m :: members)))))

end

def jsonText (j : Json) : String := String.ofList (jsonChars j)

def sameValue : Value → Value → Bool
  | .str a, .str b => a == b
  | .num a, .num b => a == b
  | .bool a, .bool b => a == b
  | .null, .null => true
  | .doc a, .doc b => jsonText a == jsonText b
  | _, _ => false

def encodeStored : Value → Bool → Result (Bytes × DocEnc)
  | .str s, _ => .ok (asBytes s, .json)
  | .num s, _ => .ok (asBytes s, .json)
  | .doc j, false => .ok (asBytes (jsonText j), .json)
  | _, _ => .error (.invalid "not written here")

/-- Reads texts and numbers, and the documents of `samples`. -/
def decode (samples : List Json) (ty : Ty) (raw : Bytes) (enc : DocEnc) : Result Value :=
  match ty, enc with
  | .string, .json =>
      match fromUtf8 raw with
      | some s => .ok (.str s)
      | none => .error (.corrupted "value is not valid UTF-8")
  | .number, .json =>
      match fromUtf8 raw with
      | some s => .ok (.num s)
      | none => .error (.corrupted "value is not valid UTF-8")
  | .object, .json =>
      match samples.find? fun j => asBytes (jsonText j) = raw with
      | some j => .ok (.doc j)
      | none => .error (.corrupted "JSON document")
  | _, _ => .error (.corrupted "not read here")

/-- Texts, numbers and documents among `samples`. -/
@[reducible] def codec (samples : List Json) : Codec where
  lowercase := String.toLower
  jsonText := jsonText
  sameValue := sameValue
  encodeStored := encodeStored
  decode := decode samples

/-- No vector index is there. -/
scoped instance vectors : Vectors where
  VecIndex := Empty
  update := fun v _ _ => v
  remove := fun v _ => v
  clear := fun v => v
  growth := fun _ _ _ => 0
  memoryBytes := fun v => nomatch v
  resident := fun _ _ _ => 0
  humanSize := fun n => toString n

/-- An engine just opened on a new data file. -/
def fresh (keys : Option Crypt.Keys) : Inner where
  file := Format.fileHeader 1 Format.formatV1
  fileId := 1
  format := Format.formatV1
  table := Table.empty
  seq := 0
  compression := .none
  sec := []
  vecs := []
  schemas := []
  maxMemory := 0
  maxVectors := 0
  keys := keys
  activeTxns := 0
  tombVersions := ∅
  resetSeq := 0
  compacting := false
  closed := false
  emitted := []

end KivaDb.Reference
