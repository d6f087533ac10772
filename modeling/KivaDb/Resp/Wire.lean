import KivaDb.Config
import KivaDb.Double
import KivaDb.Lib.Framing
import KivaDb.Resp.Reply

namespace KivaDb.Resp.Wire

open Lib.LittleEndian Lib.Utf8 Lib.Framing

/-- A reply with everything a connection may send. -/
inductive Reply
  | simple (s : String)
  | error (s : String)
  | int (i : Int64)
  | bulk (b : Option Bytes)
  | array (items : Option (List Reply))
  /-- Field-value pairs: a map in RESP3, a flat array in RESP2. -/
  | map (pairs : List (Reply × Reply))
  /-- A pub/sub message or notice: a push in RESP3, an array in RESP2. -/
  | push (items : List Reply)
  /-- A floating-point number (scores): a double in RESP3, text in RESP2. -/
  | double (d : Double)
  /-- Members of a set: a set in RESP3, an array in RESP2. -/
  | set (items : List Reply)
  /-- Nothing to write: the command already queued its replies. -/
  | sent

def ascii (cs : List Char) : Bytes := asBytes (String.ofList cs)

/-- The text with a space for each line break. -/
def oneLine (s : String) : String := String.ofList (s.toList.map fun c => if c = '\r' ∨ c = '\n' then ' ' else c)

def header (mark : UInt8) (n : Nat) : Bytes := mark :: (ascii (Nat.toDigits 10 n) ++ crlf)

def bulkBytes (b : Bytes) : Bytes := header 36 b.length ++ (b ++ crlf)

section

variable [Display]

def doubleText (d : Double) : List Char := if d = .nan then ['n', 'a', 'n'] else d.fmtF64

mutual

/-- The reply in RESP2, or in RESP3 when `resp3` (after `HELLO 3`). -/
def encode (resp3 : Bool) : Reply → Bytes
  | .bulk none => if resp3 then 95 :: crlf else 36 :: (ascii ['-', '1'] ++ crlf)
  | .array none => if resp3 then 95 :: crlf else 42 :: (ascii ['-', '1'] ++ crlf)
  | .map pairs => (if resp3 then header 37 pairs.length else header 42 (pairs.length * 2)) ++ encodePairs resp3 pairs
  | .push items => header (if resp3 then 62 else 42) items.length ++ encodeAll resp3 items
  | .sent => []
  | .double d => if resp3 then 44 :: (ascii (doubleText d) ++ crlf) else bulkBytes (ascii d.fmtF64)
  | .set items => header (if resp3 then 126 else 42) items.length ++ encodeAll resp3 items
  | .simple s => 43 :: (asBytes (oneLine s) ++ crlf)
  | .error s => 45 :: (asBytes (oneLine s) ++ crlf)
  | .int i => 58 :: (ascii (intText i.toInt) ++ crlf)
  | .bulk (some b) => bulkBytes b
  | .array (some items) => header 42 items.length ++ encodeAll resp3 items

def encodeAll (resp3 : Bool) : List Reply → Bytes
  | [] => []
  | r :: rs => encode resp3 r ++ encodeAll resp3 rs

def encodePairs (resp3 : Bool) : List (Reply × Reply) → Bytes
  | [] => []
  | (k, v) :: ps => encode resp3 k ++ (encode resp3 v ++ encodePairs resp3 ps)

end

end

def maxArgs : Nat := 1024 * 1024

def maxBulk : Nat := 512 * 1024 * 1024

/-- An answer or the text of an error; none is a panic, or a reading that does not end. -/
abbrev Outcome := ExceptT String Option

def Outcome.of {α : Type} (m : Except String α) : Outcome α := ExceptT.mk (some m)

def bad {α : Type} (msg : String) : Outcome α := Outcome.of (.error msg)

/-- Up to and with the first newline. -/
def readUntil : Bytes → Bytes × Bytes
  | [] => ([], [])
  | b :: rest =>
      if b = 10 then ([b], rest)
      else
        let (l, rest) := readUntil rest
        (b :: l, rest)

def isBreak (b : UInt8) : Bool := b = 10 || b = 13

def trimBreaks (l : Bytes) : Bytes := (l.reverse.dropWhile isBreak).reverse

def readLine (r : Bytes) : Option (Bytes × Bytes) :=
  if r = [] then none
  else
    let (l, rest) := readUntil r
    some (trimBreaks l, rest)

def readLineOr (msg : String) (r : Bytes) : Outcome (Bytes × Bytes) :=
  match readLine r with
  | some p => Outcome.of (.ok p)
  | none => bad msg

/-- `&l[1..]`, which panics on nothing. -/
def afterMark : Bytes → Outcome Bytes
  | [] => ExceptT.mk none
  | _ :: l => Outcome.of (.ok l)

def parseUsize (l : Bytes) : Option Nat := (fromUtf8 l).bind fun s => Config.readU64 s.toList

def usizeOr (msg : String) (l : Bytes) : Outcome Nat :=
  match parseUsize l with
  | some n => Outcome.of (.ok n)
  | none => bad msg

def readExact (n : Nat) (r : Bytes) : Outcome (Bytes × Bytes) :=
  if n ≤ r.length then Outcome.of (.ok (r.take n, r.drop n)) else bad "failed to fill whole buffer"

/-- One argument: a bulk string. -/
def readArg (r : Bytes) : Outcome (Bytes × Bytes) := do
  let (h, r) ← readLineOr "truncated command" r
  if h.head? ≠ some 36 then bad "expected a bulk string"
  else do
    let digits ← afterMark h
    let len ← usizeOr "bad length" digits
    if maxBulk < len then bad "argument too large"
    else do
      let (buf, r) ← readExact (len + 2) r
      return (buf.take len, r)

def readArgs : Nat → Bytes → Outcome (List Bytes × Bytes)
  | 0, r => return ([], r)
  | n + 1, r => do
      let (arg, r) ← readArg r
      let (args, r) ← readArgs n r
      return (arg :: args, r)

def isAsciiWhitespace (b : UInt8) : Bool := b = 32 || b = 9 || b = 10 || b = 12 || b = 13

def words (l : Bytes) : List Bytes := (l.splitOnP isAsciiWhitespace).filter (· ≠ [])

/-- What the header announces. -/
def readArray (r : Bytes) : Outcome (List Bytes × Bytes) := do
  let (header, r) ← readLineOr "truncated command" r
  let digits ← afterMark header
  let n ← usizeOr "bad array" digits
  if maxArgs < n then bad "too many arguments"
  else readArgs n r

/-- The loop goes on after a line or an array of nothing. -/
def readFrom : Nat → Bytes → Outcome (Option (List Bytes) × Bytes)
  | 0, _ => ExceptT.mk none
  | _, [] => return (none, [])
  | fuel + 1, first :: r =>
      if first ≠ 42 then
        match readLine (first :: r) with
        | none => return (none, [])
        | some (l, rest) => if words l = [] then readFrom fuel rest else return (some (words l), rest)
      else do
        let (args, rest) ← readArray (first :: r)
        if args = [] then readFrom fuel rest else return (some args, rest)

/-- Reads one command: a RESP array of bulk strings, or an inline command line. None at the end of the stream. -/
def readCommand (r : Bytes) : Outcome (Option (List Bytes) × Bytes) := readFrom (r.length + 1) r

end KivaDb.Resp.Wire
