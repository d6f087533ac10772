import KivaDb.Resp.Deadlines
import KivaDb.Shell.Lexer

namespace KivaDb.Exec

open Lib.LittleEndian Lib.Utf8 Lib.Program Lib.Program.Prog Lib.Saturating Front Lexer
open Resp (Asked deadlineIn)

def reserved : List String :=
  ["set", "get", "update", "change", "del", "typeof", "scan", "stats", "compact", "exit", "quit", "clear", "help",
    "has", "print", "bump", "keys", "range", "string", "number", "boolean", "null", "array", "object", "bytes", "and",
    "ttl", "to", "all", "limit", "reverse", "where", "return", "from", "true", "false", "similar"]

def isReserved (s : String) : Bool := reserved.any (· == s.toLower)

def hexDigits (n : Nat) : List Char := Nat.toDigits 16 n

/-- `char::escape_default`. -/
def escapeDefault (c : Char) : String :=
  if c = '\t' then "\\t"
  else if c = '\r' then "\\r"
  else if c = '\n' then "\\n"
  else if c = '\'' ∨ c = '"' ∨ c = '\\' then String.ofList ['\\', c]
  else if 0x20 ≤ c.toNat ∧ c.toNat ≤ 0x7E then String.ofList [c]
  else String.ofList ("\\u\x7b".toList ++ hexDigits c.toNat ++ ['\x7d'])

def forbidden (c : Char) : Bool :=
  JsonPath.isWhitespace c || Resp.isControl c || "\"'`,()[]\x7b\x7d*?".toList.contains c

/-- Rules every key name must satisfy. -/
def validateKeyName (key : String) : Except String Unit :=
  if key = "" then .error "InvalidKeyName: key cannot be empty."
  else if Format.maxKeyLen < (asBytes key).length then
    .error s!"InvalidKeyName: keys are limited to {Format.maxKeyLen} bytes."
  else if key.toList.all Char.isDigit then .error s!"InvalidKeyName: '{key}' cannot be purely numeric."
  else
    match key.toList.find? forbidden with
    | some c => .error s!"InvalidKeyName: '{key}' contains the forbidden character '{escapeDefault c}'."
    | none => .ok ()

def typeOf (name : String) : Option Ty :=
  [Ty.string, .number, .boolean, .null, .array, .object, .bytes, .date, .dateTime, .time].find? (·.name = name)

def isTemporal : Ty → Bool
  | .date | .dateTime | .time => true
  | _ => false

/-- The name of the type asked for, if one is. -/
def typeName (ty : Option Ty) : String := (ty.map Ty.name).getD ""

def typeKw (t : Token) : Option Ty := if t.kind = .bare then typeOf t.text.toLower else none

/-- The type written before the key. -/
def forcedType (a : List Token) : Option Ty :=
  match a with
  | t :: _ :: v :: _ => (typeKw t).filter fun ty => !(isTemporal ty && v.kind = .lParen)
  | _ => none

/-- A key being created. -/
def keyForWrite (t : Token) : Except String String :=
  if t.kind = .dQuote ∨ t.kind = .sQuote then
    .error s!"Key '{t.text}' cannot use quotes. Use bare text or backticks (``)."
  else if t.kind = .bare ∧ isReserved t.text then
    .error s!"'{t.text}' is a reserved keyword and cannot be used as a key."
  else if t.kind = .bare ∨ t.kind = .backtick then do
    validateKeyName t.text
    .ok t.text
  else .error s!"'{t.text}' is not a valid key name."

/-- A key being looked up. -/
def keyForRead (t : Token) : Except String String :=
  if t.kind = .dQuote ∨ t.kind = .sQuote then .error s!"Key '{t.text}' is quoted. Keys must be bare text."
  else if t.kind = .bare ∨ t.kind = .backtick then .ok t.text
  else .error s!"'{t.text}' is not a valid key name."

def unsigned : List Char → List Char
  | '+' :: t => t
  | t => t

def parseU64 (s : String) : Option UInt64 :=
  let ds := unsigned s.toList
  if ds.isEmpty || !ds.all Char.isDigit then none
  else
    let n := Nat.ofDigitChars 10 ds 0
    if n < 2 ^ 64 then some (UInt64.ofNat n) else none

def uint (t : Option Token) (what : String) : Except String UInt64 :=
  match (t.filter Token.isBare).bind fun t => parseU64 t.text with
  | some n => .ok n
  | none => .error s!"ValueError: {what} must be a non-negative integer."

/-- `ttl <sec>` when it comes next, and the tokens left. -/
def ttlClause : List Token → Except String (Int64 × List Token)
  | t :: rest =>
      if t.isKw "ttl" then do
        let n ← uint rest.head? "TTL"
        if n.toInt64 ≤ 0 then .error "ValueError: TTL must be a positive integer." else .ok (n.toInt64, rest.tail)
      else .ok (0, t :: rest)
  | [] => .ok (0, [])

def stripClause (a : List Token) (words : List String) : List Token × Bool :=
  if words.length ≤ a.length ∧ ((a.drop (a.length - words.length)).zip words).all fun p => p.1.isKw p.2 then
    (a.take (a.length - words.length), true)
  else (a, false)

section

variable [External] [Chrono] [Codec] [Vectors]

/-- How values are written: a moment from the tokens it takes, and any other value from one. -/
class Literals where
  timeExpr : List Token → Option (Except String Value × List Token)
  parseValue : Token → Option Ty → String → Except String Value

/-- A command of the shell: it fails with the text of an error. -/
abbrev Command := Prog Resp.Op (fun op => Except KivaError op.Ans) String

def ask (op : Resp.Op) : Command op.Ans := do
  match ← Prog.ask op with
  | .ok a => return a
  | .error e => .fail e.text

def kvExists (key : String) : Command Bool := do
  let ty : Option Ty ← ask (.kvType key)
  return ty.isSome

def kvGet (key : String) : Command (Option (Value × Meta)) := ask (.kvGet key)

def kvPut (key : String) (value : Value) (expiresAt : Int64) (msgpack : Bool) : Command Unit :=
  ask (.apply [.put key value expiresAt msgpack])

/-- The deadline `ttl` seconds from now. -/
def deadlineFromNow (ttl : Int64) : Command Int64 := do
  if 0 < ttl then
    let now : Int64 ← ask .now
    return deadlineIn ttl now
  else return 0

variable [Literals]

/-- A value of a command, for its key, and the tokens left. -/
def valueOf (forced : Option Ty) (tokens : List Token) : Except String ((String → Except String Value) × List Token) :=
  match Literals.timeExpr tokens, tokens with
  | some (v, rest), _ => do
      let v ← v
      if forced.any (· ≠ v.ty) then
        .error s!"Value is a {v.ty.name}, not a {typeName forced}."
      else .ok (fun _ => .ok v, rest)
  | none, t :: rest => .ok (Literals.parseValue t forced, rest)
  | none, [] => .error "Syntax error. Missing value."

/-- What `set` is to do. -/
structure SetPlan where
  key : String
  value : Value
  ttl : Int64
  ifAbsent : Bool

def setUsage : String := "set [type] <key> <value> [ttl <sec>] [if not exists]"

def parseSet (a : List Token) : Except String SetPlan :=
  let (a, ifAbsent) := stripClause a ["if", "not", "exists"]
  let forced := forcedType a
  match if forced.isSome then a.tail else a with
  | kt :: vt :: rest => do
      let key ← keyForWrite kt
      let (pending, rest) ← valueOf forced (vt :: rest)
      let (ttl, rest) ← ttlClause rest
      match rest with
      | extra :: _ => .error s!"Invalid set syntax near '{extra.text}'\nUsage: {setUsage}"
      | [] =>
          let value ← pending key
          .ok ⟨key, value, ttl, ifAbsent⟩
  | _ => .error s!"Syntax error. Missing key or value.\nUsage: {setUsage}"

def setOne (a : List Token) : Command String := do
  let p ← Prog.ofExcept (parseSet a)
  if ← kvExists p.key then
    if p.ifAbsent then return s!"OK: {p.key} skipped (already exists)"
    else .fail s!"Key '{p.key}' already exists. Use 'update' to change it."
  else
    let expiresAt ← deadlineFromNow p.ttl
    kvPut p.key p.value expiresAt false
    return s!"OK: {p.key} saved."

/-- What `add` is to do. -/
structure AddPlan where
  pre : String
  value : Token
  ttl : Int64

def addUsage : String := "add <prefix> <value> [ttl <sec>]"

def parseAdd : List Token → Except String AddPlan
  | pt :: vt :: rest => do
      let (ttl, rest) ← ttlClause rest
      match rest with
      | extra :: _ => .error s!"Invalid add syntax near '{extra.text}'\nUsage: {addUsage}"
      | [] =>
          if pt.kind = .bare ∨ pt.kind = .backtick then .ok ⟨pt.text, vt, ttl⟩
          else .error s!"The prefix '{pt.text}' is bare text, such as place: (no quotes)."
  | _ => .error s!"Syntax error. Missing prefix or value.\nUsage: {addUsage}"

/-- `pre` followed by the first of the new identifiers that makes a key that does not exist. -/
def newKey (pre : String) : List (Result String) → Command String
  | [] => .fail s!"could not find a free key after {pre}: every one tried exists"
  | .error e :: _ => .fail e.text
  | .ok id :: ids => do
      let key := pre ++ id
      Prog.ofExcept (validateKeyName key)
      if ← kvExists key then newKey pre ids else return key

def cmdAdd (ids : List (Result String)) (a : List Token) : Command String := do
  let p ← Prog.ofExcept (parseAdd a)
  let key ← newKey p.pre (ids.take 8)
  let value ← Prog.ofExcept (Literals.parseValue p.value none key)
  let expiresAt ← deadlineFromNow p.ttl
  kvPut key value expiresAt false
  return s!"OK: {key} saved."

/-- What `bump` is to do. -/
structure BumpPlan where
  want : Option Ty
  key : String
  add : Bool
  secs : Int64

def bumpUsage : String := "Usage: bump [type] <key> <add|set> <ttl_seconds>"

/-- The type asked for, if one is, and the other tokens. -/
def bumpArgs : List Token → Except String (Option Ty × Token × Token × Token)
  | [ty, k, op, n] =>
      match typeKw ty with
      | some want => .ok (some want, k, op, n)
      | none => .error bumpUsage
  | [k, op, n] => .ok (none, k, op, n)
  | _ => .error bumpUsage

def bumpOp (op : Token) : Except String Bool :=
  if op.isKw "add" then .ok true
  else if op.isKw "set" then .ok false
  else .error s!"Invalid operation '{op.text}'. Use 'add' or 'set'."

def bumpSecs (n : Token) : Except String Int64 :=
  match (Resp.parseI64 n.text).filter fun secs => 0 < secs && n.isBare with
  | some secs => .ok secs
  | none => .error "ValueError: TTL must be a positive integer."

def parseBump (a : List Token) : Except String BumpPlan := do
  let (want, k, op, n) ← bumpArgs a
  let key ← keyForRead k
  let add ← bumpOp op
  let secs ← bumpSecs n
  .ok ⟨want, key, add, secs⟩

def BumpPlan.word (p : BumpPlan) : String := if p.add then "add" else "set"

/-- Where `bump` counts from. -/
def BumpPlan.base (p : BumpPlan) (current now : Int64) : Int64 := if p.add ∧ now < current then current else now

def cmdBump (a : List Token) : Command String := do
  let p ← Prog.ofExcept (parseBump a)
  match ← kvGet p.key with
  | none => .fail s!"Key '{p.key}' not found or already expired."
  | some (value, m) =>
      if p.want.any (· ≠ value.ty) then
        .fail s!"TypeError: Key '{p.key}' is of type '{value.ty.name}', expected '{typeName p.want}'"
      else
        let now : Int64 ← ask .now
        let ms := saturatingMul p.secs 1000
        kvPut p.key value (p.base m.expiresAt now + ms) m.msgpack
        return s!"OK: Key '{p.key}' TTL updated successfully ({p.word} {p.secs}s)."

end

end KivaDb.Exec
