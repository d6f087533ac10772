import KivaDb.Query.Expr
import KivaDb.Double
import KivaDb.Integers
import KivaDb.Shell.Lexer

namespace KivaDb

open Lib.Calendar Lib.Utf8 Lexer

def TimeFn.name : TimeFn → String
  | year => "year"
  | month => "month"
  | day => "day"
  | hour => "hour"
  | minute => "minute"
  | second => "second"
  | weekday => "weekday"

/-- What the language takes from others: how `serde_json` writes floats and reads a JSON text, how Rust writes a float
with an exponent, and the moments of clocks and of texts. -/
class Wording [Chrono] [Formats] where
  float : F64 → Lib.JsonText.Numeral
  scientific : F64 → List Char
  fromStr : String → Except String Json
  show_ : Time.Zone → Chrono.DateTime → String
  now : Chrono.DateTime
  today : Date
  currentTime : Chrono.NaiveTime
  temporalLiteral : Ty → String → Except String Value
  /-- `+ 7 days` and the like after a moment. -/
  shift : List Token → Value → Except String (Value × List Token)

namespace Num

/-- The digits of a number without zeros around them, and the power of ten of the first one. -/
def digits (text : List Char) : Option (List Char × Int) :=
  let s := text.dropWhile fun c => c = '-' ∨ c = '+'
  let isExponent (c : Char) : Bool := c = 'e' ∨ c = 'E'
  let mantissa := s.takeWhile fun c => !isExponent c
  let exponent := match s.dropWhile fun c => !isExponent c with
    | [] => some 0
    | _ :: e => JsonPath.parseI64 e
  exponent.map fun e =>
    let whole := mantissa.takeWhile (· ≠ '.')
    let all := whole ++ (mantissa.dropWhile (· ≠ '.')).tail
    let lead := (all.takeWhile (· = '0')).length
    let kept := ((all.dropWhile (· = '0')).reverse.dropWhile (· = '0')).reverse
    if kept = [] then ([], 0) else (kept, e + whole.length - lead - 1)

/-- A number as it may be written: `-12`, `3.14`, `1e9`, `2.5E-3`. -/
def isValidNumber (s : List Char) : Bool :=
  let unsigned := if s.head? = some '-' then s.tail else s
  let rest := unsigned.dropWhile Char.isDigit
  let (fraction, rest) : Bool × List Char := match rest with
    | '.' :: f => (f.head?.any Char.isDigit, f.dropWhile Char.isDigit)
    | rest => (true, rest)
  let exponent : Bool := match rest with
    | [] => true
    | e :: r =>
        let r := if r.head? = some '+' ∨ r.head? = some '-' then r.tail else r
        (e = 'e' ∨ e = 'E') ∧ r ≠ [] ∧ r.all Char.isDigit
  unsigned.head?.any Char.isDigit && fraction && exponent && (Config.readF64 s).isSome

end Num

section

variable [Chrono] [Formats] [Wording]

namespace Num

/-- The float a number means, if that float holds the same value. -/
def exactF64 (text : List Char) : Option F64 := do
  let f ← Config.readF64 text
  let written ← digits text
  if written = (← digits (Wording.scientific f)) then return f
  -- a whole float may hold more digits than its shortest form shows; the bound is 1e38 as a float
  let whole := f.isWhole ∧ f.units.natAbs < 99999999999999997748809823456034029568 * 2 ^ 1074
  let shown ← if whole then digits (Nat.toDigits 10 (f.units.natAbs / 2 ^ 1074)) else none
  if written = shown then return f else none

/-- A number as JSON without loss. -/
def exactJson (text : List Char) : Option Json :=
  match JsonPath.parseI64 text with
  | some i => some (.number (.ofInt (Int64.ofInt i)))
  | none =>
      match Config.readU64 text with
      | some n => some (.number (.posInt (UInt64.ofNat n)))
      | none => (exactF64 text).map fun f => .number (.float f)

end Num

namespace Json

def numberChars : Number → List Char
  | .posInt n => Nat.toDigits 10 n.toNat
  | .negInt i => intText i.toInt
  | .float f => Num.numeralChars (Wording.float f)

def escaped (c : Char) : List Char :=
  if c = '"' then ['\\', '"'] else if c = '\\' then ['\\', '\\']
  else if c.toNat = 8 then ['\\', 'b'] else if c.toNat = 9 then ['\\', 't'] else if c.toNat = 10 then ['\\', 'n']
  else if c.toNat = 12 then ['\\', 'f'] else if c.toNat = 13 then ['\\', 'r']
  else if c.toNat < 32 then
    ['\\', 'u', '0', '0', if c.toNat < 16 then '0' else '1', Nat.digitChar (c.toNat % 16)]
  else [c]

def stringChars (s : String) : List Char := '"' :: (s.toList.flatMap escaped ++ ['"'])

mutual

/-- JSON as `serde_json` displays it. -/
def chars : Json → List Char
  | .null => ['n', 'u', 'l', 'l']
  | .bool true => ['t', 'r', 'u', 'e']
  | .bool false => ['f', 'a', 'l', 's', 'e']
  | .number n => numberChars n
  | .string s => stringChars s
  | .array items => '[' :: (itemsChars items ++ [']'])
  | .object members => '\x7b' :: (membersChars members ++ ['\x7d'])

def itemsChars : List Json → List Char
  | [] => []
  | [j] => chars j
  | j :: js => chars j ++ ',' :: itemsChars js

def membersChars : List (String × Json) → List Char
  | [] => []
  | [(k, j)] => stringChars k ++ ':' :: chars j
  | (k, j) :: ms => stringChars k ++ ':' :: (chars j ++ ',' :: membersChars ms)

end

end Json

namespace Time

/-- A condition value as it is written. -/
def showValue (zone : Zone) (j : Json) : List Char :=
  match tagged j with
  | some (.datetime, text) =>
      match parseDatetime text .utc with
      | .ok at_ => "datetime \"".toList ++ (Wording.show_ zone at_).toList ++ ['"']
      | .error _ => j.chars
  | some (.time, text) => "time \"".toList ++ text.toList ++ ['"']
  | none => j.chars

end Time

namespace Expr

def Test.chars (zone : Time.Zone) (t : Test) : List Char :=
  let op := t.cond.op.symbol.toList
  match t.cond.func with
  | some func => func.name.toList ++ '(' :: (t.cond.field.toList ++ [')', ' '] ++ op ++ ' ' :: t.cond.value.chars)
  | none =>
      let value := if (tagged t.cond.value).isSome then Time.showValue zone t.cond.value else t.cond.value.chars
      t.cond.field.toList ++ ' ' :: (op ++ ' ' :: value)

def wrapped (wrap : Bool) (text : List Char) : List Char := if wrap then '(' :: (text ++ [')']) else text

def isTest : Expr → Bool
  | test _ => true
  | _ => false

def isOr : Expr → Bool
  | or_ _ => true
  | _ => false

mutual

/-- An expression as it is displayed. -/
def chars (zone : Time.Zone) : Expr → List Char
  | test t => Test.chars zone t
  | and_ v => partsChars zone true v
  | or_ v => partsChars zone false v
  | not e => "not ".toList ++ wrapped (!isTest e) (chars zone e)

def partsChars (zone : Time.Zone) (isAnd : Bool) : List Expr → List Char
  | [] => []
  | [e] => wrapped (isAnd && isOr e) (chars zone e)
  | e :: es =>
      wrapped (isAnd && isOr e) (chars zone e) ++ (if isAnd then " and ".toList else " or ".toList) ++ partsChars zone isAnd es

end

end Expr

/-- The operators, without regard to capitals where they are words. -/
def CmpOp.parse (s : String) : Option CmpOp :=
  if s = "=" ∨ s = "==" then some .eq
  else if s = "!=" ∨ s = "<>" then some .ne
  else if s = ">" then some .gt
  else if s = ">=" then some .ge
  else if s = "<" then some .lt
  else if s = "<=" then some .le
  else if s.toLower = "in" then some .in_
  else if s.toLower = "like" then some .like
  else if s.toLower = "ilike" then some .ilike
  else none

namespace Query

def combinationMessage : String :=
  "conditions are combined with the words and, or, not and parentheses: get where user:*.age > 18 and (role = \"admin\" or role = \"dev\"). In a structured request, they go in \"where\": \x7b\"and\": [...]\x7d, \x7b\"or\": [...]\x7d, \x7b\"not\": \x7b...\x7d\x7d."

def pipelineMessage : String :=
  "sorting pipelines (distinct, having, offset, an aggregate sorted...) are not supported: get where sorts with 'order by <field> [desc]' and pages with 'after <key>'; the aggregates are count, sum, avg, min and max, with 'group by <field>'; 'range' and 'keys' return keys in order."

def distributedMessage : String :=
  "distributed queries are not supported: one KivaDB server holds all of a workspace's data (replicas hold copies, see 'replica status'), so a query never spans several servers."

/-- What to do instead of the construct a word belongs to, if the language leaves it out. -/
def unsupportedWord (word : String) : Option String :=
  let w := word.toLower
  if word.toList.head? = some '@' then some distributedMessage
  else if w ∈ ["&&", "||", "!", "xor"] then some combinationMessage
  else if w ∈ ["join", "inner", "outer", "left", "right", "cross", "natural", "lookup", "on", "using"] then some joinMessage
  else if w ∈ ["group", "order", "sort", "by", "having", "distinct", "union", "select", "pipeline", "aggregate", "offset"] then
    some pipelineMessage
  else if w ∈ ["shard", "shards", "node", "nodes", "cluster", "across", "partition", "distributed"] then some distributedMessage
  else if w ∈ ["between", "contains", "matches", "regexp", "rlike", "is"] then some operatorMessage
  else none

def refuseUnsupported : Option Token → Except String Unit
  | some t =>
      if t.kind = .comma then .error joinMessage
      else if t.isBare then
        match unsupportedWord t.text with
        | some message => .error s!"'{t.text}': {message}"
        | none => .ok ()
      else .ok ()
  | none => .ok ()

/-- Whether an unquoted value names a field of other documents. -/
def isFieldReference (text : List Char) : Bool :=
  match text.dropWhile (· ≠ '.') with
  | [] => false
  | _ :: field => (text.takeWhile (· ≠ '.')).any (fun c => c = ':' ∨ c = '*' ∨ c = '?') && field ≠ []

def literalJson (text : String) (quoted : Bool) : Except String Json :=
  if quoted then .ok (.string text)
  else if text = "true" then .ok (.bool true)
  else if text = "false" then .ok (.bool false)
  else if text = "null" then .ok .null
  else if Num.isValidNumber text.toList then
    match Num.exactJson text.toList with
    | some j => .ok j
    | none =>
        .error s!"{text} cannot be held exactly by a 64-bit integer or float, and would be rounded: quote it to use it as a text"
  else .error s!"String values like '{text}' must be quoted (\"\" or '')."

/-- An unquoted value. -/
def conditionValue (text : String) : Except String Json :=
  if isFieldReference text.toList then .error s!"'{text}' names a field of other documents: {joinMessage}"
  else literalJson text false

/-- Reads a JSON literal of a command, refusing an integer that would be rounded. -/
def jsonLiteral (text : String) : Except String Json :=
  match Wording.fromStr text with
  | .error e => .error s!"Invalid JSON literal: {e}"
  | .ok j =>
      match Num.checkIntegers (asBytes text) with
      | some (.error e) => .error s!"Invalid JSON literal: {e}"
      | _ => .ok j

/-- Where the operator starts that is glued in a word, and how long it is. -/
def findOp (s : List Char) : Option (Nat × Nat) :=
  let isOp (c : Char) : Bool := c = '=' ∨ c = '!' ∨ c = '<' ∨ c = '>'
  let before := s.takeWhile fun c => !isOp c
  if before.length = s.length then none
  else
    let two := (s.drop before.length).take 2
    some (before.length, if two.length = 2 ∧ (CmpOp.parse (String.ofList two)).isSome then 2 else 1)

/-- A moment written with a function or a typed text; nothing where the tokens do not start one. -/
def timeExpr (c : List Token) : Option (Except String (Value × List Token)) :=
  match c with
  | [] => none
  | t :: rest =>
      let call : Bool := rest.head?.any (fun u => u.kind = .lParen) && rest.tail.head?.any fun u => u.kind = .rParen
      let word := t.text.toLower
      if !t.isBare then none
      else if word = "now" ∧ call then some (Wording.shift (rest.drop 2) (.dateTime Wording.now))
      else if word = "today" ∧ call then some (Wording.shift (rest.drop 2) (.date Wording.today))
      else if word = "current_timestamp" then
        some (Wording.shift (if call then rest.drop 2 else rest) (.dateTime Wording.now))
      else if word = "current_date" then some (Wording.shift (if call then rest.drop 2 else rest) (.date Wording.today))
      else if word = "current_time" then
        some (Wording.shift (if call then rest.drop 2 else rest) (.time Wording.currentTime))
      else
        let ty : Option Ty :=
          if word = "datetime" then some .dateTime else if word = "date" then some .date
          else if word = "time" then some .time else none
        match ty, rest with
        | some ty, u :: rest =>
            if u.isQuoted then some (Wording.temporalLiteral ty u.text >>= Wording.shift rest) else none
        | _, _ => none

/-- A moment as a condition compares with it. -/
def momentJson : Value → Json
  | .dateTime t => .object [("$datetime", .string (Chrono.iso t))]
  | .date d => .string (Time.dateText d)
  | .time t => .object [("$time", .string (Chrono.timeText t))]
  | _ => .null

def usage : String := "expected a condition such as: user:*.role = \"admin\""

/-- The field and what is asked of its date. -/
def readTarget (c : List Token) : Except String (Token × Option TimeFn × List Token) :=
  match c with
  | [] => .error usage
  | t :: rest =>
      match if t.isBare && rest.head?.any (fun u => u.kind = .lParen) then TimeFn.parse t.text else none with
      | none => .ok (t, none, rest)
      | some f =>
          match rest.tail with
          | field :: close =>
              if !field.isBare then .error usage
              else if close.head?.any fun u => u.kind = .rParen then .ok (field, some f, close.tail)
              else
                .error s!"{f.name}() takes one field and a closing parenthesis: {f.name}(place:*.created_at) = 10"
          | [] => .error usage

/-- What is left of an operator's word is its value. -/
def gluedValue (rest : List Char) : Except String (Option Json) :=
  if rest = [] then .ok none else (conditionValue (String.ofList rest)).map some

/-- The field, the operator and the value that are one word, as far as they are. -/
def splitGlued (t : Token) (func : Option TimeFn) : Except String (String × Option String × Option Json) :=
  match if t.isBare && func.isNone then findOp t.text.toList else none with
  | none => .ok (t.text, none, none)
  | some (pos, len) => do
      let s := t.text.toList
      let value ← gluedValue (s.drop (pos + len))
      return (String.ofList (s.take pos), some (String.ofList ((s.drop pos).take len)), value)

def wordOp (t : Option Token) : Option CmpOp :=
  ((t.filter Token.isBare).bind fun t => CmpOp.parse t.text).filter CmpOp.isWord

/-- `in`, `like`, `ilike`, each of them after `not` or not; or an operator with its value glued to it or not. -/
def readOp (c : List Token) : Except String (String × Option Json × Bool × List Token) :=
  let negated := c.head?.any (fun t => t.isKw "not") && (wordOp c.tail.head?).isSome
  let c := if negated then c.tail else c
  match wordOp c.head? with
  | some op => .ok (op.symbol, none, negated, c.tail)
  | none => do
      refuseUnsupported c.head?
      match c with
      | t :: rest =>
          let s := t.text.toList
          match if t.isBare then findOp s else none with
          | some (0, len) => do
              let value ← gluedValue (s.drop len)
              return (String.ofList (s.take len), value, negated, rest)
          | _ => .error usage
      | [] => .error usage

/-- A value in tokens of its own. -/
def readValue (op : CmpOp) (c : List Token) : Except String (Json × List Token) :=
  match if op ≠ .in_ then timeExpr c else none with
  | some moment => do
      let (v, rest) ← moment
      return (momentJson v, rest)
  | none =>
      match c with
      | [] => .error usage
      | t :: rest => do
          let value ← match t.kind with
            | .bare => conditionValue t.text
            | .dQuote | .sQuote => literalJson t.text true
            | .json => jsonLiteral t.text
            | _ => .error usage
          return (value, rest)

/-- Splits `<pattern>.<field>`: the field starts at the first point after the last wildcard. -/
def splitTarget (target : String) : Except String (String × String) :=
  let need := "expected both a key pattern and a field: <pattern>.<field>, e.g. doc:*.embedding"
  let s := target.toList
  let after := (s.reverse.takeWhile (· ≠ '*')).reverse
  let before := s.take (s.length - after.length)
  match after.dropWhile (· ≠ '.') with
  | [] => do
      match (s.dropWhile (· ≠ '*')).dropWhile (· ≠ '.') with
      | [] => .error need
      | _ :: field => do
          checkField (String.ofList field)
          .error need
  | _ :: field =>
      let pattern := before ++ after.takeWhile (· ≠ '.')
      if pattern = [] ∨ field = [] then .error need else .ok (String.ofList pattern, String.ofList field)

/-- The field of a target that may repeat the pattern. -/
def fieldOf (pattern target : String) : Except String String :=
  let inside : Option (List Char) :=
    if pattern.toList.isPrefixOf target.toList then
      match target.toList.drop pattern.toList.length with
      | '.' :: field => some field
      | _ => none
    else none
  match inside with
  | some field => .ok (String.ofList field)
  | none =>
      if target.toList.contains '*' then
        .error s!"a condition tests fields of the documents of {pattern}, not of '{target}': {joinMessage}"
      else .ok target

/-- One condition, and whether it was written `not in`, `not like` or `not ilike`. -/
def parseOneCond [Arithmetic] (c : List Token) (pattern : Option String) : Except String (Cond × Bool × List Token) := do
  let (t, func, c) ← readTarget c
  let (target, glued, value) ← splitGlued t func
  let (opText, value, negated, c) ← match glued with
    | some op => .ok (op, value, false, c)
    | none => readOp c
  match CmpOp.parse opText with
  | none => .error s!"unknown comparison operator '{opText}'"
  | some op =>
      let (value, c) ← match value with
        | some v => .ok (v, c)
        | none => readValue op c
      checkValue op value
      let (pattern, field) ← match pattern with
        | some p => (fieldOf p target).map fun field => (p, field)
        | none => splitTarget target
      checkField field
      return (⟨pattern, field, op, value, func⟩, negated, c)

/-- The tokens left, and the key pattern once a comparison has named it. -/
structure Cur where
  tokens : List Token
  pattern : Option String

abbrev Reader := Cur → Except String (Expr × Cur)

/-- Reads items with a keyword between them. -/
def readJoined (kw : String) (item : Reader) : Nat → Cur → Except String (List Expr × Cur)
  | 0, _ => .error usage
  | fuel + 1, c => do
      let (e, c) ← item c
      match c.tokens with
      | t :: rest =>
          if t.isKw kw then do
            let (es, c) ← readJoined kw item fuel ⟨rest, c.pattern⟩
            return (e :: es, c)
          else return ([e], c)
      | [] => return ([e], c)

def readAnd (unary : Reader) (c : Cur) : Except String (Expr × Cur) := do
  let (parts, c) ← readJoined "and" unary (c.tokens.length + 1) c
  return (Expr.and parts, c)

def readOr (unary : Reader) (c : Cur) : Except String (Expr × Cur) := do
  let (parts, c) ← readJoined "or" (readAnd unary) (c.tokens.length + 1) c
  return (Expr.or parts, c)

def depthMessage : String := s!"a query nests and / or / not at most {maxDepth} levels deep"

/-- Reads what `and` joins; the first argument is how many levels may still be nested. -/
def readUnary [Arithmetic] (zone : Time.Zone) : Nat → Reader
  | 0, _ => .error depthMessage
  | levels + 1, c =>
      match c.tokens with
      | t :: rest =>
          if t.isKw "not" then do
            let (e, c) ← readUnary zone levels ⟨rest, c.pattern⟩
            return (Expr.negate e, c)
          else if t.kind = .lParen then do
            let (e, c) ← readOr (readUnary zone levels) ⟨rest, c.pattern⟩
            match c.tokens with
            | t :: rest => if t.kind = .rParen then return (e, ⟨rest, c.pattern⟩) else .error "missing ')' to close the '('"
            | [] => .error "missing ')' to close the '('"
          else readTest c
      | [] => readTest c
where
  readTest (c : Cur) : Except String (Expr × Cur) := do
    let (cond, negated, rest) ← parseOneCond c.tokens c.pattern
    let e ← Expr.ofCond zone cond
    return (if negated then Expr.negate e else e, ⟨rest, c.pattern.or (some cond.pattern)⟩)

/-- The condition of a query, with its key pattern, and the tokens left. -/
def parseQuery [Arithmetic] (zone : Time.Zone) (c : List Token) (pattern : Option String) :
    Except String (String × Expr × List Token) := do
  let (expr, c) ← readOr (readUnary zone (maxDepth + 1)) ⟨c, pattern⟩
  expr.checkSize
  match c.tokens with
  | t :: _ =>
      if t.kind = .comma then .error operatorMessage
      else if t.kind = .rParen then .error "')' without its '('"
      else if t.isKw "group" ∨ t.isKw "order" then .ok ()
      else refuseUnsupported (some t)
  | [] => .ok ()
  match c.pattern with
  | some p => return (p, expr, c.tokens)
  | none => .error usage

end Query

end

end KivaDb
