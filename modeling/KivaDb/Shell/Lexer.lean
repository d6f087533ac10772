import KivaDb.Doc

namespace KivaDb.Lexer

open JsonPath (isWhitespace)

inductive Kind
  | bare
  | dQuote
  | sQuote
  | backtick
  | json
  | comma
  | lParen
  | rParen
  deriving DecidableEq, Repr

structure Token where
  text : String
  kind : Kind
  /-- Byte offset of the token in the input line. -/
  start : Nat
  stop : Nat
  deriving DecidableEq, Repr

def Token.isQuoted (t : Token) : Bool := t.kind = .dQuote || t.kind = .sQuote

def Token.isBare (t : Token) : Bool := t.kind = .bare

/-- Keywords are read without regard to capitals; quoted text is never one. -/
def Token.isKw (t : Token) (kw : String) : Bool := t.kind = .bare && t.text.toLower == kw.toLower

/-- The loop the scanner is in: between tokens and in words, in a quoted text, or in one
JSON literal. -/
inductive Mode
  | word
  | quote (q : Char) (start : Nat) (text : List Char)
  | literal (opening : Char) (start : Nat) (text : List Char) (depth : Nat) (inStr escaped : Bool)
  deriving DecidableEq, Repr

structure Scan where
  pos : Nat
  mode : Mode
  tokens : List Token
  current : List Char
  curStart : Nat
  deriving DecidableEq, Repr

namespace Scan

def init : Scan := ⟨0, .word, [], [], 0⟩

/-- Ends the current word. -/
def flush (s : Scan) : Scan :=
  if s.current.isEmpty then s
  else { s with tokens := s.tokens ++ [⟨String.ofList s.current, .bare, s.curStart, s.pos⟩], current := [] }

def push (s : Scan) (t : Token) : Scan := { s with tokens := s.tokens ++ [t] }

end Scan

def isQuote (c : Char) : Bool := c = '"' || c = '\'' || c = '`'

def isOpening (c : Char) : Bool := c = '[' || c = '{'

def isClosing (c : Char) : Bool := c = ']' || c = '}'

def quoteKind (q : Char) : Kind := if q = '"' then .dQuote else if q = '\'' then .sQuote else .backtick

/-- The separators that are tokens of their own. -/
def separator (c : Char) : Option Kind :=
  if c = ',' then some .comma else if c = '(' then some .lParen else if c = ')' then some .rParen else none

/-- A character between tokens or in a word. -/
def wordStep (s : Scan) (c : Char) : Scan :=
  let next := s.pos + c.utf8Size
  if isQuote c then { s.flush with pos := next, mode := .quote c s.pos [] }
  else if isOpening c ∧ s.current.isEmpty then { s with pos := next, mode := .literal c s.pos [c] 1 false false }
  else
    match separator c with
    | some kind => { s.flush.push ⟨String.ofList [c], kind, s.pos, s.pos + 1⟩ with pos := next }
    | none =>
        if isWhitespace c then { s.flush with pos := next }
        else
          { s with
            pos := next
            current := s.current ++ [c]
            curStart := if s.current.isEmpty then s.pos else s.curStart }

def quoteStep (s : Scan) (q : Char) (start : Nat) (text : List Char) (c : Char) : Scan :=
  let next := s.pos + c.utf8Size
  if c = q then { s.push ⟨String.ofList text, quoteKind q, start, s.pos + 1⟩ with pos := next, mode := .word }
  else { s with pos := next, mode := .quote q start (text ++ [c]) }

def literalStep (s : Scan) (opening : Char) (start : Nat) (text : List Char) (depth : Nat) (inStr escaped : Bool)
    (c : Char) : Scan :=
  let next := s.pos + c.utf8Size
  let goes (depth : Nat) (inStr escaped : Bool) : Scan :=
    { s with pos := next, mode := .literal opening start (text ++ [c]) depth inStr escaped }
  if inStr then
    if escaped then goes depth true false
    else if c = '\\' then goes depth true true
    else goes depth (c != '"') false
  else if c = '"' then goes depth true escaped
  else if isOpening c then goes (depth + 1) false escaped
  else if isClosing c then
    if depth - 1 = 0 then { s.push ⟨String.ofList (text ++ [c]), .json, start, next⟩ with pos := next, mode := .word }
    else goes (depth - 1) false escaped
  else goes depth false escaped

def step (s : Scan) (c : Char) : Scan :=
  match s.mode with
  | .word => wordStep s c
  | .quote q start text => quoteStep s q start text c
  | .literal opening start text depth inStr escaped => literalStep s opening start text depth inStr escaped c

def unclosedQuote (q : Char) : String := s!"Syntax Error: Unclosed quote detected ({q})."

def unclosedBracket (c : Char) : String := s!"Syntax Error: Unclosed bracket detected ({c})."

def finish (s : Scan) : Except String (List Token) :=
  match s.mode with
  | .word => .ok s.flush.tokens
  | .quote q _ _ => .error (unclosedQuote q)
  | .literal opening _ _ _ _ _ => .error (unclosedBracket opening)

def scan (input : List Char) : Scan := input.foldl step .init

def tokenize (input : List Char) : Except String (List Token) := finish (scan input)

example : (tokenize "set k [1, [2]] and".toList).map (List.map Token.text) = .ok ["set", "k", "[1, [2]]", "and"] := by
  decide

end KivaDb.Lexer
