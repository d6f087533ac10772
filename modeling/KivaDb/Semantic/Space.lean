import KivaDb.Glob
import KivaDb.Doc
import KivaDb.Lib.Tally
import Mathlib.Data.Finset.Sort
import Mathlib.Data.String.Basic

namespace KivaDb.Semantic

open Std Glob

/-- Ids under keys or patterns. -/
abbrev Deps := ExtTreeMap String (Finset String) compare

namespace Deps

def at_ (m : Deps) (p : String) : Finset String := m[p]?.getD ∅

def add (m : Deps) (p id : String) : Deps := m.insert p (insert id (m.at_ p))

def drop (m : Deps) (p id : String) : Deps :=
  match m[p]? with
  | none => m
  | some ids => if ids.erase id = ∅ then m.erase p else m.insert p (ids.erase id)

end Deps

/-- An answer kept for a question. -/
structure Entry where
  answer : Json
  text : Option String
  hasVector : Bool
  created : Int
  /-- Unix time after which it is gone; 0 = never. -/
  expiresAt : Int
  depends : List String
  hits : Nat

def Entry.alive (e : Entry) (now : Int) : Bool := e.expiresAt = 0 || now < e.expiresAt

abbrev Entries := ExtTreeMap String Entry compare

/-- What the cache leaves to others: the graph of vectors, which only returns ids the
filter accepts, and which of the oldest entries a hash map shows first. -/
class Ground where
  F32 : Type
  isZero : F32 → Bool
  le : F32 → F32 → Bool
  one : F32
  /-- From this similarity on, two questions are the same. -/
  same : F32
  maxDims : Nat
  lowercase : String → String
  Graph : Type
  new : Graph
  insert : Graph → String → List F32 → Graph
  remove : Graph → String → Graph
  tidy : Graph → Graph
  search : Graph → List F32 → (String → Bool) → List String
  score : Graph → List F32 → String → Option F32
  oldest : Entries → Option String
  accepted : ∀ g v f id, id ∈ search g v f → f id = true
  oldest_none : ∀ m, oldest m = none → m.size = 0
  oldest_some : ∀ m id, oldest m = some id →
    ∃ e : Entry, m[id]? = some e ∧ ∀ (id' : String) (e' : Entry), m[id']? = some e' → e.created ≤ e'.created

/-- One named cache of one workspace. `broken` is set where a counter would go below
zero. -/
structure Space [Ground] where
  graph : Ground.Graph
  dims : Option Nat
  entries : Entries
  /-- Normalized question text -> entry id. -/
  texts : ExtTreeMap String String compare
  /-- Plain key -> entries that depend on it. -/
  keys : Deps
  /-- Patterns grouped by their text before the first wildcard. -/
  patterns : ExtTreeMap String Deps compare
  /-- The lengths of those texts, with how many groups have each. -/
  literalLens : ExtTreeMap Nat Nat compare
  next : Nat
  hits : Nat
  misses : Nat
  invalidated : Nat
  broken : Bool

/-- The text of a pattern before its first wildcard; `none` for a plain key. -/
def literal (p : String) : Option String :=
  if p.toList.any isWild then some (String.ofList (globPrefix p)) else none

def byteLen (cs : List Char) : Nat := (cs.map Char.utf8Size).sum

def len (s : String) : Nat := byteLen s.toList

/-- The first `n` bytes, where they end with a character. -/
def takeBytes : List Char → Nat → Option (List Char)
  | _, 0 => some []
  | [], _ + 1 => none
  | c :: cs, n + 1 => if c.utf8Size ≤ n + 1 then (takeBytes cs (n + 1 - c.utf8Size)).map (c :: ·) else none

namespace Space

variable [Ground]

def new : Space where
  graph := Ground.new
  dims := none
  entries := ∅
  texts := ∅
  keys := ∅
  patterns := ∅
  literalLens := ∅
  next := 0
  hits := 0
  misses := 0
  invalidated := 0
  broken := false

/-- Entry `id` depends on the key or pattern `p`. -/
def addDep (s : Space) (p id : String) : Space :=
  match literal p with
  | none => { s with keys := s.keys.add p id }
  | some lit =>
      let lens := match s.patterns[lit]? with
        | some _ => s.literalLens
        | none => s.literalLens.insert (len lit) (s.literalLens[len lit]?.getD 0 + 1)
      { s with literalLens := lens, patterns := s.patterns.insert lit (Deps.add (s.patterns[lit]?.getD ∅) p id) }

/-- One group less has a text of this length. -/
def lessLen (s : Space) (n : Nat) : Space :=
  match s.literalLens[n]? with
  | none => s
  | some 0 => { s with broken := true }
  | some 1 => { s with literalLens := s.literalLens.erase n }
  | some (k + 2) => { s with literalLens := s.literalLens.insert n (k + 1) }

def dropDep (s : Space) (p id : String) : Space :=
  match literal p with
  | none => { s with keys := s.keys.drop p id }
  | some lit =>
      match s.patterns[lit]? with
      | none => s
      | some group =>
          if (group.drop p id).isEmpty then
            { s with patterns := s.patterns.erase lit }.lessLen (len lit)
          else { s with patterns := s.patterns.insert lit (group.drop p id) }

/-- Rebuilds the graph where it needs it. -/
def tidied (s : Space) : Space := { s with graph := Ground.tidy s.graph }

/-- Without the entry `e` of `id`, which the indexes still name. -/
def taken (s : Space) (id : String) (e : Entry) : Space where
  graph := if e.hasVector then Ground.remove s.graph id else s.graph
  dims := s.dims
  entries := s.entries.erase id
  texts := match e.text with
    | some t => if s.texts[t]? = some id then s.texts.erase t else s.texts
    | none => s.texts
  keys := s.keys
  patterns := s.patterns
  literalLens := s.literalLens
  next := s.next
  hits := s.hits
  misses := s.misses
  invalidated := s.invalidated
  broken := s.broken

def remove (s : Space) (id : String) : Space :=
  match s.entries[id]? with
  | none => s.tidied
  | some e => (e.depends.foldl (fun s p => s.dropDep p id) (s.taken id e)).tidied

def purge (s : Space) (now : Int) : Space :=
  ((s.entries.toList.filter fun p => !p.2.alive now).map Prod.fst).foldl remove s

/-- The entries that depend on `key`. Only the patterns whose text before the wildcard
begins the key can match it. -/
def stale (s : Space) (key : String) : Finset String :=
  s.keys.at_ key ∪
    ((s.literalLens.keys.filter (· ≤ len key)).foldr (fun n ids =>
      (match (takeBytes key.toList n).bind fun lit => s.patterns[String.ofList lit]? with
        | none => ∅
        | some group => (group.toList.filter fun p => globMatch p.1 key).foldr (fun p ids => p.2 ∪ ids) ∅) ∪ ids) ∅)

/-- Drops the entries that depend on `key`, and says how many. -/
def invalidate (s : Space) (key : String) : Space × Nat :=
  let stale := (s.stale key).sort (· ≤ ·)
  let s := stale.foldl remove s
  ({ s with invalidated := s.invalidated + stale.length }, stale.length)

/-- The closest live question to `vector`, with its similarity. -/
def nearest (s : Space) (vector : List Ground.F32) (now : Int) : Option (String × Ground.F32) := do
  let id ← (Ground.search s.graph vector fun id => (s.entries[id]?).any fun e => e.alive now).head?
  let score ← Ground.score s.graph vector id
  return (id, score)

end Space

end KivaDb.Semantic
