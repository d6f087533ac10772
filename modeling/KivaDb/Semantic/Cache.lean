import KivaDb.External
import KivaDb.Semantic.Space

namespace KivaDb.Semantic

open Std Glob

/-- Writes remembered per workspace for `since` checks. -/
def JOURNAL : Nat := 10000

structure Question [Ground] where
  text : Option String
  vector : Option (List Ground.F32)

/-- Text compared for exact repeats: trimmed, lower case, spaces collapsed. -/
def normalize [Ground] (text : String) : String :=
  let words := (text.toList.splitOnP JsonPath.isWhitespace).filter fun w => !w.isEmpty
  Ground.lowercase (" ".intercalate (words.map String.ofList))

inductive Lookup [Ground]
  | hit (id : String) (similarity : Ground.F32) (answer : Json)
  | miss (best : Option Ground.F32) (since : Nat)

inductive Stored
  | kept (id : String)
  | stale (why : String)

def wrongDims (d n : Nat) : KivaError :=
  .invalid s!"this cache holds vectors of {d} dimensions, the question has {n}"

/-- Recent writes of one workspace, to check `since` tokens. -/
structure Journal where
  seq : Nat
  /-- Tokens below it can no longer be checked. -/
  floor : Nat
  recent : List (Nat × String)

namespace Journal

/-- Begins at the time in microseconds, different at every start. -/
def new (micros : Nat) : Journal := { seq := micros, floor := micros, recent := [] }

def record (j : Journal) (key : String) : Journal :=
  match j.recent ++ [(j.seq + 1, key)] with
  | [] => { j with seq := j.seq + 1 }
  | first :: rest =>
      if rest.length + 1 > JOURNAL then { seq := j.seq + 1, floor := first.1, recent := rest }
      else { j with seq := j.seq + 1, recent := first :: rest }

/-- Why an answer computed at `since` and depending on `depends` may be stale. -/
def stale (j : Journal) (since : Nat) (depends : List String) : Option String :=
  if since < j.floor ∨ since > j.seq then
    some s!"since {since} is too old to check (more than {JOURNAL} writes, a reset or a restart after it)"
  else
    let changed := (j.recent.reverse.takeWhile fun w => since < w.1).map Prod.snd
    (changed.find? fun k => depends.any fun p => globMatch p k).map fun k => s!"{k} changed"

def reset (j : Journal) : Journal := { seq := j.seq + 1, floor := j.seq + 1, recent := [] }

end Journal

namespace Space

variable [Ground]

/-- The live entry of a question asked again word for word. -/
def exact (s : Space) (q : Question) (now : Int) : Option String :=
  ((q.text.map normalize).bind fun t => s.texts[t]?).filter fun id => (s.entries[id]?).any fun e => e.alive now

/-- Gives the answer of `id`; nothing where the entry is not there, on which the code panics. -/
def hit (s : Space) (name id : String) (similarity : Ground.F32) : Space × Option (Except KivaError Lookup) :=
  match s.entries[id]? with
  | none => (s, none)
  | some e =>
      ({ s with hits := s.hits + 1, entries := s.entries.insert id { e with hits := e.hits + 1 } },
        some (.ok (.hit s!"{name}:{id}" similarity e.answer)))

def miss (s : Space) (best : Option Ground.F32) (since : Nat) : Space × Option (Except KivaError Lookup) :=
  ({ s with misses := s.misses + 1 }, some (.ok (.miss best since)))

def lookup (s : Space) (name : String) (q : Question) (threshold : Ground.F32) (now : Int) (since : Nat) :
    Space × Option (Except KivaError Lookup) :=
  match s.exact q now with
  | some id => s.hit name id Ground.one
  | none =>
      match q.vector with
      | none => s.miss none since
      | some v =>
          match s.dims.filter (· ≠ v.length) with
          | some d => (s, some (.error (wrongDims d v.length)))
          | none =>
              match s.nearest v now with
              | none => s.miss none since
              | some (id, score) =>
                  if Ground.le threshold score then s.hit name id score else s.miss (some score) since

/-- Makes room for one entry more. Each round takes one away, so as many rounds as there are
entries are enough. -/
def evict (maxEntries : Nat) : Nat → Space → Space
  | 0, s => s
  | rounds + 1, s =>
      if maxEntries ≤ s.entries.size then
        match Ground.oldest s.entries with
        | some id => evict maxEntries rounds (s.remove id)
        | none => s
      else s

/-- The entry the same question has. -/
def same (s : Space) (q : Question) (now : Int) : Option String :=
  ((q.text.map normalize).bind fun t => s.texts[t]?) <|>
    ((q.vector.bind fun v => s.nearest v now).filter fun n => Ground.le Ground.same n.2).map Prod.fst

/-- The same question again replaces its entry. -/
def replaced (s : Space) (q : Question) (now : Int) : Space :=
  match s.same q now with
  | some old => s.remove old
  | none => s

/-- Without the old entries in the way of a new one. -/
def cleared (s : Space) (q : Question) (now : Int) (maxEntries : Nat) : Space :=
  ((s.purge now).replaced q now).evict maxEntries ((s.purge now).replaced q now).entries.size

/-- With the next id given to a question. -/
def numbered (s : Space) (q : Question) (text : Option String) : Space := { s with
  next := s.next + 1
  dims := match q.vector with
    | some v => some v.length
    | none => s.dims
  graph := match q.vector with
    | some v => Ground.insert s.graph (toString (s.next + 1)) v
    | none => s.graph
  texts := match text with
    | some t => s.texts.insert t (toString (s.next + 1))
    | none => s.texts }

/-- Keeps a new entry under the next id. -/
def add (s : Space) (q : Question) (e : Entry) : Space :=
  let id := toString (s.next + 1)
  let s := e.depends.foldl (fun s p => s.addDep p id) (s.numbered q e.text)
  { s with entries := s.entries.insert id e }

end Space

/-- Every semantic cache of an instance: per workspace, its caches by name, and from its
first lookup or store on, its recent writes. -/
structure State [Ground] where
  spaces : ExtTreeMap String (ExtTreeMap String Space compare) compare
  journals : ExtTreeMap String Journal compare

/-- What a call reads of the clock: seconds and microseconds since the epoch. -/
structure Moment where
  now : Nat
  micros : Nat

/-- An answer to store. -/
structure Storing [Ground] where
  workspace : String
  name : String
  q : Question
  answer : Json
  ttl : Int
  depends : List String
  maxEntries : Nat
  since : Option Nat

namespace Storing

variable [Ground]

def invalid (c : Storing) : Option KivaError :=
  if c.depends.any fun p => p.isEmpty then some (.invalid "depends needs key patterns, not empty text")
  else if c.q.text.isNone && c.q.vector.isNone then
    some (.invalid "give the question's text, its vector, or both")
  else if c.q.vector.any fun v => v.isEmpty || v.length > Ground.maxDims || v.all Ground.isZero then
    some (.invalid "the question's vector must have numbers, not all zero")
  else none

def expiresAt (c : Storing) (m : Moment) : Int := if 0 < c.ttl then m.now + c.ttl else 0

def entry (c : Storing) (m : Moment) : Entry where
  answer := c.answer
  text := c.q.text.map normalize
  hasVector := c.q.vector.isSome
  created := m.now
  expiresAt := c.expiresAt m
  depends := c.depends
  hits := 0

end Storing

namespace State

variable [Ground]

def new : State := { spaces := ∅, journals := ∅ }

def space (s : State) (workspace name : String) : Option Space := s.spaces[workspace]?.bind fun m => m[name]?

def setSpace (s : State) (workspace name : String) (sp : Space) : State :=
  { s with spaces := s.spaces.insert workspace ((s.spaces[workspace]?.getD ∅).insert name sp) }

/-- The journal of a workspace, begun now where there is none. -/
def journal (s : State) (workspace : String) (m : Moment) : Journal :=
  s.journals[workspace]?.getD (.new m.micros)

def journaled (s : State) (workspace : String) (m : Moment) : State :=
  { s with journals := s.journals.insert workspace (s.journal workspace m) }

def lookup (s : State) (m : Moment) (workspace name : String) (q : Question) (threshold : Ground.F32) :
    State × Option (Except KivaError Lookup) :=
  if q.text.isNone && q.vector.isNone then
    (s, some (.error (.invalid "give the question's text, its vector, or both")))
  else
    let since := (s.journal workspace m).seq
    let s := s.journaled workspace m
    match s.space workspace name with
    | none => (s, some (.ok (.miss none since)))
    | some sp =>
        let (sp, found) := sp.lookup name q threshold m.now since
        (s.setSpace workspace name sp, found)

/-- `store` is this without a token. -/
def storeSince (s : State) (m : Moment) (c : Storing) : State × Except KivaError Stored :=
  match c.invalid with
  | some err => (s, .error err)
  | none =>
      let j := s.journal c.workspace m
      let s := s.journaled c.workspace m
      match c.since.bind fun t => j.stale t c.depends with
      | some why => (s, .ok (.stale why))
      | none =>
          let sp := (s.space c.workspace c.name).getD .new
          match c.q.vector.bind fun v => (sp.dims.filter (v.length ≠ ·)).map fun d => (d, v.length) with
          | some (d, n) => (s.setSpace c.workspace c.name sp, .error (wrongDims d n))
          | none =>
              let sp := sp.cleared c.q m.now c.maxEntries
              let name := c.name
              let id := sp.next + 1
              (s.setSpace c.workspace c.name (sp.add c.q (c.entry m)), .ok (.kept s!"{name}:{id}"))

/-- `key` of the workspace was written, deleted or expired. -/
def invalidate (s : State) (workspace key : String) : State × Nat :=
  match s.journals[workspace]? with
  | none => (s, 0)
  | some j =>
      let journals := s.journals.insert workspace (j.record key)
      match s.spaces[workspace]? with
      | none => ({ s with journals }, 0)
      | some m =>
          ({ spaces := s.spaces.insert workspace (m.map fun _ sp => (sp.invalidate key).1), journals },
            (m.toList.map fun p => (p.2.invalidate key).2).sum)

/-- The whole workspace was emptied: every answer goes, and every token given before is
refused. -/
def reset (s : State) (workspace : String) : State where
  spaces := s.spaces.erase workspace
  journals := match s.journals[workspace]? with
    | none => s.journals
    | some j => s.journals.insert workspace j.reset

/-- Empties one cache, or every cache of the workspace. -/
def clear (s : State) (workspace : String) (name : Option String) : State × Nat :=
  match s.spaces[workspace]? with
  | none => (s, 0)
  | some m =>
      match name with
      | none => ({ s with spaces := s.spaces.erase workspace }, (m.toList.map fun p => p.2.entries.size).sum)
      | some n =>
          ({ s with spaces := s.spaces.insert workspace (m.erase n) }, (m[n]?.map fun sp => sp.entries.size).getD 0)

end State

inductive Call [Ground]
  | lookup (workspace name : String) (q : Question) (threshold : Ground.F32)
  | store (c : Storing)
  | invalidate (workspace key : String)
  | reset (workspace : String)
  | clear (workspace : String) (name : Option String)

section Runs

variable [Ground]

def step (s : State) : Moment × Call → State
  | (m, .lookup workspace name q threshold) => (s.lookup m workspace name q threshold).1
  | (m, .store c) => (s.storeSince m c).1
  | (_, .invalidate workspace key) => (s.invalidate workspace key).1
  | (_, .reset workspace) => s.reset workspace
  | (_, .clear workspace name) => (s.clear workspace name).1

def run (calls : List (Moment × Call)) : State := calls.foldl step .new

/-- The call says that something the answer depends on may have changed. -/
def Call.Touches (c : Storing) : Call → Prop
  | .invalidate workspace key => workspace = c.workspace ∧ ∃ p ∈ c.depends, globMatch p key = true
  | .reset workspace => workspace = c.workspace
  | _ => False

/-- The token a lookup of the workspace would give. -/
def State.token (s : State) (workspace : String) : Option Nat := s.journals[workspace]?.map Journal.seq

end Runs

end KivaDb.Semantic
