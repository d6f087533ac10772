import KivaDb.Engine.Chunks
import KivaDb.Engine.Libraries
import KivaDb.Engine.Reads
import KivaDb.Lib.Pages

namespace KivaDb.Engine

open Lib Lib.Fallible Glob Relation

section

variable [External] [Chrono] [Vectors]

/-- A call answers `r`, and only drops keys whose TTL had elapsed. -/
def Gives {α : Type} (now : Int64) (m : M α) (i : Inner) (r : Result α) : Prop :=
  ∃ i', ReflTransGen (Drop now) i i' ∧ m i = match r with
    | .ok a => .ok a i'
    | .error e => .error e i'

namespace Gives

variable {α β : Type} {now : Int64} {i : Inner}

theorem pure (a : α) : Gives now (pure a) i (.ok a) := ⟨i, .refl, rfl⟩

theorem step {m : M α} {f : α → M β} {a : α} {r : Result β} {j : Inner} (hij : ReflTransGen (Drop now) i j)
    (hm : m i = .ok a j) (hf : Gives now (f a) j r) : Gives now (m >>= f) i r := by
  obtain ⟨k, hjk, hk⟩ := hf
  refine ⟨k, hij.trans hjk, ?_⟩
  show EStateM.bind m f i = _
  rw [EStateM.bind, hm]
  exact hk

theorem bind_ok {m : M α} {f : α → M β} {a : α} {r : Result β} (hm : Gives now m i (.ok a))
    (hf : ∀ j, ReflTransGen (Drop now) i j → Gives now (f a) j r) : Gives now (m >>= f) i r := by
  obtain ⟨j, hij, hj⟩ := hm
  exact step hij hj (hf j hij)

theorem bind_error {m : M α} {f : α → M β} {e : KivaError} (hm : Gives now m i (.error e)) :
    Gives now (m >>= f) i (.error e) := by
  obtain ⟨j, hij, hj⟩ := hm
  refine ⟨j, hij, ?_⟩
  show EStateM.bind m f i = _
  rw [EStateM.bind, hj]

theorem map {m : M α} {r : Result α} (hm : Gives now m i r) (f : α → β) :
    Gives now (m >>= fun a => Pure.pure (f a)) i (r.map f) := by
  rcases r with e | a
  · exact bind_error hm
  · exact bind_ok hm fun j _ => pure (f a)

theorem get {f : Inner → M β} {r : Result β} (h : Gives now (f i) i r) : Gives now (MonadState.get >>= f) i r := h

theorem attempt (r : Result α) : Gives now (attempt r) i r := by
  refine ⟨i, .refl, ?_⟩
  rcases r with e | a
  · rfl
  · rfl

end Gives

variable [Codec]

/-- What is asked: keys of a pattern whose documents pass a condition. -/
structure Query where
  pattern : String
  matchesView : DocView → Bool

structure ReadOpts where
  limit : Nat
  after : Option String
  reverse : Bool

/-- Where the documents of a query come from: keys given by the indexes, sorted,
or the keys of the pattern's prefix, read a few at a time. -/
inductive Source
  | keys (ks : List String) (sorted : ks.Pairwise (· < ·))
  | prefixed

abbrev Row := String × Value

/-- The keys of a list behind `after`, as they are to be read. -/
def slice (ks : List String) (after : Option String) (reverse : Bool) : List String :=
  match after, reverse with
  | some a, true => (ks.takeWhile (· < a)).reverse
  | some a, false => ks.dropWhile (· ≤ a)
  | none, true => ks.reverse
  | none, false => ks

/-- The document of a key that a query asks for at `now`. -/
def found (i : Inner) (q : Query) (now : Int64) (key : String) : Result (Option Value) :=
  if !globMatch q.pattern key then .ok none
  else
    match i.at? key now with
    | none => .ok none
    | some e =>
        if !e.ty.isDoc then .ok none
        else do
          let value ← i.readValue key e
          match DocView.of value with
          | none => .ok none
          | some doc => .ok (if q.matchesView doc then some value else none)

theorem found_drops {i j : Inner} {now : Int64} (h : ReflTransGen (Drop now) i j) (q : Query) (k : String) :
    found j q now k = found i q now k := by
  have hf : j.file = i.file := by rw [Drop.frame_star h]
  have hk : j.keys = i.keys := by rw [Drop.frame_star h]
  simp only [found, Drop.at?_star h (Int64.le_refl now), Inner.readValue, readRaw_congr hf hk]

theorem found_none {i : Inner} {now : Int64} {k : String} (h : i.at? k now = none) (q : Query) :
    found i q now k = .ok none := by
  rw [found, h]
  split
  · rfl
  · rfl

/-- The keys a query reads. -/
def Source.candidates (source : Source) (i : Inner) (q : Query) (opts : ReadOpts) : List String :=
  match source with
  | .keys ks _ => slice ks opts.after opts.reverse
  | .prefixed => keysFrom i.index (globPrefix q.pattern) opts.after opts.reverse

/-- A source that gives `k`, when it is of the query. -/
def Source.Offers (source : Source) (k : String) : Prop :=
  match source with
  | .keys ks _ => k ∈ ks
  | .prefixed => True

theorem found_some {i : Inner} {q : Query} {now : Int64} {k : String} {v : Value} (h : found i q now k = .ok (some v)) :
    (i.index[k]?).isSome = true ∧ globPrefix q.pattern <+: k.toList := by
  have hat : i.at? k now ≠ none := by
    intro hnone
    rw [found_none hnone] at h
    exact nomatch h
  have hglob : globMatch q.pattern k = true := by
    by_contra hglob
    rw [found, if_pos (by simpa using hglob)] at h
    exact nomatch h
  refine ⟨?_, globPrefix_prefix hglob⟩
  rcases he : i.index[k]? with _ | e
  · rw [Inner.at?, he] at hat
    exact absurd rfl hat
  · rfl

section Page

variable {i : Inner} {q : Query} {now : Int64} {opts : ReadOpts} {source : Source}

end Page

/-- Sources that give every document of the query, on whatever page. -/
def Serves (choose : Inner → ReadOpts → Source) (i : Inner) (q : Query) (now : Int64) : Prop :=
  ∀ j, ReflTransGen (Drop now) i j → ∀ opts k v, found i q now k = .ok (some v) → (choose j opts).Offers k

theorem Serves.drops {choose : Inner → ReadOpts → Source} {i j : Inner} {q : Query} {now : Int64}
    (h : Serves choose i q now) (hij : ReflTransGen (Drop now) i j) : Serves choose j q now := by
  intro j' hj opts k v hk
  rw [found_drops hij] at hk
  exact h j' (hij.trans hj) opts k v hk

end

section Samples

open Reference

def named (n : String) : Json := .object [("name", .string n)]

local instance pagingCodec : Codec := codec [named "ann", named "bob", named "cid"]

end Samples

end KivaDb.Engine
