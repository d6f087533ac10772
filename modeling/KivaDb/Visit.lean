import KivaDb.Like
import KivaDb.Engine.Chunks

namespace KivaDb

open Lib.Calendar Like

namespace SKey

def fromJson (j : Json) : Option SKey := (Scalar.fromJson j).map .one

/-- An end of a range of indexed values. -/
inductive Bound
  | included (k : SKey)
  | excluded (k : SKey)
  | unbounded

namespace Bound

def below : Bound → SKey → Bool
  | included a, k => (SKey.cmp a k).isLE
  | excluded a, k => (SKey.cmp a k).isLT
  | unbounded, _ => true

def above : Bound → SKey → Bool
  | included b, k => (SKey.cmp k b).isLE
  | excluded b, k => (SKey.cmp k b).isLT
  | unbounded, _ => true

/-- The ranges that stop the program. -/
def panics : Bound → Bound → Bool
  | excluded a, excluded b => (SKey.cmp b a).isLE
  | included a, included b => (SKey.cmp b a).isLT
  | included a, excluded b => (SKey.cmp b a).isLT
  | excluded a, included b => (SKey.cmp b a).isLT
  | _, _ => false

end Bound

/-- The postings of a range of values, in order. -/
def range (m : Postings) (lo hi : Bound) : Option (List (SKey × KeySet)) :=
  if Bound.panics lo hi then none else some (m.toList.filter fun p => lo.below p.1 && hi.above p.1)

def startsWith (pre : List Char) : SKey → Bool
  | one (.str t) => pre.isPrefixOf t.toList
  | _ => false

end SKey

section

variable [Chrono] [Zones] [Codec]

/-- The date `n` days after a moment in UTC, as a text: none out of the dates there are. -/
def dayText (moment : Chrono.DateTime) (n : Int) : Option String :=
  let d := (Zones.wall Zones.utc moment).1.addDays n
  if -262143 ≤ d.year ∧ d.year ≤ 262142 then some (Time.dateText d) else none

namespace Cond

/-- The order of an indexed value and the value of a condition, of one kind. -/
def keyOrder (sk : SKey) (v : Json) : Option Ordering :=
  match sk, v with
  | .one .null, .null => some .eq
  | .one (.bool a), .bool b => some (compare a b)
  | .one (.num a), .number n => some (a.cmpJson n)
  | .one (.str a), .string b => some (compare a b)
  | _, _ => none

/-- Whether an indexed value satisfies the condition. -/
def admits (c : Cond) (zone : Zones.Zone) (sk : SKey) : Bool :=
  match tagged c.value with
  | some _ =>
      match sk with
      | .one (.str s) => c.test zone (.string s)
      | _ => false
  | none =>
      match c.op with
      | .eq => keyOrder sk c.value = some .eq
      | .in_ =>
          match c.value with
          | .array list => list.any fun v => keyOrder sk v = some .eq
          | _ => false
      | .like =>
          match sk, c.value with
          | .one (.str t), .string p => likeMatch t p false
          | _, _ => false
      | .ilike =>
          match sk, c.value with
          | .one (.str t), .string p => likeMatch t p true
          | _, _ => false
      | .gt => keyOrder sk c.value = some .gt
      | .ge => keyOrder sk c.value = some .gt ∨ keyOrder sk c.value = some .eq
      | .lt => keyOrder sk c.value = some .lt
      | .le => keyOrder sk c.value = some .lt ∨ keyOrder sk c.value = some .eq
      | .ne => false

/-- Where the texts of moments are read from: two days before, where there is a lower end. -/
def lowEnd (op : CmpOp) (moment : Chrono.DateTime) : Option SKey.Bound :=
  match op with
  | .gt => (dayText moment (-2)).map fun s => .included (.one (.str s))
  | .ge => (dayText moment (-2)).map fun s => .included (.one (.str s))
  | .eq => (dayText moment (-2)).map fun s => .included (.one (.str s))
  | _ => some .unbounded

/-- Where they end: three days after, where there is an upper end. -/
def highEnd (op : CmpOp) (moment : Chrono.DateTime) : Option SKey.Bound :=
  match op with
  | .lt => (dayText moment 3).map fun s => .excluded (.one (.str s))
  | .le => (dayText moment 3).map fun s => .excluded (.one (.str s))
  | .eq => (dayText moment 3).map fun s => .excluded (.one (.str s))
  | _ => some .unbounded

end Cond

namespace SecIndex

/-- The postings of moments that satisfy the condition: the texts of the dates around,
and of these the ones that pass. -/
def moments (idx : SecIndex) (zone : Zones.Zone) (c : Cond) (text : String) : Option (List (SKey × KeySet)) :=
  match Zones.parseDatetime text Zones.utc with
  | none => some []
  | some moment => do
      let lo ← Cond.lowEnd c.op moment
      let hi ← Cond.highEnd c.op moment
      let found ← SKey.range idx.map lo hi
      return found.filter fun p => c.admits zone p.1

/-- The postings of one value. -/
def posting (idx : SecIndex) (v : Json) : List (SKey × KeySet) :=
  match SKey.fromJson v with
  | none => []
  | some sk => (idx.map[sk]?.map fun set => (sk, set)).toList

/-- The postings of the texts like a pattern: in a B-tree, those that start with its
prefix. -/
def alike (idx : SecIndex) (zone : Zones.Zone) (c : Cond) (pattern : String) : Option (List (SKey × KeySet)) :=
  let pre := if c.op = .ilike then "" else likePrefix pattern
  if idx.kind = .btree ∧ pre ≠ "" then do
    let found ← SKey.range idx.map (.included (.one (.str pre))) .unbounded
    return (found.takeWhile fun p => p.1.startsWith pre.toList).filter fun p => c.admits zone p.1
  else some (idx.map.toList.filter fun p => c.admits zone p.1)

/-- The postings of a range of values of one kind, from the value on. -/
def beyond (idx : SecIndex) (op : CmpOp) (sk : SKey) : Option (List (SKey × KeySet)) :=
  match op with
  | .gt => (SKey.range idx.map (.excluded sk) .unbounded).map (·.takeWhile fun p => p.1.sameKind sk)
  | .ge => (SKey.range idx.map (.included sk) .unbounded).map (·.takeWhile fun p => p.1.sameKind sk)
  | .lt => (SKey.range idx.map .unbounded (.excluded sk)).map (·.reverse.takeWhile fun p => p.1.sameKind sk)
  | .le => (SKey.range idx.map .unbounded (.included sk)).map (·.reverse.takeWhile fun p => p.1.sameKind sk)
  | _ => some []

/-- The postings visited for a condition, in order; none where the program stops. -/
def visited (idx : SecIndex) (zone : Zones.Zone) (c : Cond) : Option (List (SKey × KeySet)) :=
  match tagged c.value, idx.kind with
  | some (.datetime, text), .btree => idx.moments zone c text
  | _, _ =>
      match c.op with
      | .eq => some (idx.posting c.value)
      | .in_ =>
          match c.value with
          | .array list => some (list.flatMap idx.posting)
          | _ => some []
      | .like =>
          match c.value with
          | .string pattern => idx.alike zone c pattern
          | _ => some []
      | .ilike =>
          match c.value with
          | .string pattern => idx.alike zone c pattern
          | _ => some []
      | op =>
          match SKey.fromJson c.value, idx.kind with
          | some sk, .btree => idx.beyond op sk
          | _, _ => some []

/-- Calls `f` with each set in turn, until it answers false. -/
def offer {σ : Type} (f : KeySet → σ → σ × Bool) : List KeySet → σ → σ
  | [], s => s
  | set :: sets, s =>
      match f set s with
      | (s, true) => offer f sets s
      | (s, false) => s

/-- Calls `f` with the keys of each indexed value satisfying the condition, until it
answers false. -/
def visitPostings {σ : Type} (idx : SecIndex) (zone : Zones.Zone) (c : Cond) (f : KeySet → σ → σ × Bool) (s : σ) :
    Option σ :=
  (idx.visited zone c).map fun found => offer f (found.map Prod.snd) s

/-- An `f` that never answers false is called with every set. -/
theorem visitPostings_all {idx : SecIndex} {zone : Zones.Zone} {c : Cond} {found : List (SKey × KeySet)}
    (h : idx.visited zone c = some found) :
    idx.visitPostings zone c (fun set sets => (sets ++ [set], true)) [] = some (found.map Prod.snd) := by
  have hoffer (l acc : List KeySet) : offer (fun set sets => (sets ++ [set], true)) l acc = acc ++ l := by
    induction l generalizing acc with
    | nil => rw [offer, List.append_nil]
    | cons set l ih =>
        rw [offer]
        simp only [ih, List.append_assoc, List.singleton_append]
  rw [visitPostings, h, Option.map_some, hoffer, List.nil_append]

omit [Chrono] [Zones] [Codec] in
theorem mem_range {m : Postings} {lo hi : SKey.Bound} {found : List (SKey × KeySet)} (h : SKey.range m lo hi = some found)
    {sk : SKey} {set : KeySet} :
    (sk, set) ∈ found ↔ (sk, set) ∈ m.toList ∧ lo.below sk = true ∧ hi.above sk = true := by
  unfold SKey.range at h
  split at h
  · exact nomatch h
  · rw [← Option.some.inj h, List.mem_filter, Bool.and_eq_true]

omit [Chrono] [Zones] [Codec] in
theorem mem_add (m : Postings) (sk : SKey) (key : String) : ∃ set, (sk, set) ∈ (Postings.add m sk key).toList := by
  refine ⟨(m[sk]?.getD ∅).insert key, ?_⟩
  rw [Postings.add, Std.ExtTreeMap.mem_toList_iff_getKey?_eq_some_and_getElem?_eq_some]
  exact ⟨Std.ExtTreeMap.getKey?_insert_self, Std.ExtTreeMap.getElem?_insert_self⟩

/-- An indexed text that satisfies the condition. -/
def Passes (idx : SecIndex) (zone : Zones.Zone) (c : Cond) (v : String) : Prop :=
  (∃ set, (SKey.one (.str v), set) ∈ idx.map.toList) ∧ c.test zone (.string v) = true

section

variable {idx : SecIndex} {zone : Zones.Zone} {c : Cond} {text : String} {moment : Chrono.DateTime}

end

end SecIndex

end

section Samples

open SecIndex Engine

local instance epochSeconds : Chrono where
  DateTime := Int
  NaiveTime := Nat
  decEqDateTime := inferInstance
  decEqNaiveTime := inferInstance
  iso t := Int.repr t
  timeText t := Nat.repr t
  parseDatetime _ := none
  parseTime _ := none

/-- One moment read, with blanks around it or not. -/
local instance readsMoment : Zones where
  Zone := Unit
  utc := ()
  parseDate _ := none
  parseDatetime s _ := if JsonPath.trim s.toList = "1970-01-05T00:00:00Z".toList then some (345600 : Int) else none
  wall _ := fun t : Int => (Date.epoch.addDays (t / 86400), (t % 86400).toNat)
  cmpDateTime := fun s t : Int => compare s t
  cmpTime := fun s t : Nat => compare s t
  hour := fun t : Nat => t / 3600
  minute := fun t : Nat => t / 60 % 60
  second := fun t : Nat => t % 60

local instance noCodec : Codec where
  lowercase := String.toLower
  jsonText _ := ""
  sameValue _ _ := false
  encodeStored _ _ := .error (.corrupted "no document is stored")
  decode _ _ _ := .error (.corrupted "no document is read")

end Samples

end KivaDb
