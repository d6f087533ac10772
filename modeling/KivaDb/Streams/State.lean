import KivaDb.Config
import KivaDb.Resp.Reply
import Mathlib.Order.Compare
import Mathlib.Order.Lattice
import Std.Data.ExtTreeMap

namespace KivaDb.Streams

open Lib.LittleEndian Resp

/-- A stream entry id, `<milliseconds>-<sequence>`. -/
structure Id where
  ms : UInt64
  seq : UInt64
  deriving DecidableEq

namespace Id

def zero : Id := ⟨0, 0⟩

def max : Id := ⟨0xFFFFFFFFFFFFFFFF, 0xFFFFFFFFFFFFFFFF⟩

def value (i : Id) : Nat := i.ms.toNat * 2 ^ 64 + i.seq.toNat

theorem value_injective : Function.Injective value := by
  intro i j h
  have hi := i.seq.toNat_lt
  have hj := j.seq.toNat_lt
  unfold value at h
  have hms : i.ms = j.ms := UInt64.toNat_inj.mp (by omega)
  have hseq : i.seq = j.seq := UInt64.toNat_inj.mp (by omega)
  cases i
  cases j
  cases hms
  cases hseq
  rfl

instance : LinearOrder Id := LinearOrder.lift' value value_injective

theorem lt_iff_value {i j : Id} : i < j ↔ i.value < j.value := Iff.rfl

theorem le_iff_value {i j : Id} : i ≤ j ↔ i.value ≤ j.value := Iff.rfl

/-- By time, then by number. -/
theorem lt_iff {i j : Id} : i < j ↔ i.ms < j.ms ∨ i.ms = j.ms ∧ i.seq < j.seq := by
  have hi := i.seq.toNat_lt
  have hj := j.seq.toNat_lt
  rw [lt_iff_value, value, value, UInt64.lt_iff_toNat_lt, UInt64.lt_iff_toNat_lt, ← UInt64.toNat_inj]
  omega

theorem value_lt (i : Id) : i.value < 2 ^ 128 := by
  have hi := i.ms.toNat_lt
  have hj := i.seq.toNat_lt
  rw [value]
  omega

theorem le_max (i : Id) : i ≤ max := by
  have hi := i.value_lt
  have hmax : max.value = 2 ^ 128 - 1 := by decide
  rw [le_iff_value, hmax]
  omega

theorem zero_le (i : Id) : zero ≤ i := Nat.zero_le _

instance : Std.LawfulEqOrd Id := ⟨fun h => compare_eq_iff_eq.mp h⟩

instance : Std.TransOrd Id := inferInstance

def parseU64 (s : List Char) : Option UInt64 := (Config.readU64 s).map .ofNat

def parse (s : List Char) : Option Id :=
  if '-' ∈ s then do
    let ms ← parseU64 (s.takeWhile (· ≠ '-'))
    let seq ← parseU64 (s.dropWhile (· ≠ '-')).tail
    return ⟨ms, seq⟩
  else (parseU64 s).map fun ms => ⟨ms, 0⟩

def text (i : Id) : List Char := Nat.toDigits 10 i.ms.toNat ++ '-' :: Nat.toDigits 10 i.seq.toNat

def next (i : Id) : Option Id :=
  if i.seq < 0xFFFFFFFFFFFFFFFF then some ⟨i.ms, i.seq + 1⟩
  else if i.ms < 0xFFFFFFFFFFFFFFFF then some ⟨i.ms + 1, 0⟩
  else none

def prev (i : Id) : Option Id :=
  if 0 < i.seq then some ⟨i.ms, i.seq - 1⟩
  else if 0 < i.ms then some ⟨i.ms - 1, 0xFFFFFFFFFFFFFFFF⟩
  else none

theorem next_value {i : Id} : (i.next).map value = if i.value + 1 < 2 ^ 128 then some (i.value + 1) else none := by
  have hi := i.ms.toNat_lt
  have hj := i.seq.toNat_lt
  have hmax : (0xFFFFFFFFFFFFFFFF : UInt64).toNat = 2 ^ 64 - 1 := rfl
  unfold next
  by_cases hseq : i.seq < 0xFFFFFFFFFFFFFFFF
  · have hlt := UInt64.lt_iff_toNat_lt.mp hseq
    have hone : (1 : UInt64).toNat = 1 := rfl
    rw [if_pos hseq, if_pos (by rw [value]; omega), Option.map_some, value, value, UInt64.toNat_add, hone,
      Nat.mod_eq_of_lt (by omega), Nat.add_assoc]
  · have hge := mt UInt64.lt_iff_toNat_lt.mpr hseq
    rw [if_neg hseq]
    by_cases hms : i.ms < 0xFFFFFFFFFFFFFFFF
    · have hlt := UInt64.lt_iff_toNat_lt.mp hms
      have hone : (1 : UInt64).toNat = 1 := rfl
      have hzero : (0 : UInt64).toNat = 0 := rfl
      rw [if_pos hms, if_pos (by rw [value]; omega), Option.map_some, value, value, UInt64.toNat_add, hone, hzero,
        Nat.mod_eq_of_lt (by omega)]
      have hsum : (i.ms.toNat + 1) * 2 ^ 64 + 0 = i.ms.toNat * 2 ^ 64 + i.seq.toNat + 1 := by omega
      rw [hsum]
    · have hge' := mt UInt64.lt_iff_toNat_lt.mpr hms
      rw [if_neg hms, if_neg (by rw [value]; omega)]
      rfl

/-- The successor of an id is the least id above it. -/
theorem next_some {i j : Id} (h : i.next = some j) {k : Id} : j ≤ k ↔ i < k := by
  have hv := next_value (i := i)
  rw [h, Option.map_some] at hv
  split at hv
  · rw [le_iff_value, lt_iff_value, Option.some.inj hv]
    omega
  · exact nomatch hv

theorem next_none {i : Id} (h : i.next = none) : i = max := by
  have hv := next_value (i := i)
  have hlt := i.value_lt
  rw [h, Option.map_none] at hv
  split at hv
  · exact nomatch hv
  · apply value_injective
    have hmax : max.value = 2 ^ 128 - 1 := by decide
    omega

theorem lt_next {i j : Id} (h : i.next = some j) : i < j := (next_some h).mp le_rfl

end Id

/-- A bound of `XRANGE`: `-`, `+`, an id, a time alone, or one of those after `(` to exclude it. -/
def bound (arg : Bytes) (start : Bool) : Except Reply (Option Id) := do
  let s := (← Resp.text arg).toList
  let exclusive := s.head? = some '('
  let s := if exclusive then s.tail else s
  let id ← if s = ['-'] ∧ ¬ exclusive then pure Id.zero
    else if s = ['+'] ∧ ¬ exclusive then pure Id.max
    else match Id.parse s with
      | none => .error (.err "Invalid stream ID specified as stream command argument")
      | some id => pure (if '-' ∉ s ∧ ¬ start then { id with seq := 0xFFFFFFFFFFFFFFFF } else id)
  return if exclusive then (if start then id.next else id.prev) else some id

end KivaDb.Streams

namespace KivaDb.Streams

open Std (ExtTreeMap)

/-- A pending entry of a consumer group. -/
structure Pending where
  consumer : String
  /-- When it was last delivered, in milliseconds. -/
  delivered : Int64
  count : UInt64
  deriving DecidableEq

structure Consumer where
  /-- Last time it read or was given entries. -/
  seen : Int64
  /-- Last time it was given entries. -/
  active : Int64
  deriving DecidableEq

/-- The entries delivered to a group and not acknowledged. -/
abbrev Pel := ExtTreeMap Id Pending compare

abbrev Entries := ExtTreeMap Id (List String) compare

structure Group where
  last : Id
  /-- Entries read by the group, when known. -/
  read : Option UInt64
  pending : Pel
  consumers : ExtTreeMap String Consumer compare

structure Stream where
  last : Id
  entries : Entries
  /-- Entries ever added. -/
  added : UInt64
  maxDeleted : Id
  groups : ExtTreeMap String Group compare

def Stream.empty : Stream := ⟨.zero, ∅, 0, .zero, ∅⟩

/-- Removes the entry `id`. -/
def Stream.erase (s : Stream) (id : Id) : Stream :=
  { s with entries := s.entries.erase id, maxDeleted := Max.max s.maxDeleted id }

/-- At most so many entries, none below an id. -/
abbrev Trim := Option Nat × Option Id

def trimFrom (t : Trim) : Nat → Stream → Stream × Nat
  | 0, s => (s, 0)
  | fuel + 1, s =>
      match s.entries.minKey? with
      | none => (s, 0)
      | some first =>
          let tooMany := t.1.any fun m => m < s.entries.size
          let tooOld := t.2.any fun m => first < m
          if tooMany || tooOld then
            let (s, removed) := trimFrom t fuel (s.erase first)
            (s, removed + 1)
          else (s, 0)

/-- Removes entries until `t` holds. -/
def Stream.trim (s : Stream) (t : Trim) : Stream × Nat := trimFrom t s.entries.size s

/-- Entries a group has not read yet. -/
def Stream.lag (s : Stream) (g : Group) : Option UInt64 :=
  if s.entries.isEmpty then some 0
  else if s.last ≤ g.last then some 0
  else if g.last < s.maxDeleted ∨ (s.entries.minKey?.any fun f => g.last < f) ∧ g.last ≠ .zero then none
  else g.read.map fun r => if r ≤ s.added then s.added - r else 0

/-- The entries from an id on, at most `limit` of them. -/
def range {α : Type} (m : ExtTreeMap Id α compare) (start : Id) (limit : Nat) : List (Id × α) :=
  (m.toList.filter fun p => start ≤ p.1).take limit

section

variable {α : Type} {m : ExtTreeMap Id α compare} {start : Id} {limit : Nat}

theorem sorted_toList : m.toList.Pairwise fun a b => a.1 < b.1 :=
  ExtTreeMap.ordered_keys_toList.imp fun {_ _} h => compare_lt_iff_lt.mp h

theorem range_sorted : (range m start limit).Pairwise fun a b => a.1 < b.1 := by
  exact (sorted_toList.sublist List.filter_sublist).sublist (List.take_sublist _ _)

theorem mem_range {p : Id × α} (h : p ∈ range m start limit) : m[p.1]? = some p.2 ∧ start ≤ p.1 := by
  have hmem := List.mem_filter.mp (List.mem_of_mem_take h)
  exact ⟨ExtTreeMap.mem_toList_iff_getElem?_eq_some.mp hmem.1, by simpa using hmem.2⟩

theorem scanned_sorted : ((range m start limit).map Prod.fst).Pairwise fun a b => a < b := List.pairwise_map.mpr range_sorted

theorem mem_scanned {id : Id} (h : id ∈ (range m start limit).map Prod.fst) : id ∈ m ∧ start ≤ id := by
  obtain ⟨p, hp, rfl⟩ := List.mem_map.mp h
  exact ⟨ExtTreeMap.mem_iff_isSome_getElem?.mpr (Option.isSome_of_eq_some (mem_range hp).1), (mem_range hp).2⟩

theorem length_range : (range m start limit).length ≤ limit := List.length_take_le _ _

/-- What a range leaves out lies beyond all that it holds. -/
theorem range_complete {id : Id} {a : α} (h : m[id]? = some a) (hstart : start ≤ id) (hnot : (id, a) ∉ range m start limit) :
    (range m start limit).length = limit ∧ ∀ p ∈ range m start limit, p.1 < id := by
  set l := m.toList.filter fun p => start ≤ p.1
  have hmem : (id, a) ∈ l := List.mem_filter.mpr ⟨ExtTreeMap.mem_toList_iff_getElem?_eq_some.mpr h, by simpa using hstart⟩
  have hsplit : (id, a) ∈ l.take limit ++ l.drop limit := (List.take_append_drop limit l).symm ▸ hmem
  have hdrop : (id, a) ∈ l.drop limit := (List.mem_append.mp hsplit).resolve_left hnot
  have hsorted : (l.take limit ++ l.drop limit).Pairwise fun a b => a.1 < b.1 := by
    rw [List.take_append_drop]
    exact sorted_toList.sublist List.filter_sublist
  have hlen := List.length_pos_of_mem hdrop
  rw [List.length_drop] at hlen
  constructor
  · have hle : limit ≤ l.length := by omega
    exact List.length_take_of_le hle
  · intro p hp
    exact (List.pairwise_append.mp hsorted).2.2 p hp (id, a) hdrop

end

end KivaDb.Streams
