import KivaDb.Lib.Heap
import KivaDb.SKey

namespace KivaDb.Query

open Std Lib

/-- How two rows compare: by their sort keys (`none` last), then by key. -/
def compare (a : Option SKey) (aKey : String) (b : Option SKey) (bKey : String) (desc : Bool) : Ordering :=
  match a, b with
  | some x, some y =>
      let o := SKey.cmp x y
      (if desc then o.swap else o).then (Ord.compare aKey bKey)
  | some _, none => .lt
  | none, some _ => .gt
  | none, none => Ord.compare aKey bKey

section

variable [Chrono]

/-- A row, sorted in this direction. -/
structure Row (desc : Bool) where
  sk : Option SKey
  key : String
  doc : Value

/-- The rows a query keeps while it reads: the first `limit` in order (a heap whose top is
the last one kept), or all of them without a limit. -/
structure TopK (desc : Bool) where
  limit : Nat
  heap : List (Row desc)
  all : List (Row desc)
  /-- Rows offered. -/
  offered : Nat

variable {desc : Bool}

def Row.cmp (a b : Row desc) : Ordering := compare a.sk a.key b.sk b.key desc

namespace TopK

def new (limit : Nat) (desc : Bool) : TopK desc := ⟨limit, [], [], 0⟩

def offer (t : TopK desc) (sk : Option SKey) (key : String) (doc : Value) : TopK desc :=
  let row : Row desc := ⟨sk, key, doc⟩
  let t := { t with offered := t.offered + 1 }
  if t.limit = 0 then { t with all := t.all ++ [row] }
  else if t.heap.length < t.limit then { t with heap := Heap.push Row.cmp row t.heap }
  else if (Heap.peek t.heap).any fun last => row.cmp last = .lt then
    { t with heap := Heap.push Row.cmp row (Heap.pop t.heap) }
  else t

/-- The last row kept, once `limit` rows are: a row sorting after it can no longer make it. -/
def lastKept (t : TopK desc) : Option (Row desc) :=
  if t.limit ≠ 0 ∧ t.limit ≤ t.heap.length then Heap.peek t.heap else none

/-- Whether a row placed at `sk` would be kept, before its document is read. -/
def wouldKeep (t : TopK desc) (sk : Option SKey) (key : String) : Bool :=
  t.lastKept.all fun last => compare sk key last.sk last.key desc = .lt

/-- The rows kept, in order. -/
def intoSorted (t : TopK desc) : List (Row desc) := Heap.sorted Row.cmp (if t.limit = 0 then t.all else t.heap)

/-- The rows offered one after the other. -/
def offers (t : TopK desc) (rows : List (Row desc)) : TopK desc := rows.foldl (fun t r => t.offer r.sk r.key r.doc) t

/-- The first `limit` rows in order, and all of them without a limit. -/
def firstRows (limit : Nat) (rows : List (Row desc)) : List (Row desc) :=
  if limit = 0 then Heap.sorted Row.cmp rows else (Heap.sorted Row.cmp rows).take limit

end TopK

/-- The order of sort keys: rows without one come last in both directions. -/
def valueCmp (desc : Bool) : Option SKey → Option SKey → Ordering
  | some x, some y => if desc then SKey.cmp y x else SKey.cmp x y
  | some _, none => .lt
  | none, some _ => .gt
  | none, none => .eq

instance (desc : Bool) : TransCmp (valueCmp desc) where
  eq_swap := by
    intro a b
    rcases a with _ | x <;> rcases b with _ | y
    · rfl
    · rfl
    · rfl
    · cases desc
      · exact @OrientedCmp.eq_swap _ SKey.cmp _ x y
      · exact @OrientedCmp.eq_swap _ SKey.cmp _ y x
  isLE_trans := by
    intro a b c hab hbc
    rcases a with _ | x <;> rcases b with _ | y <;> rcases c with _ | z
    · rfl
    · exact hbc
    · rfl
    · exact hab
    · rfl
    · exact nomatch hbc
    · rfl
    · cases desc
      · exact @TransCmp.isLE_trans _ SKey.cmp _ x y z hab hbc
      · exact @TransCmp.isLE_trans _ SKey.cmp _ z y x hbc hab

namespace Row

theorem cmp_eq (a b : Row desc) : a.cmp b = (valueCmp desc a.sk b.sk).then (Ord.compare a.key b.key) := by
  obtain ⟨sk, key, doc⟩ := a
  obtain ⟨sk', key', doc'⟩ := b
  rcases sk with _ | x <;> rcases sk' with _ | y
  · rfl
  · rfl
  · rfl
  · have hswap : (SKey.cmp x y).swap = SKey.cmp y x := OrientedCmp.eq_swap.symm
    cases desc
    · rfl
    · show ((SKey.cmp x y).swap).then _ = (SKey.cmp y x).then _
      rw [hswap]

instance : TransCmp (@cmp _ desc) := by
  have hlex : @cmp _ desc = compareLex (fun a b => valueCmp desc a.sk b.sk) (compareOn Row.key) := by
    funext a b
    exact cmp_eq a b
  have hvalue : TransCmp fun a b : Row desc => valueCmp desc a.sk b.sk :=
    { eq_swap := OrientedCmp.eq_swap, isLE_trans := TransCmp.isLE_trans }
  rw [hlex]
  infer_instance

/-- Rows tie at one key, and at values that are equal in order. -/
theorem cmp_eq_iff {a b : Row desc} : a.cmp b = .eq ↔ valueCmp desc a.sk b.sk = .eq ∧ a.key = b.key := by
  rw [cmp_eq, Ordering.then_eq_eq]
  exact and_congr_right fun _ => LawfulEqCmp.compare_eq_iff_eq

theorem apart {rows : List (Row desc)} (h : (rows.map Row.key).Nodup) : Heap.Apart Row.cmp rows := by
  intro a ha b hb heq
  exact List.inj_on_of_nodup_map h ha hb (cmp_eq_iff.mp heq).2

end Row

namespace TopK

/-- What the offers have kept. -/
structure Keeps (t : TopK desc) (n : Nat) (rows : List (Row desc)) : Prop where
  limit : t.limit = n
  all : n = 0 → t.all = rows
  heap : n ≠ 0 → Heap.First Row.cmp n rows t.heap

theorem Keeps.new (limit : Nat) (desc : Bool) : Keeps (new limit desc) limit [] :=
  ⟨rfl, fun _ => rfl, fun _ => .nil limit⟩

theorem heap_offer {t : TopK desc} (hlimit : t.limit ≠ 0) (r : Row desc) :
    (t.offer r.sk r.key r.doc).heap = Heap.keep Row.cmp t.limit r t.heap := by
  rw [offer, Heap.keep]
  dsimp only
  rw [if_neg hlimit]
  split
  · rfl
  · split
    · rfl
    · rfl

theorem limit_offer (t : TopK desc) (r : Row desc) : (t.offer r.sk r.key r.doc).limit = t.limit := by
  rw [offer]
  dsimp only
  split_ifs <;> rfl

theorem Keeps.offer {t : TopK desc} {limit : Nat} {rows : List (Row desc)} (h : Keeps t limit rows) (r : Row desc) :
    Keeps (t.offer r.sk r.key r.doc) limit (rows ++ [r]) := by
  refine ⟨(limit_offer t r).trans h.limit, fun hzero => ?_, fun hlimit => ?_⟩
  · rw [TopK.offer]
    dsimp only
    rw [if_pos (h.limit.trans hzero), h.all hzero]
  · rw [heap_offer (fun hzero => hlimit (h.limit.symm.trans hzero)), h.limit]
    exact (h.heap hlimit).keep r

theorem Keeps.offers {t : TopK desc} {limit : Nat} {rows : List (Row desc)} (h : Keeps t limit rows) (more : List (Row desc)) :
    Keeps (t.offers more) limit (rows ++ more) := by
  induction more generalizing t rows with
  | nil => rwa [List.append_nil]
  | cons r more ih =>
      have hmore := ih (h.offer r)
      rwa [List.append_assoc] at hmore

theorem intoSorted_offers (limit : Nat) {rows : List (Row desc)} (hkeys : (rows.map Row.key).Nodup) :
    ((new limit desc).offers rows).intoSorted = firstRows limit rows := by
  have h := (Keeps.new limit desc).offers rows
  rw [List.nil_append] at h
  rw [intoSorted, firstRows, h.limit]
  by_cases hzero : limit = 0
  · rw [if_pos hzero, if_pos hzero, h.all hzero]
  · rw [if_neg hzero, if_neg hzero]
    exact (h.heap hzero).sorted_eq (Row.apart hkeys)

/-- A row that would not be kept is behind `limit` rows. -/
theorem not_mem_firstRows {limit : Nat} {rows more : List (Row desc)} {r : Row desc} (hkeys : ((rows ++ more).map Row.key).Nodup)
    (hr : r ∈ more) (h : ((new limit desc).offers rows).wouldKeep r.sk r.key = false) : r ∉ firstRows limit (rows ++ more) := by
  have hkeeps := (Keeps.new limit desc).offers rows
  rw [List.nil_append] at hkeeps
  generalize (new limit desc).offers rows = t at h hkeeps
  obtain ⟨last, hlast, hnot⟩ : ∃ last, t.lastKept = some last ∧ r.cmp last ≠ .lt := by
    rw [wouldKeep] at h
    cases hlast : t.lastKept with
    | none =>
        rw [hlast] at h
        exact nomatch h
    | some last =>
        rw [hlast, Option.all_some, decide_eq_false_iff_not] at h
        exact ⟨last, rfl, h⟩
  rw [lastKept] at hlast
  split at hlast
  · next hfull =>
    rw [hkeeps.limit] at hfull
    obtain ⟨hd, -, rest, hperm, -⟩ := hkeeps.heap hfull.1
    obtain ⟨heap, hheap⟩ : ∃ heap, t.heap = last :: heap := List.head?_eq_some_iff.mp hlast
    have hsub : t.heap.Subperm rows := (List.sublist_append_left t.heap rest).subperm.trans hperm.subperm
    rw [firstRows, if_neg hfull.1]
    refine Heap.not_mem_first (hsub.trans (List.sublist_append_left rows more).subperm) (fun a ha => ?_) hfull.2
    have hle : (a.cmp r).isLE := by
      rw [hheap] at ha hd
      exact TransCmp.isLE_trans (Heap.top_le hd a ha) (Heap.isLE_of_not_lt hnot)
    have hne : a.key ≠ r.key := by
      rw [List.map_append, List.nodup_append] at hkeys
      exact hkeys.2.2 _ (List.mem_map_of_mem (hsub.subset ha)) _ (List.mem_map_of_mem hr)
    cases hcmp : a.cmp r with
    | lt => rfl
    | eq => exact absurd (Row.cmp_eq_iff.mp hcmp).2 hne
    | gt =>
        rw [hcmp] at hle
        exact nomatch hle
  · exact nomatch hlast

/-- In each direction rows are in a total order, and those kept are the first of it. -/
theorem topK_first (limit : Nat) {rows : List (Row desc)} (hkeys : (rows.map Row.key).Nodup) :
    (TransCmp (@Row.cmp _ desc) ∧ ∀ a b : Row desc, a.cmp b = .eq → a.key = b.key) ∧
      ((new limit desc).offers rows).intoSorted = firstRows limit rows ∧
      ∀ sk key, ((new limit desc).offers rows).wouldKeep sk key = false →
        ∀ more : List (Row desc), ((rows ++ more).map Row.key).Nodup →
          ∀ r ∈ more, r.sk = sk → r.key = key → r ∉ firstRows limit (rows ++ more) := by
  refine ⟨⟨inferInstance, fun a b h => (Row.cmp_eq_iff.mp h).2⟩, intoSorted_offers limit hkeys, ?_⟩
  rintro sk key h more hmore r hr rfl rfl
  exact not_mem_firstRows hmore hr h

end TopK

end

namespace TopK

section Samples

local instance textChrono : Chrono where
  DateTime := String
  NaiveTime := String
  decEqDateTime := inferInstance
  decEqNaiveTime := inferInstance
  iso t := t
  timeText t := t
  parseDatetime := some
  parseTime := some

def rowOf (key : String) (n : UInt64) : Row true := ⟨some (.one (.num (.json (.posInt n)))), key, .null⟩

def fiveRows : List (Row true) := [rowOf "a" 1, rowOf "b" 5, rowOf "c" 3, rowOf "d" 5, ⟨none, "e", .null⟩]

theorem topK_first_five : ((new 2 true).offers fiveRows).intoSorted = firstRows 2 fiveRows ∧
    ((new 2 true).offers fiveRows).heap.map Row.key = ["d", "b"] :=
  ⟨(topK_first 2 (by decide)).2.1, by decide⟩

end Samples

end TopK

end KivaDb.Query
