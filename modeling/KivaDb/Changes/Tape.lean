import KivaDb.Changes.Journal
import KivaDb.Lib.Fallible
import Mathlib.Data.List.Forall2
import Mathlib.Data.List.Range

namespace KivaDb.Changes

open Lib.LittleEndian Lib.Utf8 Lib.Flags Lib.Fallible Crypt

/-- The records of a segment, each with its bytes. -/
abbrev Tape := List (Body × Bytes)

namespace Tape

def bytes (t : Tape) : Bytes := t.flatMap Prod.snd

/-- The changes among the records: those that are not marks. -/
def changes (t : Tape) : List Body := (t.map Prod.fst).filter fun b => !b.isMark

@[simp] theorem changes_nil : changes [] = [] := rfl

@[simp] theorem changes_append (t u : Tape) : changes (t ++ u) = changes t ++ changes u := by
  simp [changes]

@[simp] theorem bytes_nil : bytes [] = [] := rfl

@[simp] theorem bytes_append (t u : Tape) : bytes (t ++ u) = bytes t ++ bytes u := by
  simp [bytes]

theorem changes_cons (p : Body × Bytes) (t : Tape) :
    changes (p :: t) = if p.1.isMark then changes t else p.1 :: changes t := by
  cases h : p.1.isMark <;> simp [changes, h]

end Tape

variable [External]

/-- The segment `s` is the file of the records of `t`: its changes are numbered
one after the other from `firstSeq` on, and its index points at some of them. -/
structure Segment.Holds (keys : Option Keys) (id : UInt64) (s : Segment) (t : Tape) : Prop where
  file : s.file = header id s.firstSeq ++ t.bytes
  len : s.len = s.file.length
  first : s.firstSeq < 2 ^ 64
  journaled : ∀ p ∈ t, Journaled keys id p.1 p.2
  numbered : t.changes.map Body.seq = List.range' s.firstSeq s.records
  index : ∀ p ∈ s.index, ∃ (pre : Tape) (b : Body) (rec : Bytes) (post : Tape), t = pre ++ (b, rec) :: post ∧
    b.isMark = false ∧ b.seq = p.1 ∧ p.2 = headerLen + pre.bytes.length

/-- Segments that take up the numbering one from the other, from `n` up to
`stop`. -/
def Linked (n stop : Nat) : List Segment → Prop
  | [] => n = stop
  | s :: ss => s.firstSeq = n ∧ Linked (n + s.records) stop ss

namespace Journal

/-- What is true of a journal whose writes have not failed. -/
structure Holds (j : Journal) (ts : List Tape) : Prop where
  segments : List.Forall₂ (Segment.Holds j.keys j.id) j.segments ts
  linked : Linked j.firstSeq (j.lastSeq + 1) j.segments
  positive : 1 ≤ j.firstSeq
  full : ∀ s ∈ j.older, 0 < s.records
  stray : j.stray = none

/-- The changes of all the segments. -/
def changesOf (ts : List Tape) : List Body := ts.flatMap Tape.changes

end Journal

omit [External] in
theorem Linked.append {n stop : Nat} {ss ss' : List Segment} :
    Linked n stop (ss ++ ss') ↔ Linked n (n + (ss.map Segment.records).sum) ss ∧
      Linked (n + (ss.map Segment.records).sum) stop ss' := by
  induction ss generalizing n with
  | nil => simp [Linked]
  | cons s ss ih =>
      rw [List.cons_append, Linked, Linked, ih, List.map_cons, List.sum_cons, Nat.add_assoc, and_assoc]

omit [External] in
theorem Linked.stop_eq {n stop : Nat} {ss : List Segment} (h : Linked n stop ss) :
    stop = n + (ss.map Segment.records).sum := by
  induction ss generalizing n with
  | nil => simpa [Linked] using h.symm
  | cons s ss ih =>
      rw [ih h.2, List.map_cons, List.sum_cons, Nat.add_assoc]

namespace Segment.Holds

variable {keys : Option Keys} {id : UInt64} {s : Segment} {t : Tape}

theorem length_changes (h : s.Holds keys id t) : t.changes.length = s.records := by
  simpa using congrArg List.length h.numbered

theorem length_file (h : s.Holds keys id t) : s.file.length = headerLen + t.bytes.length := by
  rw [h.file]
  simp [header, magic, headerLen]
  omega

/-- The bytes of a segment from one of its records on. -/
theorem drop_file (h : s.Holds keys id t) {pre post : Tape} (ht : t = pre ++ post) :
    s.file.drop (headerLen + pre.bytes.length) = post.bytes := by
  have hl : (header id s.firstSeq ++ pre.bytes).length = headerLen + pre.bytes.length := by
    simp [header, magic, headerLen]
    omega
  rw [h.file, ht, Tape.bytes_append, ← List.append_assoc, List.drop_left' hl]

end Segment.Holds

variable {keys : Option Keys} {id : UInt64}

theorem length_le_bytes {t : Tape} (h : ∀ p ∈ t, Journaled keys id p.1 p.2) : 8 * t.length ≤ t.bytes.length := by
  induction t with
  | nil => simp
  | cons p t ih =>
      have h8 := (h p List.mem_cons_self).length_pos
      have hrest := ih fun q hq => h q (List.mem_cons_of_mem _ hq)
      simp only [Tape.bytes, List.flatMap_cons, List.length_append, List.length_cons] at *
      omega

/-- The reading loop finds the records of a tape, whatever stands before it. -/
theorem records_bytes {t : Tape} (h : ∀ p ∈ t, Journaled keys id p.1 p.2) (pre : Bytes) :
    records keys id (pre ++ t.bytes) (pre ++ t.bytes).length pre.length = (placed pre.length t, none) := by
  refine records_journaled h pre ?_
  have hlen := length_le_bytes h
  rw [List.length_append]
  omega

omit [External] in
theorem map_placed (pos : Nat) (t : Tape) : (placed pos t).map (fun r => r.2.1) = t.map Prod.fst := by
  induction t generalizing pos with
  | nil => rfl
  | cons p t ih => rw [placed, List.map_cons, List.map_cons, ih]

/-- The changes of linked segments are numbered without a gap. -/
theorem Linked.numbered {n stop : Nat} {ss : List Segment} {ts : List Tape} (h : Linked n stop ss)
    (hs : List.Forall₂ (Segment.Holds keys id) ss ts) :
    (Journal.changesOf ts).map Body.seq = List.range' n (stop - n) := by
  induction hs generalizing n with
  | nil =>
      obtain rfl : n = stop := h
      simp [Journal.changesOf]
  | @cons s t ss ts hst hss ih =>
      obtain ⟨rfl, h⟩ := h
      have hstop := h.stop_eq
      have hsub : stop - s.firstSeq = s.records + (stop - (s.firstSeq + s.records)) := by omega
      have hcons : Journal.changesOf (t :: ts) = t.changes ++ Journal.changesOf ts := rfl
      rw [hcons, List.map_append, hst.numbered, ih h, hsub, List.range'_append_1]

omit [External] in
theorem Journal.changesOf_eq (ts : List Tape) :
    Journal.changesOf ts = (ts.flatten.map Prod.fst).filter fun b => !b.isMark := by
  induction ts with
  | nil => rfl
  | cons t ts ih =>
      have hcons : Journal.changesOf (t :: ts) = t.changes ++ Journal.changesOf ts := rfl
      rw [hcons, ih, List.flatten_cons, List.map_append, List.filter_append]
      rfl

omit [External] in
@[simp] theorem Journal.changesOf_append (ts us : List Tape) :
    Journal.changesOf (ts ++ us) = Journal.changesOf ts ++ Journal.changesOf us := by
  simp [Journal.changesOf]

omit [External] in
theorem forall₂_append_left {α β : Type} {R : α → β → Prop} {as as' : List α} {bs : List β}
    (h : List.Forall₂ R (as ++ as') bs) :
    ∃ cs cs', bs = cs ++ cs' ∧ List.Forall₂ R as cs ∧ List.Forall₂ R as' cs' := by
  induction as generalizing bs with
  | nil => exact ⟨[], bs, rfl, .nil, h⟩
  | cons a as ih =>
      obtain ⟨b, bs', hb, hrest, rfl⟩ := List.forall₂_cons_left_iff.mp h
      obtain ⟨cs, cs', rfl, hcs, hcs'⟩ := ih hrest
      exact ⟨b :: cs, cs', rfl, .cons hb hcs, hcs'⟩

end KivaDb.Changes
