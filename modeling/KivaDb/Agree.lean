import KivaDb.Recovery
import KivaDb.Table

namespace KivaDb

open Format Crypt Log

/-- A deadline that, from the instant `t` on, says the same to the engine that
was given it and to a reader of the file: it is read back as it was written, or
it has passed either way. -/
def Settles (t ex : Int64) : Prop := expiryToMs ex = ex ∨ expiryToMs ex ≤ t

theorem settles_zero (t : Int64) : Settles t 0 := .inl (by simp [expiryToMs])

/-- A deadline that is not read back as it was written is taken for a later
one. -/
theorem expiryToMs_cases (ex : Int64) : expiryToMs ex = ex ∨ 0 < ex ∧ ex < expiryToMs ex := by
  unfold expiryToMs
  split
  · rename_i h
    right
    refine ⟨h.1, ?_⟩
    have h0 : 0 < ex.toInt := Int64.lt_iff_toInt_lt.mp h.1
    have h1 : ex.toInt < 100000000000 := Int64.lt_iff_toInt_lt.mp h.2
    have hm : (ex * 1000).toInt = ex.toInt * 1000 := by
      rw [Int64.toInt_mul]
      have hk : (1000 : Int64).toInt = 1000 := rfl
      rw [hk, Int.bmod_def]
      omega
    rw [Int64.lt_iff_toInt_lt, hm]
    omega
  · exact .inl rfl

namespace Entry

/-- The entry but for its version. -/
def bare (e : Entry) : Entry := { e with version := 0 }

theorem eq_of_bare {e e' : Entry} (h : e'.bare = e.bare) : ∃ v, e' = { e with version := v } := by
  refine ⟨e'.version, ?_⟩
  have h' : ({ e'.bare with version := e'.version } : Entry) = { e.bare with version := e'.version } := by rw [h]
  exact h'

theorem isExpired_reread {t : Int64} {e : Entry} (h : Settles t e.expiresAt) (hne : e.reread ≠ e) :
    e.isExpired t = true ∧ e.reread.isExpired t = true := by
  have hx : expiryToMs e.expiresAt ≠ e.expiresAt := by
    intro hx
    apply hne
    rw [reread, hx]
  obtain ⟨h0, hlt⟩ := (expiryToMs_cases e.expiresAt).resolve_left hx
  have hle := h.resolve_left hx
  have hr : e.reread.expiresAt = expiryToMs e.expiresAt := rfl
  have h0' : 0 < expiryToMs e.expiresAt := Int64.lt_trans h0 hlt
  have hle' : e.expiresAt ≤ t := Int64.le_trans (Int64.le_of_lt hlt) hle
  simp only [isExpired, hr, h0, h0', hle, hle', decide_true, Bool.and_self, and_self]

end Entry

/-- What an index shows of a key at `t`: its entry, but for the version, if its
TTL has not elapsed. -/
def shown (t : Int64) (o : Option Entry) : Option Entry := (o.filter fun e => ¬ e.isExpired t).map Entry.bare

/-- Two indexes with the same keys at `t`, under the same entries but for their
versions. -/
def Agree (t : Int64) (ix jx : Index) : Prop := ∀ k : String, shown t ix[k]? = shown t jx[k]?

theorem shown_some {t : Int64} {e : Entry} (h : e.isExpired t = false) : shown t (some e) = some e.bare := by
  simp [shown, Option.filter, h]

theorem shown_expired {t : Int64} {e : Entry} (h : e.isExpired t = true) : shown t (some e) = none := by
  simp [shown, Option.filter, h]

theorem shown_version (t : Int64) (e : Entry) (v : Nat) : shown t (some { e with version := v }) = shown t (some e) := by
  have hx : ({ e with version := v } : Entry).isExpired t = e.isExpired t := rfl
  cases h : e.isExpired t with
  | true => rw [shown_expired h, shown_expired (hx.trans h)]
  | false => rw [shown_some h, shown_some (hx.trans h)]; rfl

theorem shown_reread {t : Int64} {e : Entry} (h : Settles t e.expiresAt) : shown t (some e.reread) = shown t (some e) := by
  by_cases hne : e.reread = e
  · rw [hne]
  · obtain ⟨h1, h2⟩ := Entry.isExpired_reread h hne
    rw [shown_expired h1, shown_expired h2]

namespace Agree

variable {t : Int64} {ix jx kx : Index}

theorem rfl' (t : Int64) (ix : Index) : Agree t ix ix := fun _ => rfl

theorem symm (h : Agree t ix jx) : Agree t jx ix := fun k => (h k).symm

theorem trans (h : Agree t ix jx) (h' : Agree t jx kx) : Agree t ix kx := fun k => (h k).trans (h' k)

/-- The same is done to the key `key` on both sides. -/
theorem of_key {key : String} (h : Agree t ix jx) {ix' jx' : Index} {o o' : Option Entry}
    (hi : ∀ k : String, ix'[k]? = if key = k then o else ix[k]?) (hj : ∀ k : String, jx'[k]? = if key = k then o' else jx[k]?)
    (ho : shown t o = shown t o') : Agree t ix' jx' := by
  intro k
  rw [hi, hj]
  split
  · exact ho
  · exact h k

end Agree

theorem getElem?_applyChange (s : Index × Nat) (c : Change) (k : String) :
    (applyChange s c).1[k]? = if c.key = k then c.entry.map fun e => { e with version := s.2 + 1 } else s.1[k]? := by
  unfold applyChange
  cases c.entry with
  | some e => exact Table.getElem?_insert s.1 c.key k _
  | none => exact Table.getElem?_erase s.1 c.key k

theorem agree_applyChange {t : Int64} {s s' : Index × Nat} (h : Agree t s.1 s'.1) (c : Change) :
    Agree t (applyChange s c).1 (applyChange s' c).1 := by
  refine h.of_key (getElem?_applyChange s c) (getElem?_applyChange s' c) ?_
  cases c.entry with
  | some e => exact (shown_version t e _).trans (shown_version t e _).symm
  | none => rfl

theorem agree_foldl {t : Int64} (cs : List Change) {s s' : Index × Nat} (h : Agree t s.1 s'.1) :
    Agree t (cs.foldl applyChange s).1 (cs.foldl applyChange s').1 := by
  induction cs generalizing s s' with
  | nil => exact h
  | cons c cs ih => exact ih (agree_applyChange h c)

section

variable [External]

/-- The index a full scan of a log of appends gives. -/
def scanned (keys : Option Keys) (as : List Append) : Index × Nat :=
  (logChanges keys fileHeaderLen as).foldl applyChange (∅, 0)

theorem scanned_append (keys : Option Keys) (as cs : List Append) :
    scanned keys (as ++ cs) =
      (logChanges keys (fileHeaderLen + logLen keys as) cs).foldl applyChange (scanned keys as) := by
  rw [scanned, logChanges_append, List.foldl_append]
  rfl

/-- Where a record stands makes no difference to the rest of its entry. -/
theorem Write.entry_at (w : Write) (keys : Option Keys) (extra : UInt8) (pos : Nat) :
    w.entry keys extra pos = (w.entry keys extra 0).map fun e => { e with offset := pos } := by
  cases w with
  | put key raw ty enc algo ts ex => rfl
  | delete key ts => rfl

theorem Write.expiresAt_entry {w : Write} {keys : Option Keys} {extra : UInt8} {pos : Nat} {e : Entry}
    (h : w.entry keys extra pos = some e) : e.expiresAt = w.expiresAt := by
  cases w with
  | put key raw ty enc algo ts ex =>
      obtain rfl := Option.some.inj h
      rfl
  | delete key ts => simp [Write.entry] at h

end

end KivaDb
