import KivaDb.Changes.Paging

namespace KivaDb.Changes

open Lib.LittleEndian Lib.Utf8 Lib.Flags Lib.Fallible Crypt

variable [External]

namespace Segment.Holds

variable {keys : Option Keys} {id : UInt64} {s : Segment} {t : Tape}

theorem records_file (h : s.Holds keys id t) :
    Changes.records keys id s.file s.file.length headerLen = (placed headerLen t, none) := by
  have hlen : (header id s.firstSeq).length = headerLen := by simp [header, magic, headerLen]
  have hrec := records_bytes h.journaled (header id s.firstSeq)
  rw [hlen, ← h.file] at hrec
  exact hrec

/-- The number of a change says how many come before it in its segment. -/
theorem seq_of_split (h : s.Holds keys id t) {pre post : Tape} {b : Body} {rec : Bytes}
    (ht : t = pre ++ (b, rec) :: post) (hb : b.isMark = false) : b.seq = s.firstSeq + pre.changes.length := by
  have hn := h.numbered
  rw [ht, Tape.changes_append, Tape.changes_cons, hb] at hn
  have hget := congrArg (·[pre.changes.length]?) hn
  have hlt : pre.changes.length < s.records := by
    rw [← h.length_changes, ht, Tape.changes_append, Tape.changes_cons, hb]
    simp
  simpa [List.getElem?_append_right, List.getElem?_range' hlt] using hget

/-- What comes first in a segment is numbered from its first number on. -/
theorem numbered_take (h : s.Holds keys id t) {pre post : Tape} (ht : t = pre ++ post) :
    pre.changes.map Body.seq = List.range' s.firstSeq pre.changes.length := by
  have hn := h.numbered
  have hle : pre.changes.length ≤ s.records := by
    rw [← h.length_changes, ht, Tape.changes_append, List.length_append]
    omega
  rw [ht, Tape.changes_append, List.map_append] at hn
  have htake := congrArg (List.take pre.changes.length) hn
  rw [List.take_left' (by simp), List.take_range'_of_length_ge hle] at htake
  exact htake

end Segment.Holds

omit [External] in
theorem placed_append (pos : Nat) (t u : Tape) :
    placed pos (t ++ u) = placed pos t ++ placed (pos + t.bytes.length) u := by
  induction t generalizing pos with
  | nil => simp [placed]
  | cons p t ih =>
      rw [List.cons_append, placed, placed, ih]
      simp [Tape.bytes, Nat.add_assoc]

omit [External] in
theorem takeWhile_placed (pos : Nat) (t : Tape) (p : Body → Bool) :
    (placed pos t).takeWhile (fun r => p r.2.1) = placed pos (t.takeWhile fun r => p r.1) := by
  induction t generalizing pos with
  | nil => rfl
  | cons r t ih =>
      rw [placed, List.takeWhile_cons, List.takeWhile_cons]
      cases p r.1 with
      | true => simp [ih, placed]
      | false => rfl

omit [External] in
@[simp] theorem length_placed (pos : Nat) (t : Tape) : (placed pos t).length = t.length := by
  simpa using congrArg List.length (map_placed pos t)

omit [External] in
/-- Where the last of some records ends. -/
theorem stop_placed (pos : Nat) (t : Tape) :
    ((placed pos t).getLast?.map fun r => r.2.2).getD pos = pos + t.bytes.length := by
  induction t using List.reverseRecOn with
  | nil => simp [placed]
  | append_singleton t p ih =>
      rw [placed_append, placed, placed, List.getLast?_concat, Tape.bytes_append, List.length_append]
      simp [Tape.bytes, Nat.add_assoc]

namespace Journal

omit [External] in
theorem lastChange_append (n : Nat) (rs rs' : List (Nat × Body × Nat)) :
    lastChange n (rs ++ rs') = lastChange (lastChange n rs) rs' := by
  simp [lastChange]

omit [External] in
/-- The last number of records numbered from `first` on. -/
theorem lastChange_placed {pos n first : Nat} {t : Tape}
    (h : t.changes.map Body.seq = List.range' first t.changes.length) :
    lastChange n (placed pos t) = if t.changes = [] then n else first + t.changes.length - 1 := by
  induction t using List.reverseRecOn with
  | nil => rfl
  | append_singleton t p ih =>
      have hone : Tape.changes [p] = if p.1.isMark then [] else [p.1] := by
        rw [Tape.changes_cons]
        rfl
      rw [placed_append, lastChange_append]
      rw [Tape.changes_append, hone] at h ⊢
      cases hm : p.1.isMark with
      | true =>
          rw [hm] at h
          simp only [if_true, List.append_nil] at h ⊢
          rw [ih h]
          simp [lastChange, placed, hm]
      | false =>
          rw [hm] at h
          have hget := congrArg (·[(Tape.changes t).length]?) h
          simp only [Bool.false_eq_true, if_false, List.map_append, List.length_append, List.map_cons, List.map_nil,
            List.length_cons, List.length_nil, Nat.zero_add] at hget
          rw [List.getElem?_append_right (by simp), List.getElem?_range' (by omega)] at hget
          have hseq : p.1.seq = first + (Tape.changes t).length := by simpa using hget
          simp [lastChange, placed, hm, hseq]

end Journal

/-- A segment cut at the end of one of its records holds the records before. -/
theorem Segment.Holds.cut {keys : Option Keys} {id : UInt64} {s : Segment} {pre post : Tape}
    (h : s.Holds keys id (pre ++ post)) (hpos : 1 ≤ s.firstSeq) :
    Segment.Holds keys id
      { s with
        file := s.file.take (headerLen + pre.bytes.length)
        len := headerLen + pre.bytes.length
        index := s.index.filter fun p => p.1 ≤ s.firstSeq + pre.changes.length - 1
        records := pre.changes.length } pre := by
  have hlen := h.length_file
  rw [Tape.bytes_append, List.length_append] at hlen
  refine ⟨?_, ?_, h.first, fun p hp => h.journaled p (List.mem_append_left _ hp), h.numbered_take rfl, ?_⟩
  · have hhead : (header id s.firstSeq ++ pre.bytes).length = headerLen + pre.bytes.length := by
      simp [header, magic, headerLen]
      omega
    show s.file.take _ = _
    rw [h.file, Tape.bytes_append, ← List.append_assoc, List.take_left' hhead]
  · show headerLen + pre.bytes.length = (s.file.take _).length
    rw [List.length_take]
    omega
  · intro p hp
    obtain ⟨hp, hle⟩ := List.mem_filter.mp hp
    obtain ⟨before, b, rec, after, ht, hb, hseq, hat⟩ := h.index p hp
    have hcount := h.seq_of_split ht hb
    have hle : p.1 ≤ s.firstSeq + pre.changes.length - 1 := of_decide_eq_true hle
    rcases List.append_eq_append_iff.mp ht with ⟨mid, rfl, -⟩ | ⟨mid, hpre, hmid⟩
    · rw [Tape.changes_append, List.length_append] at hcount
      omega
    · cases mid with
      | nil =>
          rw [hpre, List.append_nil] at hle
          omega
      | cons q mid =>
          obtain ⟨rfl, -⟩ := List.cons.inj hmid
          exact ⟨before, b, rec, mid, hpre, hb, hseq, hat⟩

namespace Journal

variable {j : Journal} {ts : List Tape}

namespace Holds

theorem split_last {us : List Tape} {t : Tape} (h : j.Holds (us ++ [t])) :
    List.Forall₂ (Segment.Holds j.keys j.id) j.older us ∧ j.active.Holds j.keys j.id t := by
  obtain ⟨vs, u, hts, hvs, hu⟩ := h.split
  obtain ⟨rfl, hlast⟩ := List.append_inj' hts rfl
  obtain rfl := List.singleton_inj.mp hlast
  exact ⟨hvs, hu⟩

/-- The segments from one on are a journal of their own. -/
theorem suffix (h : j.Holds ts) {gone rest : List Segment} (hold : j.older = gone ++ rest) :
    ∃ us, { j with older := rest }.Holds us ∧ us <:+ ts := by
  have hsegs := h.segments
  have hlinked := h.linked
  have hseg : j.segments = gone ++ (rest ++ [j.active]) := by
    rw [Journal.segments, hold, List.append_assoc]
  rw [hseg] at hsegs hlinked
  obtain ⟨us, vs, rfl, -, hvs⟩ := forall₂_append_left hsegs
  have hlate := (Linked.append.mp hlinked).2
  have hfirst : Journal.firstSeq { j with older := rest } = j.firstSeq + (gone.map Segment.records).sum := by
    cases rest with
    | nil => exact hlate.1
    | cons s rest => exact hlate.1
  refine ⟨vs, ⟨hvs, ?_, ?_, fun s hs => h.full s (hold ▸ List.mem_append_right _ hs), h.stray⟩, List.suffix_append _ _⟩
  · rw [hfirst]
    exact hlate
  · have hpos := h.positive
    omega

end Holds

omit [External] in
theorem trimFrom_suffix (s : Settings) (nowSecs : Int64) (active : Segment) (older : List Segment) (removed : Nat) :
    ∃ gone, older = gone ++ (trimFrom s nowSecs active older removed).1 := by
  induction older generalizing removed with
  | nil => exact ⟨[], rfl⟩
  | cons old older ih =>
      rw [trimFrom]
      split
      · obtain ⟨gone, hgone⟩ := ih (removed + old.records)
        exact ⟨old :: gone, congrArg (old :: ·) hgone⟩
      · exact ⟨[], rfl⟩

theorem trim_eq (j : Journal) (nowSecs : Int64) :
    left (trim nowSecs) j = { j with older := (trimFrom j.settings nowSecs j.active j.older 0).1 } := rfl

theorem Holds.trim (h : j.Holds ts) (nowSecs : Int64) :
    ∃ us, (left (Journal.trim nowSecs) j).Holds us ∧ us <:+ ts := by
  obtain ⟨gone, hgone⟩ := trimFrom_suffix j.settings nowSecs j.active j.older 0
  rw [trim_eq]
  exact h.suffix hgone

/-- The records of a segment up to the first whose data is missing. -/
theorem Holds.kept_eq {us : List Tape} {t : Tape} (h : j.Holds (us ++ [t])) (fileId len : Nat) :
    j.kept fileId len = placed headerLen (t.takeWhile fun p => !beyond fileId len p.1) := by
  rw [Journal.kept, (h.split_last).2.records_file]
  exact takeWhile_placed headerLen t fun b => !beyond fileId len b

theorem Holds.active_positive (h : j.Holds ts) : 1 ≤ j.active.firstSeq := by
  have hl := (Linked.append.mp h.linked).2.1
  have hpos := h.positive
  omega

theorem firstSeq_congr {j j' : Journal} (ho : j'.older = j.older) (ha : j'.active.firstSeq = j.active.firstSeq) :
    j'.firstSeq = j.firstSeq := by
  rw [Journal.firstSeq, Journal.firstSeq, Journal.segments, Journal.segments, ho]
  cases j.older with
  | nil => simpa using ha
  | cons s ss => rfl

theorem Holds.cutAfter {us : List Tape} {pre post : Tape} (h : j.Holds (us ++ [pre ++ post])) :
    (j.cutAfter (placed headerLen pre)).Holds (us ++ [pre]) ∧
      (j.cutAfter (placed headerLen pre)).active.len = headerLen + pre.bytes.length := by
  obtain ⟨hold, hact⟩ := h.split_last
  have hpos := h.active_positive
  have hseq : lastChange (j.active.firstSeq - 1) (placed headerLen pre) = j.active.firstSeq + pre.changes.length - 1 := by
    rw [lastChange_placed (hact.numbered_take rfl)]
    split
    · rename_i hnil
      rw [hnil]
      simp
    · rfl
  have hrec : j.active.firstSeq + pre.changes.length - 1 + 1 - j.active.firstSeq = pre.changes.length := by omega
  have hcut := hact.cut hpos
  have hlow := Linked.append.mp h.linked
  have hfirst : (j.cutAfter (placed headerLen pre)).firstSeq = j.firstSeq := firstSeq_congr rfl rfl
  have hlast : (j.cutAfter (placed headerLen pre)).lastSeq = j.active.firstSeq + pre.changes.length - 1 := hseq
  have hactive : (j.cutAfter (placed headerLen pre)).active =
      { j.active with
        file := j.active.file.take (headerLen + pre.bytes.length)
        len := headerLen + pre.bytes.length
        index := j.active.index.filter fun p => p.1 ≤ j.active.firstSeq + pre.changes.length - 1
        records := pre.changes.length } := by
    rw [Journal.cutAfter]
    simp only [hseq, hrec, stop_placed]
  have hsegs : (j.cutAfter (placed headerLen pre)).segments = j.older ++ [(j.cutAfter (placed headerLen pre)).active] := rfl
  refine ⟨⟨?_, ?_, ?_, h.full, h.stray⟩, by rw [hactive]⟩
  · rw [hsegs, hactive]
    exact List.rel_append hold (.cons hcut .nil)
  · rw [hfirst, hlast, hsegs, hactive]
    refine Linked.append.mpr ⟨hlow.1, hlow.2.1, ?_⟩
    have hat := hlow.2.1
    show j.firstSeq + (j.older.map Segment.records).sum + pre.changes.length = _
    omega
  · rw [hfirst]
    exact h.positive

/-- A last segment without records is as well left out. -/
theorem Holds.popped {us : List Tape} (h : j.Holds (us ++ [[]])) {prev : Segment}
    (hprev : j.older.getLast? = some prev) :
    Journal.Holds { j with older := j.older.dropLast, active := prev } us := by
  obtain ⟨hold, hact⟩ := h.split_last
  have hsegs : j.older.dropLast ++ [prev] = j.older := by
    rw [List.getLast?_eq_some_iff] at hprev
    obtain ⟨front, hfront⟩ := hprev
    rw [hfront, List.dropLast_concat]
  obtain ⟨s, ss, hcons⟩ : ∃ s ss, j.older = s :: ss := by
    cases hj : j.older with
    | nil => simp [hj] at hprev
    | cons s ss => exact ⟨s, ss, rfl⟩
  have hsame : Journal.segments { j with older := j.older.dropLast, active := prev } = j.older := hsegs
  have hfirst : Journal.firstSeq { j with older := j.older.dropLast, active := prev } = j.firstSeq := by
    rw [Journal.firstSeq, hsame, Journal.firstSeq, Journal.segments, hcons]
    rfl
  have hzero : j.active.records = 0 := hact.length_changes.symm
  have hnum := h.active_numbers
  have hlow := Linked.append.mp h.linked
  refine ⟨?_, ?_, ?_, fun s hs => h.full s (List.dropLast_subset _ hs), h.stray⟩
  · rw [hsame]
    exact hold
  · rw [hsame, hfirst]
    have hstop : j.lastSeq + 1 = j.firstSeq + (j.older.map Segment.records).sum := by
      have hat := hlow.2.1
      omega
    show Linked j.firstSeq (j.lastSeq + 1) j.older
    rw [hstop]
    exact hlow.1
  · rw [hfirst]
    exact h.positive

/-- What dropping changes does not touch. -/
structure Kept (j j' : Journal) : Prop where
  keys : j'.keys = j.keys
  id : j'.id = j.id
  broken : j'.broken = j.broken
  settings : j'.settings = j.settings

/-- Dropping leaves a journal of the first records. -/
theorem Holds.dropLoop (h : j.Holds ts) (fileId len fuel dropped : Nat) :
    ∃ n j' us, Journal.dropLoop fileId len fuel dropped j = .ok n j' ∧ j'.Holds us ∧ us.flatten <+: ts.flatten ∧
      j.Kept j' := by
  induction fuel generalizing j ts dropped with
  | zero => exact ⟨dropped, j, ts, rfl, h, List.prefix_rfl, ⟨rfl, rfl, rfl, rfl⟩⟩
  | succ fuel ih =>
      obtain ⟨us, t, rfl, hold, hact⟩ := h.split
      set pre := t.takeWhile fun p => !beyond fileId len p.1 with hpre
      obtain ⟨post, ht⟩ : ∃ post, t = pre ++ post :=
        ⟨t.dropWhile _, (List.takeWhile_append_dropWhile).symm⟩
      have hkept := h.kept_eq fileId len
      rw [ht] at h
      obtain ⟨hcut, hlen⟩ := h.cutAfter
      have hprefix : (us ++ [pre]).flatten <+: (us ++ [t]).flatten := by
        rw [ht]
        simp
      rw [Journal.dropLoop]
      simp only [get, getThe, MonadStateOf.get, bind, EStateM.bind, EStateM.get, hact.records_file, hkept, length_placed]
      split
      · cases hprev : j.older.getLast? with
        | none => exact ⟨_, _, _, rfl, hcut, hprefix, ⟨rfl, rfl, rfl, rfl⟩⟩
        | some prev =>
          dsimp only
          by_cases hempty : (j.cutAfter (placed headerLen pre)).active.len = headerLen
          · rw [if_pos hempty]
            have hnil : pre = [] := by
              have hle := length_le_bytes (hcut.split_last).2.journaled
              exact List.length_eq_zero_iff.mp (by omega)
            have hpop : Journal.Holds { j.cutAfter (placed headerLen pre) with
                older := j.older.dropLast, active := prev } us := by
              have hlast : (j.cutAfter (placed headerLen pre)).Holds (us ++ [[]]) := by
                have hp := hcut
                rw [hnil] at hp ⊢
                exact hp
              exact hlast.popped hprev
            obtain ⟨n, j', vs, hloop, hvs, hfl, hk⟩ := ih hpop
              (dropped + (j.lastSeq - (j.cutAfter (placed headerLen pre)).lastSeq))
            exact ⟨n, j', vs, hloop, hvs, hfl.trans (by simp), ⟨hk.keys, hk.id, hk.broken, hk.settings⟩⟩
          · rw [if_neg hempty]
            exact ⟨_, _, _, rfl, hcut, hprefix, ⟨rfl, rfl, rfl, rfl⟩⟩
      · exact ⟨_, _, _, rfl, h, by rw [ht], ⟨rfl, rfl, rfl, rfl⟩⟩

theorem Holds.dropAfter (h : j.Holds ts) (fileId len : Nat) :
    ∃ us, (left (Journal.dropAfter fileId len) j).Holds us ∧ us.flatten <+: ts.flatten ∧
      j.Kept (left (Journal.dropAfter fileId len) j) := by
  obtain ⟨n, j', us, hrun, hus, hpre, hk⟩ := h.dropLoop fileId len (j.older.length + 1) 0
  have hleft : left (Journal.dropAfter fileId len) j = j' := left_of_ok hrun
  rw [hleft]
  exact ⟨us, hus, hpre, hk⟩

end Journal

end KivaDb.Changes
