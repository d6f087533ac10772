import KivaDb.Changes.Tape

namespace KivaDb.Changes

open Lib.LittleEndian Lib.Utf8 Lib.Flags Lib.Fallible Crypt

/-- A record added at the end of a segment. -/
def Segment.push (s : Segment) (p : Body × Bytes) : Segment :=
  { (if p.1.isMark then s else s.note p.1.seq s.len p.1.timestamp) with
    file := s.file ++ p.2
    len := s.len + p.2.length }

variable [External]

section

variable {keys : Option Keys} {id : UInt64} {s : Segment} {t : Tape}

omit [External] in
@[simp] theorem push_firstSeq (s : Segment) (p : Body × Bytes) : (s.push p).firstSeq = s.firstSeq := by
  rw [Segment.push]
  split <;> rfl

omit [External] in
theorem push_records (s : Segment) (p : Body × Bytes) :
    (s.push p).records = s.records + (if p.1.isMark then 0 else 1) := by
  rw [Segment.push]
  split <;> rfl

theorem Segment.Holds.push (h : s.Holds keys id t) {p : Body × Bytes} (hp : Journaled keys id p.1 p.2)
    (hn : p.1.isMark = false → p.1.seq = s.firstSeq + s.records) : (s.push p).Holds keys id (t ++ [p]) where
  file := by
    have hf : (s.push p).file = s.file ++ p.2 := rfl
    rw [hf, push_firstSeq, h.file, Tape.bytes_append, List.append_assoc]
    simp [Tape.bytes]
  len := by
    have hl : (s.push p).len = s.len + p.2.length := rfl
    have hf : (s.push p).file = s.file ++ p.2 := rfl
    rw [hl, hf, h.len, List.length_append]
  first := by
    rw [push_firstSeq]
    exact h.first
  journaled := by
    intro q hq
    rcases List.mem_append.mp hq with hq | hq
    · exact h.journaled q hq
    · rw [List.mem_singleton.mp hq]
      exact hp
  numbered := by
    rw [push_firstSeq, push_records, Tape.changes_append, List.map_append, h.numbered, Tape.changes_cons]
    cases hm : p.1.isMark with
    | true => simp
    | false => simp [hn hm, List.range'_concat]
  index := by
    have hold : ∀ q ∈ s.index, ∃ (pre : Tape) (b : Body) (rec : Bytes) (post : Tape),
        t ++ [p] = pre ++ (b, rec) :: post ∧ b.isMark = false ∧ b.seq = q.1 ∧ q.2 = headerLen + pre.bytes.length := by
      intro q hq
      obtain ⟨pre, b, rec, post, ht, hb, hseq, hpos⟩ := h.index q hq
      exact ⟨pre, b, rec, post ++ [p], by rw [ht]; simp, hb, hseq, hpos⟩
    intro q hq
    rw [Segment.push] at hq
    split at hq
    · exact hold q hq
    · rename_i hm
      simp only [Segment.note] at hq
      split at hq
      · rcases List.mem_append.mp hq with hq | hq
        · exact hold q hq
        · rw [List.mem_singleton.mp hq]
          exact ⟨t, p.1, p.2, [], rfl, by simpa using hm, rfl, by rw [h.len, h.length_file]⟩
      · exact hold q hq

/-- Records added one after the other, their changes numbered on. -/
theorem Segment.Holds.pushes (h : s.Holds keys id t) {rs : Tape} (hj : ∀ p ∈ rs, Journaled keys id p.1 p.2)
    (hn : (Tape.changes rs).map Body.seq = List.range' (s.firstSeq + s.records) (Tape.changes rs).length) :
    (rs.foldl Segment.push s).Holds keys id (t ++ rs) ∧
      (rs.foldl Segment.push s).firstSeq = s.firstSeq ∧ (rs.foldl Segment.push s).records = s.records + (Tape.changes rs).length := by
  induction rs generalizing s t with
  | nil => simpa using h
  | cons p rs ih =>
      have hp := hj p List.mem_cons_self
      have hhead : p.1.isMark = false → p.1.seq = s.firstSeq + s.records := by
        intro hm
        rw [Tape.changes_cons, hm] at hn
        simp only [Bool.false_eq_true, if_false, List.map_cons, List.length_cons, List.range'_succ,
          List.cons.injEq] at hn
        exact hn.1
      have hcount : (Tape.changes (p :: rs)).length = (if p.1.isMark then 0 else 1) + (Tape.changes rs).length := by
        rw [Tape.changes_cons]
        split
        · simp
        · simp [Nat.add_comm]
      have htail : (Tape.changes rs).map Body.seq =
          List.range' ((s.push p).firstSeq + (s.push p).records) (Tape.changes rs).length := by
        rw [push_firstSeq, push_records]
        cases hm : p.1.isMark with
        | true =>
            rw [Tape.changes_cons, hm] at hn
            simpa using hn
        | false =>
            rw [Tape.changes_cons, hm] at hn
            simp only [Bool.false_eq_true, if_false, List.map_cons, List.length_cons, List.range'_succ,
              List.cons.injEq] at hn
            simpa [Nat.add_assoc] using hn.2
      obtain ⟨hh, hf, hr⟩ := ih (h.push hp hhead) (fun q hq => hj q (List.mem_cons_of_mem _ hq)) htail
      rw [List.foldl_cons]
      refine ⟨by simpa using hh, by rw [hf, push_firstSeq], ?_⟩
      rw [hr, push_records, hcount, Nat.add_assoc]

omit [External] in
/-- Noting the changes of one write is adding their records one after the other. -/
theorem foldl_noteAt {rs : Tape} (hm : ∀ p ∈ rs, p.1.isMark = false) (at_ off : Nat) (s s' : Segment)
    (hs : s' = { s with file := s'.file, len := s'.len }) (hl : s.len = at_ + off) :
    (offsets off rs).foldl (Segment.noteAt at_) s' =
      { rs.foldl Segment.push s with file := s'.file, len := s'.len } := by
  induction rs generalizing off s s' with
  | nil => exact hs
  | cons p rs ih =>
      obtain ⟨b, rec⟩ := p
      have hb : b.isMark = false := hm (b, rec) List.mem_cons_self
      rw [offsets, List.foldl_cons, List.foldl_cons]
      have hnote : Segment.noteAt at_ s' (b.seq, off, b.timestamp) =
          { s.push (b, rec) with file := s'.file, len := s'.len } := by
        rw [hs]
        simp [Segment.noteAt, Segment.push, hb, Segment.note, hl]
      rw [hnote, ih (fun q hq => hm q (List.mem_cons_of_mem _ hq)) (off + rec.length) (s.push (b, rec)) _ rfl]
      simp only [Segment.push, hl, Nat.add_assoc]

omit [External] in
theorem foldl_push_file (rs : Tape) (s : Segment) :
    (rs.foldl Segment.push s).file = s.file ++ Tape.bytes rs ∧ (rs.foldl Segment.push s).len = s.len + (Tape.bytes rs).length := by
  induction rs generalizing s with
  | nil => simp
  | cons p rs ih =>
      obtain ⟨hf, hl⟩ := ih (s.push p)
      have hpf : (s.push p).file = s.file ++ p.2 := rfl
      have hpl : (s.push p).len = s.len + p.2.length := rfl
      have hb : Tape.bytes (p :: rs) = p.2 ++ Tape.bytes rs := rfl
      rw [List.foldl_cons, hf, hl, hpf, hpl, hb, List.append_assoc, List.length_append, Nat.add_assoc]
      exact ⟨rfl, rfl⟩

end

omit [External] in
theorem overwrite_end {file buf : Bytes} : overwrite file file.length buf = file ++ buf := by
  rw [overwrite, List.take_length, List.drop_eq_nil_of_le (by omega), List.append_nil]

namespace Journal

/-- The journal once it has room for more: a full segment gives way to a new one. -/
def rolled (j : Journal) : Journal :=
  if j.settings.segmentBytes ≤ j.active.len ∧ 0 < j.active.records then
    { j with
      older := j.older ++ [j.active]
      active := newSegment j.id (j.lastSeq + 1)
      stray := none
      dirty := false }
  else j

/-- Records added to the active segment. -/
def pushedOn (j : Journal) (rs : Tape) : Journal :=
  { j with active := rs.foldl Segment.push j.active, dirty := true }

theorem rolled_frame (j : Journal) :
    j.rolled.keys = j.keys ∧ j.rolled.id = j.id ∧ j.rolled.lastSeq = j.lastSeq ∧ j.rolled.settings = j.settings ∧
      j.rolled.broken = j.broken ∧ j.rolled.dir = j.dir ∧ j.rolled.lastPos = j.lastPos ∧ j.rolled.written = j.written := by
  rw [rolled]
  split
  · exact ⟨rfl, rfl, rfl, rfl, rfl, rfl, rfl, rfl⟩
  · exact ⟨rfl, rfl, rfl, rfl, rfl, rfl, rfl, rfl⟩

theorem writeActive_well {j : Journal} {rs : Tape} {offs : List (Nat × Nat × Int64)} (draws : Nat → Draw)
    (hl : j.active.len = j.active.file.length)
    (ho : offs = offsets 0 rs ∧ (∀ p ∈ rs, p.1.isMark = false) ∨ offs = [] ∧ ∃ p, rs = [p] ∧ p.1.isMark = true) :
    writeActive (Tape.bytes rs) offs (Io.well draws) j = .ok () (j.pushedOn rs) := by
  obtain ⟨hf, hlen⟩ := foldl_push_file rs j.active
  have hactive : offs.foldl (Segment.noteAt j.active.len)
      { j.active with
        file := overwrite j.active.file j.active.len (Tape.bytes rs)
        len := j.active.len + (Tape.bytes rs).length } = rs.foldl Segment.push j.active := by
    rw [show overwrite j.active.file j.active.len (Tape.bytes rs) = j.active.file ++ Tape.bytes rs by
      rw [hl, overwrite_end], ← hf, ← hlen]
    rcases ho with ⟨rfl, hm⟩ | ⟨rfl, p, rfl, hm⟩
    · exact foldl_noteAt hm j.active.len 0 j.active _ rfl rfl
    · simp [Segment.push, hm]
  have hrun : writeActive (Tape.bytes rs) offs (Io.well draws) j = .ok ()
      { j with
        active := offs.foldl (Segment.noteAt j.active.len)
          { j.active with
            file := overwrite j.active.file j.active.len (Tape.bytes rs)
            len := j.active.len + (Tape.bytes rs).length }
        dirty := true } := rfl
  rw [hrun, hactive, pushedOn]

theorem rotate_well (j : Journal) (draws : Nat → Draw) :
    rotate (Io.well draws) j = .ok ()
      { j with
        older := j.older ++ [j.active]
        active := newSegment j.id (j.lastSeq + 1)
        stray := none
        dirty := false } := by
  cases hd : j.dirty <;> simp [rotate, sync, Io.well, bind, EStateM.bind, get, getThe, MonadStateOf.get, EStateM.get,
    set, MonadStateOf.set, EStateM.set, hd, pure, EStateM.pure]

theorem write_well {j : Journal} {rs : Tape} {offs : List (Nat × Nat × Int64)} (draws : Nat → Draw)
    (hl : j.active.len = j.active.file.length)
    (ho : offs = offsets 0 rs ∧ (∀ p ∈ rs, p.1.isMark = false) ∨ offs = [] ∧ ∃ p, rs = [p] ∧ p.1.isMark = true) :
    write (Tape.bytes rs) offs (Io.well draws) j = .ok () (j.rolled.pushedOn rs) := by
  by_cases hroll : j.settings.segmentBytes ≤ j.active.len ∧ 0 < j.active.records
  · have hrolled : j.rolled = { j with
        older := j.older ++ [j.active]
        active := newSegment j.id (j.lastSeq + 1)
        stray := none
        dirty := false } := if_pos hroll
    have hlen : j.rolled.active.len = j.rolled.active.file.length := by
      rw [hrolled]
      simp [newSegment, header, magic, headerLen]
    have hw : write (Tape.bytes rs) offs (Io.well draws) j = writeActive (Tape.bytes rs) offs (Io.well draws) j.rolled := by
      have hr := rotate_well j draws
      rw [← hrolled] at hr
      simp only [write, bind, EStateM.bind, get, getThe, MonadStateOf.get, EStateM.get, if_pos hroll, hr]
    rw [hw, writeActive_well draws hlen ho]
  · have hrolled : j.rolled = j := if_neg hroll
    have hw : write (Tape.bytes rs) offs (Io.well draws) j = writeActive (Tape.bytes rs) offs (Io.well draws) j := by
      simp only [write, bind, EStateM.bind, get, getThe, MonadStateOf.get, EStateM.get, if_neg hroll]
    rw [hw, hrolled, writeActive_well draws hl ho]

namespace Holds

variable {j : Journal} {ts : List Tape}

theorem split (h : j.Holds ts) : ∃ us t, ts = us ++ [t] ∧ List.Forall₂ (Segment.Holds j.keys j.id) j.older us ∧
    j.active.Holds j.keys j.id t := by
  obtain ⟨us, vs, rfl, hus, hvs⟩ := forall₂_append_left h.segments
  obtain ⟨t, rest, ht, hrest, rfl⟩ := List.forall₂_cons_left_iff.mp hvs
  cases hrest
  exact ⟨us, t, rfl, hus, ht⟩

theorem active_numbers (h : j.Holds ts) : j.active.firstSeq + j.active.records = j.lastSeq + 1 := by
  have hl := (Linked.append.mp h.linked).2
  rw [hl.1]
  exact hl.2

theorem active_len (h : j.Holds ts) : j.active.len = j.active.file.length := by
  obtain ⟨us, t, -, -, ht⟩ := h.split
  exact ht.len

/-- The numbers go on where they stopped when a new segment begins. -/
theorem rolled (h : j.Holds ts) (hb : j.lastSeq + 1 < 2 ^ 64) :
    ∃ ts', j.rolled.Holds ts' ∧ ts'.flatten = ts.flatten := by
  rw [Journal.rolled]
  split
  · rename_i hroll
    refine ⟨ts ++ [[]], ?_, by simp⟩
    have hnew : (newSegment j.id (j.lastSeq + 1)).Holds j.keys j.id [] := by
      refine ⟨by simp [newSegment], ?_, hb, by simp, by simp [newSegment], by simp [newSegment]⟩
      simp [newSegment, header, magic, headerLen]
    have hfirst : Journal.firstSeq { j with
        older := j.older ++ [j.active], active := newSegment j.id (j.lastSeq + 1), stray := none, dirty := false } =
        j.firstSeq := by
      cases ho : j.older <;> simp [Journal.firstSeq, Journal.segments, ho]
    constructor
    · exact List.rel_append h.segments (.cons hnew .nil)
    · rw [hfirst]
      refine Linked.append.mpr ⟨?_, ?_⟩
      · have hl := h.linked
        rw [hl.stop_eq] at hl
        exact hl
      · have hs := h.linked.stop_eq
        exact ⟨hs, hs.symm⟩
    · rw [hfirst]
      exact h.positive
    · intro s hs
      rcases List.mem_append.mp hs with hs | hs
      · exact h.full s hs
      · rw [List.mem_singleton.mp hs]
        exact hroll.2
    · rfl
  · exact ⟨ts, h, rfl⟩

/-- Records added to the active segment, their changes numbered on. -/
theorem pushedOn (h : j.Holds ts) {rs : Tape} (hj : ∀ p ∈ rs, Journaled j.keys j.id p.1 p.2)
    (hn : (Tape.changes rs).map Body.seq = List.range' (j.lastSeq + 1) (Tape.changes rs).length) :
    ∃ ts', { j.pushedOn rs with lastSeq := j.lastSeq + (Tape.changes rs).length }.Holds ts' ∧
      ts'.flatten = ts.flatten ++ rs := by
  obtain ⟨us, t, rfl, hus, ht⟩ := h.split
  have hnum := h.active_numbers
  obtain ⟨hh, hf, hr⟩ := ht.pushes hj (by rw [hnum]; exact hn)
  have hfirst : Journal.firstSeq { j.pushedOn rs with lastSeq := j.lastSeq + (Tape.changes rs).length } = j.firstSeq := by
    cases ho : j.older <;> simp [Journal.firstSeq, Journal.segments, Journal.pushedOn, ho, hf]
  refine ⟨us ++ [t ++ rs], ⟨List.rel_append hus (.cons hh .nil), ?_, ?_, h.full, h.stray⟩, by simp⟩
  · rw [hfirst]
    obtain ⟨hlow, hhigh⟩ := Linked.append.mp h.linked
    refine Linked.append.mpr ⟨hlow, ?_⟩
    refine ⟨hf.trans hhigh.1, ?_⟩
    have hstop := hhigh.2
    simp only [Linked, Journal.pushedOn, hr] at hstop ⊢
    omega
  · rw [hfirst]
    exact h.positive

end Holds

end Journal

omit [External] in
theorem entriesFrom_spec (values : Bool) (first fileId : Nat) (txn : Bool) (seq : Nat) (cs : List NewChange) :
    (entriesFrom values first fileId txn seq cs).map Body.seq = List.range' seq cs.length ∧
      ∀ b ∈ entriesFrom values first fileId txn seq cs, b.isMark = false := by
  induction cs generalizing seq with
  | nil => exact ⟨rfl, by simp [entriesFrom]⟩
  | cons c cs ih =>
      obtain ⟨hseq, hm⟩ := ih (seq + 1)
      rw [entriesFrom, List.map_cons, hseq, List.length_cons, List.range'_succ]
      refine ⟨rfl, List.forall_mem_cons.mpr ⟨?_, hm⟩⟩
      cases hk : c.kind <;> simp [entry, Body.isMark, hk, ChangeKind.code] <;> decide

omit [External] in
theorem entriesFrom_fits {values : Bool} {first fileId : Nat} {txn : Bool} {seq : Nat} {cs : List NewChange}
    (hc : ∀ c ∈ cs, c.Fits) (hfile : fileId < 2 ^ 64) (hfirst : first ≤ seq) (hseq : seq + cs.length ≤ 2 ^ 64) :
    ∀ b ∈ entriesFrom values first fileId txn seq cs, b.Fits := by
  induction cs generalizing seq with
  | nil => simp [entriesFrom]
  | cons c cs ih =>
      have hlen : seq + (cs.length + 1) ≤ 2 ^ 64 := hseq
      refine List.forall_mem_cons.mpr ⟨?_, ih (fun d hd => hc d (List.mem_cons_of_mem _ hd)) (by omega) (by omega)⟩
      have hf := hc c List.mem_cons_self
      refine ⟨by simp only [entry]; omega, hfile, hf.dataEnd, ?_, hf.key, ?_⟩
      · simp only [entry]
        split <;> omega
      · simp only [entry]
        split
        · exact hf.raw
        · exact Nat.zero_le _

theorem pushAll_ok {keys : Option Keys} {id : UInt64} {draws : Nat → Draw} {n : Nat} {bs : List Body} {rs : Tape}
    (h : pushAll keys id draws n bs = .ok rs) :
    rs.map Prod.fst = bs ∧ ∀ p ∈ rs, ∃ nonce, pushRecord keys id nonce (body p.1) = .ok p.2 := by
  induction bs generalizing n rs with
  | nil =>
      cases h
      exact ⟨rfl, by simp⟩
  | cons b bs ih =>
      obtain ⟨rec, hrec, h⟩ := except_bind_ok.mp h
      obtain ⟨rest, hrest, h⟩ := except_bind_ok.mp h
      cases h
      obtain ⟨hmap, hall⟩ := ih hrest
      exact ⟨by rw [List.map_cons, hmap], List.forall_mem_cons.mpr ⟨⟨draws n, hrec⟩, hall⟩⟩

omit [External] in
theorem changes_of_map {rs : Tape} {bs : List Body} (h : rs.map Prod.fst = bs) (hm : ∀ b ∈ bs, b.isMark = false) :
    Tape.changes rs = bs := by
  rw [Tape.changes, h]
  exact List.filter_eq_self.mpr fun b hb => by simp [hm b hb]

namespace Journal

variable {j : Journal} {ts : List Tape}

/-- What `append` does once its records are made, when nothing fails. -/
theorem append_pushed (hl : j.active.len = j.active.file.length) {fileId : Nat} {changes : List NewChange} {txn : Bool}
    {draws : Nat → Draw} {rs : Tape} {last : NewChange} (hlast : changes.getLast? = some last)
    (hp : pushAll j.keys j.id draws 0
      (entriesFrom j.settings.values (j.lastSeq + 1) fileId txn (j.lastSeq + 1) changes) = .ok rs) :
    append fileId changes txn (Io.well draws) j = .ok ()
      { j.rolled.pushedOn rs with
        lastSeq := j.lastSeq + changes.length
        lastPos := some (fileId, last.dataEnd)
        written := j.written + changes.length } := by
  obtain ⟨hmap, -⟩ := pushAll_ok hp
  obtain ⟨-, hm⟩ := entriesFrom_spec j.settings.values (j.lastSeq + 1) fileId txn (j.lastSeq + 1) changes
  have hmark : ∀ p ∈ rs, p.1.isMark = false := fun p hp => hm p.1 (hmap ▸ List.mem_map_of_mem hp)
  have hw := write_well draws hl (.inl ⟨rfl, hmark⟩)
  obtain ⟨-, -, -, -, -, -, -, hwritten⟩ := rolled_frame j
  have hpush : pushed (entriesFrom j.settings.values (j.lastSeq + 1) fileId txn (j.lastSeq + 1) changes)
      (Io.well draws) j = .ok rs j := by
    simp only [pushed, bind, EStateM.bind, get, getThe, MonadStateOf.get, EStateM.get, Io.well, hp]
    rfl
  have hb : rs.flatMap Prod.snd = Tape.bytes rs := rfl
  have hlen : j.lastSeq + 1 + changes.length - 1 = j.lastSeq + changes.length := by omega
  simp only [append, bind, EStateM.bind, get, getThe, MonadStateOf.get, EStateM.get, hlast, hpush, hb, hw,
    modify, modifyGet, MonadStateOf.modifyGet, EStateM.modifyGet, hlen]
  rw [Journal.pushedOn, hwritten]

/-- What `append` does when nothing but the generator may fail. -/
theorem append_well (hl : j.active.len = j.active.file.length) (fileId : Nat) (changes : List NewChange) (txn : Bool)
    (draws : Nat → Draw) :
    (left (append fileId changes txn (Io.well draws)) j = j ∧
        (changes = [] ∨ ∃ e, append fileId changes txn (Io.well draws) j = .error e j)) ∨
      ∃ rs last, changes.getLast? = some last ∧
        pushAll j.keys j.id draws 0
          (entriesFrom j.settings.values (j.lastSeq + 1) fileId txn (j.lastSeq + 1) changes) = .ok rs ∧
        append fileId changes txn (Io.well draws) j = .ok ()
          { j.rolled.pushedOn rs with
            lastSeq := j.lastSeq + changes.length
            lastPos := some (fileId, last.dataEnd)
            written := j.written + changes.length } := by
  cases hlast : changes.getLast? with
  | none =>
      have hnil := List.getLast?_eq_none_iff.mp hlast
      subst hnil
      exact .inl ⟨rfl, .inl rfl⟩
  | some last =>
      cases hp : pushAll j.keys j.id draws 0
          (entriesFrom j.settings.values (j.lastSeq + 1) fileId txn (j.lastSeq + 1) changes) with
      | error e =>
          have herr : append fileId changes txn (Io.well draws) j = .error e j := by
            simp only [append, bind, EStateM.bind, get, getThe, MonadStateOf.get, EStateM.get, hlast, pushed, Io.well,
              hp]
            rfl
          exact .inl ⟨left_of_error herr, .inr ⟨e, herr⟩⟩
      | ok rs => exact .inr ⟨rs, last, rfl, rfl, append_pushed hl hlast hp⟩

omit [External] in
theorem markBody_fits {seq dataEnd : Nat} (fileId : UInt64) (hs : seq < 2 ^ 64) (hd : dataEnd < 2 ^ 64) :
    (markBody seq fileId.toNat dataEnd).Fits where
  seq := hs
  fileId := fileId.toNat_lt
  dataEnd := hd
  txn := show 0 < 2 ^ 64 by decide
  key := show (asBytes "").length ≤ Format.maxKeyLen by decide
  value := Nat.zero_le _

/-- What `mark` does once its record is made, when nothing fails. -/
theorem mark_pushed (hl : j.active.len = j.active.file.length) {fileId dataEnd : Nat} {draws : Nat → Draw} {rec : Bytes}
    (hp : pushRecord j.keys j.id (draws 0) (body (markBody j.lastSeq fileId dataEnd)) = .ok rec) :
    mark fileId dataEnd (Io.well draws) j = .ok ()
      { j.rolled.pushedOn [(markBody j.lastSeq fileId dataEnd, rec)] with lastPos := some (fileId, dataEnd) } := by
  have hpush : pushed [markBody j.lastSeq fileId dataEnd] (Io.well draws) j =
      .ok [(markBody j.lastSeq fileId dataEnd, rec)] j := by
    simp only [pushed, bind, EStateM.bind, get, getThe, MonadStateOf.get, EStateM.get, Io.well, pushAll, hp,
      Except.bind]
    rfl
  have hw : write (Tape.bytes [(markBody j.lastSeq fileId dataEnd, rec)]) [] (Io.well draws) j =
      .ok () (j.rolled.pushedOn [(markBody j.lastSeq fileId dataEnd, rec)]) :=
    write_well draws hl (.inr ⟨rfl, _, rfl, rfl⟩)
  have hb : [(markBody j.lastSeq fileId dataEnd, rec)].flatMap Prod.snd =
      Tape.bytes [(markBody j.lastSeq fileId dataEnd, rec)] := rfl
  simp only [mark, bind, EStateM.bind, get, getThe, MonadStateOf.get, EStateM.get, hpush, hb, hw,
    modify, modifyGet, MonadStateOf.modifyGet, EStateM.modifyGet]

/-- What `mark` does when nothing but the generator may fail. -/
theorem mark_well (hl : j.active.len = j.active.file.length) (fileId dataEnd : Nat) (draws : Nat → Draw) :
    (∃ e, mark fileId dataEnd (Io.well draws) j = .error e j) ∨
      ∃ rec, pushRecord j.keys j.id (draws 0) (body (markBody j.lastSeq fileId dataEnd)) = .ok rec ∧
        mark fileId dataEnd (Io.well draws) j = .ok ()
          { j.rolled.pushedOn [(markBody j.lastSeq fileId dataEnd, rec)] with
            lastPos := some (fileId, dataEnd) } := by
  cases hp : pushRecord j.keys j.id (draws 0) (body (markBody j.lastSeq fileId dataEnd)) with
  | error e =>
      refine .inl ⟨e, ?_⟩
      simp only [mark, bind, EStateM.bind, get, getThe, MonadStateOf.get, EStateM.get, pushed, Io.well, pushAll, hp,
        Except.bind]
      rfl
  | ok rec => exact .inr ⟨rec, rfl, mark_pushed hl hp⟩

namespace Holds

/-- The changes appended are found at the end of the journal, numbered on. -/
theorem append (h : j.Holds ts) (fileId : UInt64) {changes : List NewChange} (hc : ∀ c ∈ changes, c.Fits) (txn : Bool)
    (draws : Nat → Draw) (hroom : j.lastSeq + changes.length + 1 < 2 ^ 64) :
    ∃ ts', (left (Journal.append fileId.toNat changes txn (Io.well draws)) j).Holds ts' ∧
      changesOf ts' = changesOf ts ++
        (if Lib.Fallible.succeeds (Journal.append fileId.toNat changes txn (Io.well draws)) j then
          entriesFrom j.settings.values (j.lastSeq + 1) fileId.toNat txn (j.lastSeq + 1) changes else []) ∧
      ((left (Journal.append fileId.toNat changes txn (Io.well draws)) j).keys = j.keys ∧
        (left (Journal.append fileId.toNat changes txn (Io.well draws)) j).broken = j.broken) := by
  rcases append_well h.active_len fileId.toNat changes txn draws with ⟨hleft, hwhy⟩ | ⟨rs, last, hlast, hp, happ⟩
  · rw [hleft]
    refine ⟨ts, h, ?_, rfl, rfl⟩
    rcases hwhy with rfl | ⟨e, he⟩
    · simp [entriesFrom]
    · simp [Lib.Fallible.succeeds, he]
  · obtain ⟨hmap, hpush⟩ := pushAll_ok hp
    obtain ⟨hseq, hm⟩ := entriesFrom_spec j.settings.values (j.lastSeq + 1) fileId.toNat txn (j.lastSeq + 1) changes
    have hch := changes_of_map hmap hm
    obtain ⟨hkeys, hid, hlastSeq, -, hbroken, -⟩ := rolled_frame j
    obtain ⟨us, hrolled, hflat⟩ := h.rolled (by omega)
    have hfits := @entriesFrom_fits j.settings.values (j.lastSeq + 1) _ txn (j.lastSeq + 1) _ hc
      fileId.toNat_lt le_rfl (by omega)
    have hj : ∀ p ∈ rs, Journaled j.rolled.keys j.rolled.id p.1 p.2 := by
      rw [hkeys, hid]
      exact fun p hp => ⟨hfits p.1 (hmap ▸ List.mem_map_of_mem hp), hpush p hp⟩
    have hlen : (Tape.changes rs).length = changes.length := by
      rw [hch]
      simpa using congrArg List.length hseq
    have hn : (Tape.changes rs).map Body.seq = List.range' (j.rolled.lastSeq + 1) (Tape.changes rs).length := by
      rw [hlen, hch, hlastSeq, hseq]
    obtain ⟨vs, hvs, hvflat⟩ := hrolled.pushedOn hj hn
    rw [left_of_ok happ]
    refine ⟨vs, ?_, ?_, hkeys, hbroken⟩
    · rw [hlastSeq, hlen] at hvs
      exact ⟨hvs.segments, hvs.linked, hvs.positive, hvs.full, hvs.stray⟩
    · rw [changesOf_eq, changesOf_eq, hvflat, hflat, List.map_append, List.filter_append]
      simp only [Lib.Fallible.succeeds, happ, if_true]
      rw [← hch]
      rfl

theorem mark (h : j.Holds ts) (fileId : UInt64) {dataEnd : Nat} (hd : dataEnd < 2 ^ 64) (draws : Nat → Draw)
    (hroom : j.lastSeq + 1 < 2 ^ 64) :
    ∃ ts', (left (Journal.mark fileId.toNat dataEnd (Io.well draws)) j).Holds ts' ∧ changesOf ts' = changesOf ts ∧
      (left (Journal.mark fileId.toNat dataEnd (Io.well draws)) j).keys = j.keys ∧
      (left (Journal.mark fileId.toNat dataEnd (Io.well draws)) j).broken = j.broken := by
  rcases mark_well h.active_len fileId.toNat dataEnd draws with ⟨e, he⟩ | ⟨rec, hp, hmark⟩
  · rw [left_of_error he]
    exact ⟨ts, h, rfl, rfl, rfl⟩
  · obtain ⟨hkeys, hid, hlastSeq, -, hbroken, -⟩ := rolled_frame j
    obtain ⟨us, hrolled, hflat⟩ := h.rolled hroom
    have hfits := markBody_fits fileId (show j.lastSeq < 2 ^ 64 by omega) hd
    have hj : ∀ p ∈ [(markBody j.lastSeq fileId.toNat dataEnd, rec)], Journaled j.rolled.keys j.rolled.id p.1 p.2 := by
      rw [hkeys, hid]
      intro p hmem
      rw [List.mem_singleton.mp hmem]
      exact ⟨hfits, draws 0, hp⟩
    have hnil : Tape.changes [(markBody j.lastSeq fileId.toNat dataEnd, rec)] = [] := rfl
    obtain ⟨vs, hvs, hvflat⟩ := hrolled.pushedOn hj (by rw [hnil]; rfl)
    rw [left_of_ok hmark]
    refine ⟨vs, ?_, ?_, hkeys, hbroken⟩
    · rw [hnil] at hvs
      exact ⟨hvs.segments, hvs.linked, hvs.positive, hvs.full, hvs.stray⟩
    · rw [changesOf_eq, changesOf_eq, hvflat, hflat, List.map_append, List.filter_append]
      exact List.append_nil _

end Holds

end Journal

end KivaDb.Changes
