import KivaDb.Pieces

namespace KivaDb

open Lib.LittleEndian Lib.Utf8 Lib.Flags Format Crypt

variable [External]

/-- The record of a write in clear. -/
def Write.record (w : Write) (extra : UInt8) : Bytes :=
  Format.encodeRecord w.key.1 w.stored w.tyCode (w.flags extra) w.timestamp w.expiresAt

namespace Log

/-- What one call writes at the end of the data file: the record of a single
put or delete, or those of an atomic batch in one go. -/
inductive Append
  | single (w : Write)
  | batch (init : List Write) (last : Write)

namespace Append

def records : Append → List (Write × Role)
  | single w => [(w, .single)]
  | batch init last => init.map (·, .member) ++ [(last, .commit)]

/-- The records in clear, as they are appended. -/
def recs : Append → List Bytes
  | single w => [w.record 0]
  | batch init last => init.map (·.record flagTxn) ++ [stampCommit (last.record flagTxn)]

def bytes (a : Append) : Bytes := a.recs.flatten

end Append

/-- What records written from `pos` on say, once they are read from the file. -/
def changesFrom (keys : Option Keys) : Nat → List (Write × Role) → List Change
  | _, [] => []
  | pos, (w, role) :: rs =>
      ⟨pos, w.key.1, (w.entry keys role.extra pos).map Entry.reread⟩ :: changesFrom keys (pos + w.recLen keys) rs

/-- The appends, applied in order from the byte `pos` on. -/
def applyAll : Nat → Index × Nat → List Append → Index × Nat
  | _, s, [] => s
  | pos, s, a :: rest => applyAll (pos + a.bytes.length) ((changesFrom none pos a.records).foldl applyChange s) rest

/-- The appends, laid out from the byte `pos` on, that end within the first `n`
bytes of the file. -/
def wholly (n : Nat) : Nat → List Append → List Append
  | _, [] => []
  | pos, a :: rest => if pos + a.bytes.length ≤ n then a :: wholly n (pos + a.bytes.length) rest else []

def dataFile (fileId : UInt64) (format : UInt32) (appends : List Append) : Bytes :=
  fileHeader fileId format ++ appends.flatMap Append.bytes

section

variable {σ : Type} (apply : σ → Change → σ)

theorem written_clear (w : Write) (role : Role) : Written none w role (match role with
    | .commit => stampCommit (w.record flagTxn)
    | role => w.record role.extra) := by
  cases role with
  | single => exact ⟨.error "", rfl⟩
  | member => exact ⟨.error "", rfl⟩
  | commit => exact ⟨.error "", _, rfl, rfl⟩

/-- A record in clear as a scan under any keys finds it. -/
def clearPiece (ks : Option Keys) (r : Write × Role) : Piece ks false where
  bytes := match r.2 with
    | .commit => stampCommit (r.1.record flagTxn)
    | role => r.1.record role.extra
  role := r.2
  read := read none r.1 r.2
  framed := (written_clear r.1 r.2).framed
  reads := fun pos => (written_clear r.1 r.2).readRecord_eq pos (fun _ h => nomatch h) (fun h => nomatch h)
  flags := fun _ h => (written_clear r.1 r.2).role_flags h

theorem length_clearPiece (ks : Option Keys) (r : Write × Role) : (clearPiece ks r).bytes.length = r.1.recLen none :=
  (written_clear r.1 r.2).length_eq

theorem read_clearPiece (ks : Option Keys) (r : Write × Role) (pos : Nat) :
    (clearPiece ks r).read pos = some ⟨pos, r.1.key.1, (r.1.entry none r.2.extra pos).map Entry.reread⟩ := by
  simp [clearPiece, read]

theorem joined_clear (ks : Option Keys) (a : Append) : joined (a.records.map (clearPiece ks)) = a.bytes := by
  cases a with
  | single w => simp [joined, clearPiece, Append.records, Append.bytes, Append.recs, Role.extra]
  | batch init last =>
      simp [joined, clearPiece, Append.records, Append.bytes, Append.recs, List.flatMap_def, Function.comp_def]
      rfl

theorem readsFrom_clear (ks : Option Keys) (rs : List (Write × Role)) (pos : Nat) :
    readsFrom pos (rs.map (clearPiece ks)) = changesFrom none pos rs := by
  induction rs generalizing pos with
  | nil => rfl
  | cons r rs ih =>
      rw [List.map_cons, readsFrom, read_clearPiece, length_clearPiece, ih]
      rfl

theorem valid_clear (ks : Option Keys) (rs : List (Write × Role)) :
    ∀ p ∈ rs.map (clearPiece ks), ∀ pos, p.read pos ≠ none := by
  intro p hp pos
  obtain ⟨r, -, rfl⟩ := List.mem_map.mp hp
  rw [read_clearPiece]
  exact Option.some_ne_none _

/-- An append in clear as a scan under any keys finds it. -/
def clearBlock (ks : Option Keys) : Append → Block ks false
  | .single w =>
      { init := []
        last := clearPiece ks (w, .single)
        members := by simp
        closes := .inr ⟨rfl, rfl⟩
        valid := valid_clear ks [(w, .single)] }
  | .batch init last =>
      { init := (init.map (·, Role.member)).map (clearPiece ks)
        last := clearPiece ks (last, .commit)
        members := by
          intro p hp
          obtain ⟨r, hr, rfl⟩ := List.mem_map.mp hp
          obtain ⟨w, -, rfl⟩ := List.mem_map.mp hr
          rfl
        closes := .inl rfl
        valid := by
          have h := valid_clear ks (init.map (·, Role.member) ++ [(last, .commit)])
          rwa [List.map_append] at h }

theorem pieces_clearBlock (ks : Option Keys) (a : Append) : (clearBlock ks a).pieces = a.records.map (clearPiece ks) := by
  cases a with
  | single w => rfl
  | batch init last =>
      rw [Append.records, List.map_append]
      rfl

/-- A whole append is applied, whatever stood before it. -/
theorem pieces_append (ks : Option Keys) (a : Append) {s : Scan σ} (hs : s.pending = []) :
    (s.pieces apply (a.records.map (clearPiece ks))).pending = [] ∧
      (s.pieces apply (a.records.map (clearPiece ks))).corrupted = s.corrupted ∧
      (s.pieces apply (a.records.map (clearPiece ks))).acc =
        (changesFrom none s.pos a.records).foldl apply s.acc := by
  have h := pieces_block apply (clearBlock ks a) hs
  rw [Block.changes, pieces_clearBlock, readsFrom_clear] at h
  exact h

/-- A member that waits does not move the end of the valid log. -/
theorem stop_member (ks : Option Keys) (s : Scan σ) (w : Write) :
    (s.piece apply (clearPiece ks (w, .member))).stop = s.stop ∧
      (s.piece apply (clearPiece ks (w, .member))).corrupted = s.corrupted ∧
      (s.piece apply (clearPiece ks (w, .member))).acc = s.acc := by
  have h := piece_member apply (s := s) (p := clearPiece ks (w, .member)) rfl (read_clearPiece ks (w, .member) s.pos)
  rw [h]
  refine ⟨?_, rfl, rfl⟩
  simp [Scan.stop]

/-- Cut anywhere before its last byte, a batch leaves no trace. -/
theorem scan_cut_batch (ks : Option Keys) (init : List Write) (last : Write × Role) (s : Scan σ) {m : Nat}
    (hm : m < (joined ((init.map (·, Role.member) ++ [last]).map (clearPiece ks))).length) :
    ∃ t, scan apply ks false s ((joined ((init.map (·, Role.member) ++ [last]).map (clearPiece ks))).take m) = .ok t ∧
      t.stop = s.stop ∧ t.corrupted = s.corrupted ∧ t.acc = s.acc := by
  induction init generalizing s m with
  | nil =>
      simp only [List.map_nil, List.nil_append, List.map_cons, joined_cons] at hm ⊢
      have hj : joined ([] : List (Piece ks false)) = [] := rfl
      rw [hj, List.append_nil] at hm ⊢
      exact ⟨s, scan_stop apply ks false s (nextFrame_torn (clearPiece ks last).framed hm), rfl, rfl, rfl⟩
  | cons w ws ih =>
      simp only [List.map_cons, List.cons_append, joined_cons] at hm ⊢
      by_cases hlt : m < (clearPiece ks (w, .member)).bytes.length
      · rw [List.take_append_of_le_length (by omega)]
        exact ⟨s, scan_stop apply ks false s (nextFrame_torn (clearPiece ks (w, .member)).framed hlt), rfl, rfl, rfl⟩
      · have hr : (clearPiece ks (w, .member)).read s.pos ≠ none := by
          rw [read_clearPiece]
          exact Option.some_ne_none _
        rw [List.length_append] at hm
        obtain ⟨t, ht, hstop, hcor, hacc⟩ := ih (s.piece apply (clearPiece ks (w, .member)))
          (m := m - (clearPiece ks (w, .member)).bytes.length) (by omega)
        obtain ⟨hs, hc, ha⟩ := stop_member apply ks s w
        refine ⟨t, ?_, hstop.trans hs, hcor.trans hc, hacc.trans ha⟩
        rw [List.take_append, List.take_of_length_le (by omega), scan_piece apply _ (.inl hr), ht]

theorem scan_cut (ks : Option Keys) (a : Append) (s : Scan σ) {m : Nat} (hm : m < a.bytes.length) :
    ∃ t, scan apply ks false s (a.bytes.take m) = .ok t ∧
      t.stop = s.stop ∧ t.corrupted = s.corrupted ∧ t.acc = s.acc := by
  rw [← joined_clear ks] at hm ⊢
  cases a with
  | single w => exact scan_cut_batch apply ks [] (w, .single) s hm
  | batch init last => exact scan_cut_batch apply ks init (last, .commit) s hm

theorem scan_whole (ks : Option Keys) (a : Append) (s : Scan σ) (rest : Bytes) :
    scan apply ks false s (a.bytes ++ rest) =
      scan apply ks false (s.pieces apply (a.records.map (clearPiece ks))) rest := by
  rw [← joined_clear ks]
  exact scan_pieces apply _ (.inl (valid_clear ks a.records))

end

/-- The appends that lie within the first `n` bytes of the file are applied,
and nothing of the others. -/
theorem scan_appends (ks : Option Keys) (as : List Append) (s : Scan (Index × Nat)) (n : Nat) (hs : s.pending = [])
    (hn : s.pos ≤ n) :
    ∃ t, scan applyChange ks false s ((as.flatMap Append.bytes).take (n - s.pos)) = .ok t ∧
      t.stop = s.pos + ((wholly n s.pos as).flatMap Append.bytes).length ∧ t.corrupted = s.corrupted ∧
      t.acc = applyAll s.pos s.acc (wholly n s.pos as) := by
  induction as generalizing s with
  | nil =>
      refine ⟨s, ?_, ?_, rfl, rfl⟩
      · rw [List.flatMap_nil, List.take_nil, scan_stop applyChange ks false s nextFrame_nil]
      · simp [Scan.stop, hs, wholly]
  | cons a as ih =>
      rw [List.flatMap_cons, wholly]
      by_cases hle : s.pos + a.bytes.length ≤ n
      · obtain ⟨hp, hc, ha⟩ := pieces_append applyChange ks a hs
        have hpos : (s.pieces applyChange (a.records.map (clearPiece ks))).pos = s.pos + a.bytes.length := by
          rw [Scan.pos_pieces, joined_clear]
        obtain ⟨t, ht, hstop, hcor, hacc⟩ := ih (s.pieces applyChange (a.records.map (clearPiece ks))) hp
          (by omega)
        rw [hpos] at ht hstop hacc
        refine ⟨t, ?_, ?_, hcor.trans hc, ?_⟩
        · have hsub : n - s.pos - a.bytes.length = n - (s.pos + a.bytes.length) := by omega
          rw [List.take_append, List.take_of_length_le (by omega), hsub, scan_whole, ht]
        · rw [hstop, if_pos hle, List.flatMap_cons, List.length_append]
          omega
        · rw [hacc, if_pos hle, applyAll, ha]
      · obtain ⟨t, ht, hstop, hcor, hacc⟩ := scan_cut applyChange ks a s (m := n - s.pos) (by omega)
        refine ⟨t, ?_, ?_, hcor, ?_⟩
        · rw [List.take_append_of_le_length (by omega), ht]
        · rw [hstop, if_neg hle]
          simp [Scan.stop, hs]
        · rw [hacc, if_neg hle]
          rfl

theorem wholly_prefix (n pos : Nat) (as : List Append) : wholly n pos as <+: as := by
  induction as generalizing pos with
  | nil => exact List.prefix_rfl
  | cons a as ih =>
      rw [wholly]
      split
      · exact (List.prefix_cons_inj a).mpr (ih _)
      · exact List.nil_prefix

theorem wholly_fits (n pos : Nat) (as : List Append) (h : pos ≤ n) :
    pos + ((wholly n pos as).flatMap Append.bytes).length ≤ n := by
  induction as generalizing pos with
  | nil => simpa [wholly] using h
  | cons a as ih =>
      rw [wholly]
      split
      · rename_i hle
        have hi := ih (pos + a.bytes.length) hle
        rw [List.flatMap_cons, List.length_append]
        omega
      · simpa using h

theorem wholly_self (n pos : Nat) (as : List Append) (h : pos + (as.flatMap Append.bytes).length ≤ n) :
    wholly n pos as = as := by
  induction as generalizing pos with
  | nil => rfl
  | cons a as ih =>
      rw [List.flatMap_cons, List.length_append] at h
      rw [wholly, if_pos (by omega), ih (pos + a.bytes.length) (by omega)]

omit [External] in
theorem length_fileHeader (fileId : UInt64) (format : UInt32) : (fileHeader fileId format).length = fileHeaderLen := by
  simp [fileHeader, magic, fileHeaderLen]

theorem take_dataFile (fileId : UInt64) (format : UInt32) (as : List Append) (m : Nat) :
    (dataFile fileId format as).take (fileHeaderLen + m) =
      fileHeader fileId format ++ (as.flatMap Append.bytes).take m := by
  rw [dataFile, List.take_append, length_fileHeader, Nat.add_sub_cancel_left,
    List.take_of_length_le (by rw [length_fileHeader]; omega)]

theorem drop_take_dataFile (fileId : UInt64) (format : UInt32) (as : List Append) (m : Nat) :
    ((dataFile fileId format as).take (fileHeaderLen + m)).drop fileHeaderLen = (as.flatMap Append.bytes).take m := by
  rw [take_dataFile, List.drop_left' (length_fileHeader fileId format)]

/-- The outcome of scanning a file cut `m` bytes after its header. -/
theorem scanLog_cut (ks : Option Keys) (fileId : UInt64) (format : UInt32) (as : List Append) (m : Nat) :
    scanLog ((dataFile fileId format as).take (fileHeaderLen + m)) fileHeaderLen ∅ 0 ks false = .ok
      { index := (applyAll fileHeaderLen (∅, 0) (wholly (fileHeaderLen + m) fileHeaderLen as)).1
        seq := (applyAll fileHeaderLen (∅, 0) (wholly (fileHeaderLen + m) fileHeaderLen as)).2
        stop := fileHeaderLen + ((wholly (fileHeaderLen + m) fileHeaderLen as).flatMap Append.bytes).length
        corrupted := 0 } := by
  obtain ⟨t, ht, hstop, hcor, hacc⟩ := scan_appends ks as (Scan.start fileHeaderLen (∅, 0)) (fileHeaderLen + m) rfl
    (Nat.le_add_right ..)
  have hpos : (Scan.start fileHeaderLen ((∅, 0) : Index × Nat)).pos = fileHeaderLen := rfl
  rw [hpos, Nat.add_sub_cancel_left] at ht
  rw [scanLog, replay_eq_scan, drop_take_dataFile, ht]
  simp only [bind, Except.bind, hstop, hcor, hacc]
  rfl

/-- Crash recovery is a prefix: a file cut anywhere after its header gives the
index of the appends that lie wholly inside it, and no corrupted record; cut
again where the last of them stops, it gives the same with nothing left over. -/
theorem scanLog_recovers_prefix (ks : Option Keys) (fileId : UInt64) (format : UInt32) (as : List Append) (m : Nat) :
    let cut := (dataFile fileId format as).take (fileHeaderLen + m)
    let inside := wholly (fileHeaderLen + m) fileHeaderLen as
    let stop := fileHeaderLen + (inside.flatMap Append.bytes).length
    scanLog cut fileHeaderLen ∅ 0 ks false = .ok
        { index := (applyAll fileHeaderLen (∅, 0) inside).1
          seq := (applyAll fileHeaderLen (∅, 0) inside).2
          stop := stop
          corrupted := 0 } ∧
      scanLog (cut.take stop) fileHeaderLen ∅ 0 ks false = .ok
        { index := (applyAll fileHeaderLen (∅, 0) inside).1
          seq := (applyAll fileHeaderLen (∅, 0) inside).2
          stop := (cut.take stop).length
          corrupted := 0 } := by
  intro cut inside stop
  refine ⟨scanLog_cut ks fileId format as m, ?_⟩
  have hfits := wholly_fits (fileHeaderLen + m) fileHeaderLen as (Nat.le_add_right ..)
  obtain ⟨rest, hrest⟩ := wholly_prefix (fileHeaderLen + m) fileHeaderLen as
  have hcut : cut.take stop = (dataFile fileId format inside).take stop := by
    have hb : (as.flatMap Append.bytes).take (inside.flatMap Append.bytes).length = inside.flatMap Append.bytes := by
      rw [← hrest, List.flatMap_append, List.take_left' rfl]
    rw [List.take_take, Nat.min_eq_left hfits, take_dataFile, take_dataFile, hb, List.take_of_length_le le_rfl]
  have hlen : ((dataFile fileId format inside).take stop).length = stop := by
    rw [take_dataFile, List.length_append, length_fileHeader, List.take_of_length_le le_rfl]
  rw [hcut, hlen, scanLog_cut ks fileId format inside, wholly_self _ _ _ le_rfl]

end Log

end KivaDb

namespace KivaDb.Log

open Lib.LittleEndian Lib.Utf8 Lib.Flags Format Crypt

variable [External]

/-- A record can be read later on: it is not the commit record of an encrypted
batch. -/
def Role.Readable (keys : Option Keys) (role : Role) : Prop := role = .commit → keys = none

/-- The bytes of an append: its records, in clear or sealed, one after the
other. -/
def Laid (keys : Option Keys) (a : Append) (buf : Bytes) : Prop :=
  ∃ recs, List.Forall₂ (fun r rec => Written keys r.1 r.2 rec) a.records recs ∧ buf = recs.flatten

def lenAll (keys : Option Keys) (rs : List (Write × Role)) : Nat := (rs.map (·.1.recLen keys)).sum

/-- The length of appends in the file. -/
def logLen (keys : Option Keys) (as : List Append) : Nat := (as.map fun a => lenAll keys a.records).sum

/-- What appends laid out from `pos` on change. -/
def logChanges (keys : Option Keys) : Nat → List Append → List Change
  | _, [] => []
  | pos, a :: as => changesFrom keys pos a.records ++ logChanges keys (pos + lenAll keys a.records) as

theorem logLen_append (keys : Option Keys) (as cs : List Append) :
    logLen keys (as ++ cs) = logLen keys as + logLen keys cs := by
  simp [logLen]

theorem logChanges_append (keys : Option Keys) (as cs : List Append) (pos : Nat) :
    logChanges keys pos (as ++ cs) = logChanges keys pos as ++ logChanges keys (pos + logLen keys as) cs := by
  induction as generalizing pos with
  | nil => rfl
  | cons a as ih =>
      simp only [List.cons_append, logChanges, ih, logLen, List.map_cons, List.sum_cons, Nat.add_assoc,
        List.append_assoc]

variable {keys ks : Option Keys} {req : Bool}

theorem length_written {rs : List (Write × Role)} {recs : List Bytes}
    (h : List.Forall₂ (fun r rec => Written keys r.1 r.2 rec) rs recs) : recs.flatten.length = lenAll keys rs := by
  induction h with
  | nil => rfl
  | cons hr hrs ih => rw [List.flatten_cons, List.length_append, ih, hr.length_eq, lenAll, lenAll, List.map_cons, List.sum_cons]

theorem Laid.length_eq {a : Append} {buf : Bytes} (h : Laid keys a buf) : buf.length = lenAll keys a.records := by
  obtain ⟨recs, hr, rfl⟩ := h
  exact length_written hr

theorem length_laid {as : List Append} {bufs : List Bytes} (h : List.Forall₂ (Laid keys) as bufs) :
    bufs.flatten.length = logLen keys as := by
  induction h with
  | nil => rfl
  | cons ha has ih => rw [List.flatten_cons, List.length_append, ih, ha.length_eq, logLen, logLen, List.map_cons, List.sum_cons]

/-- A written record as a scan finds it, under keys that can open it. -/
def Written.piece {w : Write} {role : Role} {rec : Bytes} (h : Written keys w role rec) (hc : CanOpen ks keys)
    (hq : req = true → keys.isSome) : Piece ks req where
  bytes := rec
  role := role
  read := read keys w role
  framed := h.framed
  reads := fun pos => h.readRecord_eq pos hc hq
  flags := fun _ hr => h.role_flags hr

theorem read_eq {w : Write} {role : Role} (hr : role.Readable keys) (pos : Nat) :
    read keys w role pos = some ⟨pos, w.key.1, (w.entry keys role.extra pos).map Entry.reread⟩ := by
  refine if_neg ?_
  rintro ⟨hrole, hs⟩
  rw [hr hrole] at hs
  simp at hs

/-- Written records as a scan finds them. -/
theorem pieces_written {rs : List (Write × Role)} {recs : List Bytes}
    (h : List.Forall₂ (fun r rec => Written keys r.1 r.2 rec) rs recs) (hr : ∀ r ∈ rs, r.2.Readable keys)
    (hc : CanOpen ks keys) (hq : req = true → keys.isSome) :
    ∃ ps : List (Piece ks req), joined ps = recs.flatten ∧ ps.map Piece.role = rs.map Prod.snd ∧
      (∀ p ∈ ps, ∀ pos, p.read pos ≠ none) ∧ ∀ pos, readsFrom pos ps = changesFrom keys pos rs := by
  induction h with
  | nil => exact ⟨[], rfl, rfl, by simp, fun _ => rfl⟩
  | @cons r rec rs recs hw hrs ih =>
      obtain ⟨ps, hb, hroles, hv, hread⟩ := ih fun q hq => hr q (List.mem_cons_of_mem r hq)
      have he (pos : Nat) := read_eq (w := r.1) (hr r List.mem_cons_self) pos
      refine ⟨hw.piece hc hq :: ps, ?_, ?_, ?_, fun pos => ?_⟩
      · rw [joined_cons, hb]
        rfl
      · rw [List.map_cons, hroles]
        rfl
      · refine List.forall_mem_cons.mpr ⟨fun pos hn => ?_, hv⟩
        exact Option.some_ne_none _ ((he pos).symm.trans hn)
      · have hp : (hw.piece hc hq).read pos = some ⟨pos, r.1.key.1, (r.1.entry keys r.2.extra pos).map Entry.reread⟩ :=
          he pos
        have hl : (hw.piece hc hq).bytes.length = r.1.recLen keys := hw.length_eq
        rw [readsFrom, hp, hl, hread]
        rfl

/-- An append as a scan finds it. -/
theorem Laid.block {a : Append} {buf : Bytes} (h : Laid keys a buf) (hr : ∀ r ∈ a.records, r.2.Readable keys)
    (hc : CanOpen ks keys) (hq : req = true → keys.isSome) :
    ∃ b : Block ks req, b.bytes = buf ∧ ∀ pos, b.changes pos = changesFrom keys pos a.records := by
  obtain ⟨recs, hw, rfl⟩ := h
  obtain ⟨ps, hb, hroles, hv, hread⟩ := pieces_written hw hr hc hq
  obtain ⟨init, last, rfl, hm, hl⟩ : ∃ init last, ps = init ++ [last] ∧ (∀ p ∈ init, p.role = .member) ∧
      (last.role = .commit ∨ init = [] ∧ last.role = .single) := by
    cases a with
    | single w =>
        rw [Append.records] at hroles
        obtain ⟨p, rfl⟩ := List.length_eq_one_iff.mp (by simpa using congrArg List.length hroles)
        exact ⟨[], p, rfl, by simp, .inr ⟨rfl, by simpa using hroles⟩⟩
    | batch ws w =>
        rw [Append.records, List.map_append] at hroles
        obtain ⟨init, ls, rfl, hi, hls⟩ := List.map_eq_append_iff.mp hroles
        obtain ⟨p, rfl⟩ := List.length_eq_one_iff.mp (by simpa using congrArg List.length hls)
        refine ⟨init, p, rfl, fun q hq => ?_, .inl (by simpa using hls)⟩
        have hmem : q.role ∈ init.map Piece.role := List.mem_map_of_mem hq
        rw [hi] at hmem
        simp only [List.map_map, List.mem_map, Function.comp_apply] at hmem
        obtain ⟨w', -, hw'⟩ := hmem
        exact hw'.symm
  exact ⟨⟨init, last, hm, hl, hv⟩, hb, hread⟩

theorem blocks_laid {as : List Append} {bufs : List Bytes} (h : List.Forall₂ (Laid keys) as bufs)
    (hr : ∀ a ∈ as, ∀ r ∈ a.records, r.2.Readable keys) (hc : CanOpen ks keys) (hq : req = true → keys.isSome) :
    ∃ bs : List (Block ks req), bs.flatMap Block.bytes = bufs.flatten ∧
      ∀ pos, changesAll pos bs = logChanges keys pos as := by
  induction h with
  | nil => exact ⟨[], rfl, fun _ => rfl⟩
  | @cons a buf as bufs ha has ih =>
      obtain ⟨b, hb, hch⟩ := ha.block (hr a List.mem_cons_self) hc hq
      obtain ⟨bs, hbs, hchs⟩ := ih fun c hc' => hr c (List.mem_cons_of_mem a hc')
      refine ⟨b :: bs, ?_, fun pos => ?_⟩
      · rw [List.flatMap_cons, hb, hbs, List.flatten_cons]
      · rw [changesAll, hch, hb, hchs, ha.length_eq, logChanges]

/-- A log of whole appends is replayed whole, from where it begins. -/
theorem scanLog_laid {as : List Append} {bufs : List Bytes} (h : List.Forall₂ (Laid keys) as bufs)
    (hr : ∀ a ∈ as, ∀ r ∈ a.records, r.2.Readable keys) (hc : CanOpen ks keys) (hq : req = true → keys.isSome)
    (pre : Bytes) (s : Index × Nat) :
    scanLog (pre ++ bufs.flatten) pre.length s.1 s.2 ks req = .ok
      { index := ((logChanges keys pre.length as).foldl applyChange s).1
        seq := ((logChanges keys pre.length as).foldl applyChange s).2
        stop := (pre ++ bufs.flatten).length
        corrupted := 0 } := by
  obtain ⟨bs, hbs, hch⟩ := blocks_laid h hr hc hq
  obtain ⟨t, ht, hp, hcor, hpos, hacc⟩ := scan_blocks applyChange bs (s := Scan.start pre.length s) rfl
  have hstart : (Scan.start pre.length s).pos = pre.length := rfl
  rw [hstart, hch] at hacc
  rw [hstart] at hpos
  have hstop : t.stop = (pre ++ bufs.flatten).length := by
    rw [Scan.stop, if_pos hp, hpos, hbs, List.length_append]
  rw [scanLog, replay_eq_scan, List.drop_left' rfl, ← hbs, ht]
  simp only [bind, Except.bind, hacc, hcor, hstop, hbs]
  rfl

end KivaDb.Log
