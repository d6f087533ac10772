import KivaDb.Changes.Cutting

namespace KivaDb.Changes

open Lib.LittleEndian Lib.Utf8 Lib.Flags Lib.Fallible Crypt

section

variable [External] {keys : Option Keys} {id : UInt64}

omit [External] in
theorem parseSegmentHeader_header {first : Nat} (hf : first < 2 ^ 64) (rest : Bytes) :
    parseSegmentHeader (header id first ++ rest) first = some id := by
  have hlen : headerLen ≤ (header id first ++ rest).length := by
    simp [header, magic, headerLen]
    omega
  have hmagic : slice (header id first ++ rest) 0 4 = magic :=
    slice_eq_of_append (p := []) (r := le32 version ++ (le64 id ++ toLE 8 first) ++ rest)
      (by simp [header]) rfl (by decide)
  have hver : u32At (header id first ++ rest) 4 = version :=
    u32At_of_append (p := magic) (r := (le64 id ++ toLE 8 first) ++ rest) (by simp [header]) (by decide)
  have hid : u64At (header id first ++ rest) 8 = id :=
    u64At_of_append (p := magic ++ le32 version) (r := toLE 8 first ++ rest) (by simp [header]) (by simp [magic])
  have hfirst : (u64At (header id first ++ rest) 16).toNat = first :=
    u64At_toLE (p := magic ++ (le32 version ++ le64 id)) (r := rest) hf (by simp [header]) (by simp [magic])
  have hok : ¬ ((header id first ++ rest).length < headerLen ∨ slice (header id first ++ rest) 0 4 ≠ magic ∨
      u32At (header id first ++ rest) 4 ≠ version) := by
    rintro (h | h | h)
    · omega
    · exact h hmagic
    · exact h hver
  rw [parseSegmentHeader, if_neg hok, if_pos hfirst, hid]

omit [External] in
/-- What opening finds of the records is what writing them noted. -/
theorem foldl_found {pos : Nat} (t : Tape) (s s' : Segment) (hs : s' = { s with file := s'.file }) (hl : s.len = pos) :
    (placed pos t).foldl Segment.found s' = { t.foldl Segment.push s with file := s'.file } := by
  induction t generalizing pos s s' with
  | nil => exact hs
  | cons p t ih =>
      rw [placed, List.foldl_cons, List.foldl_cons]
      have hnext : s'.found (pos, p.1, pos + p.2.length) = { s.push p with file := s'.file } := by
        rw [hs, Segment.found, Segment.push, ← hl]
        cases p.1.isMark <;> rfl
      have hfile : (s'.found (pos, p.1, pos + p.2.length)).file = s'.file := by rw [hnext]
      rw [ih (s.push p) (s'.found (pos, p.1, pos + p.2.length)) ?_ ?_, hfile]
      · rw [hfile]
        exact hnext
      · show s.len + p.2.length = _
        rw [hl]

/-- A segment as opening its file finds it. -/
def reopened (id : UInt64) (first : Nat) (t : Tape) : Segment := t.foldl Segment.push (newSegment id first)

theorem newSegment_holds {first : Nat} (hf : first < 2 ^ 64) : (newSegment id first).Holds keys id [] := by
  refine ⟨by simp [newSegment], ?_, hf, by simp, by simp [newSegment], by simp [newSegment]⟩
  simp [newSegment, header, magic, headerLen]

variable {s : Segment} {t : Tape}

theorem Segment.Holds.reopened (h : s.Holds keys id t) :
    (reopened id s.firstSeq t).Holds keys id t ∧ (Changes.reopened id s.firstSeq t).firstSeq = s.firstSeq ∧
      (Changes.reopened id s.firstSeq t).records = s.records ∧ (Changes.reopened id s.firstSeq t).file = s.file := by
  have hnew : (newSegment id s.firstSeq).Holds keys id [] := newSegment_holds h.first
  obtain ⟨hh, hf, hr⟩ := hnew.pushes h.journaled (by rw [h.length_changes]; exact h.numbered)
  refine ⟨hh, hf, ?_, ?_⟩
  · rw [Changes.reopened, hr, h.length_changes]
    exact Nat.zero_add _
  · rw [Changes.reopened, (foldl_push_file t _).1, h.file]
    rfl

/-- Opening the file of a segment. -/
theorem Opening.file_eq (h : s.Holds keys id t) (dir : String) (o : Opening) (hid : o.id.getD id = id) (newest : Bool) :
    o.file dir keys s.firstSeq s.file newest = .ok
      { id := some id
        segments := o.segments ++ [reopened id s.firstSeq t]
        lastSeq := Journal.lastChange o.lastSeq (placed headerLen t)
        lastPos := ((placed headerLen t).getLast?.map fun r => (r.2.1.fileId, r.2.1.dataEnd)).or o.lastPos } := by
  obtain ⟨hh, -, -, hfile⟩ := h.reopened
  have hparse : parseSegmentHeader s.file s.firstSeq = some id := by
    rw [h.file]
    exact parseSegmentHeader_header h.first _
  have hfold : (placed headerLen t).foldl Segment.found ⟨s.firstSeq, headerLen, 0, [], 0, s.file⟩ =
      reopened id s.firstSeq t := by
    have hfold := @foldl_found headerLen t (newSegment id s.firstSeq)
      ⟨s.firstSeq, headerLen, 0, [], 0, s.file⟩ rfl rfl
    rw [hfold, ← hfile]
    rfl
  have hlen : (reopened id s.firstSeq t).len = s.file.length := by rw [hh.len, hfile]
  have htake : s.file.take s.file.length = (reopened id s.firstSeq t).file := by rw [List.take_length, hfile]
  rw [Opening.file]
  simp only [hparse, hid, ne_eq, not_true_eq_false, if_false, h.records_file, hfold, hlen, lt_irrefl, false_and, htake]
  rw [← hlen]

omit [External] in
/-- The last number found in segments linked from `n` up to `stop`. -/
def foundUpTo (stop last : Nat) (ss : List Segment) : Nat :=
  if (ss.map Segment.records).sum = 0 then last else stop - 1

/-- Opening the files of linked segments. -/
theorem Opening.files_eq {ss : List Segment} {ts : List Tape} (hs : List.Forall₂ (Segment.Holds keys id) ss ts)
    {n stop : Nat} (hl : Linked n stop ss) (dir : String) (o : Opening) (hid : o.id.getD id = id) :
    ∃ o' ss', Opening.files dir keys o (ss.map fun s => (s.firstSeq, s.file)) = .ok o' ∧
      o'.id = (if ss = [] then o.id else some id) ∧ o'.segments = o.segments ++ ss' ∧
      o'.lastSeq = foundUpTo stop o.lastSeq ss ∧ List.Forall₂ (Segment.Holds keys id) ss' ts ∧
      ss'.map Segment.firstSeq = ss.map Segment.firstSeq ∧ ss'.map Segment.records = ss.map Segment.records := by
  induction hs generalizing n o with
  | nil => exact ⟨o, [], rfl, rfl, by simp, rfl, .nil, rfl, rfl⟩
  | @cons s t ss ts hst hss ih =>
      obtain ⟨rfl, hrest⟩ := hl
      obtain ⟨hh, hf, hr, -⟩ := hst.reopened
      rw [List.map_cons, Opening.files, Opening.file_eq hst dir o hid]
      obtain ⟨o', ss', hopen, ho'id, hsegs, hlast, hss', hfirst, hrec⟩ := ih hrest
        { id := some id
          segments := o.segments ++ [reopened id s.firstSeq t]
          lastSeq := Journal.lastChange o.lastSeq (placed headerLen t)
          lastPos := ((placed headerLen t).getLast?.map fun r => (r.2.1.fileId, r.2.1.dataEnd)).or o.lastPos } rfl
      refine ⟨o', reopened id s.firstSeq t :: ss', hopen, ?_, ?_, ?_, .cons hh hss', ?_, ?_⟩
      · rw [ho'id]
        simp
      · rw [hsegs, List.append_assoc]
        rfl
      · have hstop := hrest.stop_eq
        have hnum : t.changes.map Body.seq = List.range' s.firstSeq t.changes.length := by
          rw [hst.length_changes]
          exact hst.numbered
        have hnil : t.changes = [] ↔ s.records = 0 := by
          rw [← hst.length_changes, List.length_eq_zero_iff]
        rw [hlast, foundUpTo, foundUpTo, Journal.lastChange_placed hnum, List.map_cons, List.sum_cons, hst.length_changes]
        by_cases hz : (ss.map Segment.records).sum = 0
        · by_cases hr0 : s.records = 0
          · simp [hz, hr0, hnil.mpr hr0]
          · simp [hz, hr0, mt hnil.mp hr0, hstop]
        · simp [hz]
      · simp [hf, hfirst]
      · simp [hr, hrec]

omit [External] in
/-- How segments are linked is a matter of their numbers. -/
theorem Linked.congr {n stop : Nat} {ss ss' : List Segment} (h : Linked n stop ss)
    (hf : ss'.map Segment.firstSeq = ss.map Segment.firstSeq) (hr : ss'.map Segment.records = ss.map Segment.records) :
    Linked n stop ss' := by
  induction ss generalizing n ss' with
  | nil =>
      obtain rfl : ss' = [] := List.map_eq_nil_iff.mp hf
      exact h
  | cons s ss ih =>
      cases ss' with
      | nil => simp at hf
      | cons s' ss' =>
          simp only [List.map_cons, List.cons.injEq] at hf hr
          refine ⟨hf.1.trans h.1, ?_⟩
          rw [hr.1]
          exact ih h.2 hf.2 hr.2

omit [External] in
theorem Linked.sorted {n stop : Nat} {ss : List Segment} (h : Linked n stop ss) :
    (∀ s ∈ ss, n ≤ s.firstSeq) ∧ ss.Pairwise fun a b => a.firstSeq ≤ b.firstSeq := by
  induction ss generalizing n with
  | nil => simp
  | cons s ss ih =>
      obtain ⟨rfl, hrest⟩ := h
      obtain ⟨hle, hsorted⟩ := ih hrest
      constructor
      · intro r hr
        rcases List.mem_cons.mp hr with rfl | hr
        · exact le_rfl
        · have := hle r hr
          omega
      · refine List.pairwise_cons.mpr ⟨fun r hr => ?_, hsorted⟩
        have := hle r hr
        omega

namespace Journal

variable {j : Journal} {ts : List Tape}

/-- What is read back of a journal's files. Its number is that of the last change
found, which is not always the last one given. -/
theorem Holds.reopen (h : j.Holds ts) (dir : String) (settings : Settings) (random : Except String UInt64) :
    ∃ j', Journal.open dir j.files j.keys settings random = .ok j' ∧
      j'.lastSeq = foundUpTo (j.lastSeq + 1) 0 j.segments ∧ j'.firstSeq = j.firstSeq ∧ j'.id = j.id ∧
      j'.broken = none ∧ (j'.lastSeq = j.lastSeq → j'.Holds ts) := by
  have hfiles : j.files = j.segments.map fun s => (s.firstSeq, s.file) := by
    rw [Journal.files, h.stray]
    simp
  have hsort : (j.files.mergeSort fun a b => a.1 ≤ b.1) = j.segments.map fun s => (s.firstSeq, s.file) := by
    rw [hfiles]
    refine List.mergeSort_of_pairwise ?_
    rw [List.pairwise_map]
    exact h.linked.sorted.2.imp fun hle => by simpa using hle
  obtain ⟨o', ss', hopen, hid, hsegs, hlast, hss', hfirst, hrec⟩ :=
    Opening.files_eq h.segments h.linked dir ⟨none, [], 0, none⟩ rfl
  have hne : j.segments ≠ [] := by simp [Journal.segments]
  rw [if_neg hne] at hid
  rw [List.nil_append] at hsegs
  have hss : ss' ≠ [] := by
    intro hnil
    rw [hnil] at hrec
    exact hne (List.map_eq_nil_iff.mp hrec.symm)
  have hback : ss'.dropLast ++ [ss'.getLast hss] = ss' := List.dropLast_append_getLast hss
  have hget : ss'.getLast?.getD (newSegment j.id (o'.lastSeq + 1)) = ss'.getLast hss := by
    rw [List.getLast?_eq_getLast_of_ne_nil hss]
    rfl
  have hfull : ∀ s ∈ ss'.dropLast, 0 < s.records := by
    have hdrop : ss'.dropLast.map Segment.records = j.older.map Segment.records := by
      rw [List.map_dropLast, hrec, ← List.map_dropLast, Journal.segments, List.dropLast_concat]
    intro s hs
    have hmem : s.records ∈ j.older.map Segment.records := hdrop ▸ List.mem_map_of_mem hs
    obtain ⟨r, hr, heq⟩ := List.mem_map.mp hmem
    exact heq ▸ h.full r hr
  obtain ⟨j', hj', hkeys, hid', hj'last, hj'segs, holder, hstray, hbroken⟩ :
      ∃ j', Journal.open dir j.files j.keys settings random = .ok j' ∧ j'.keys = j.keys ∧ j'.id = j.id ∧
        j'.lastSeq = o'.lastSeq ∧ j'.segments = ss' ∧ j'.older = ss'.dropLast ∧ j'.stray = none ∧ j'.broken = none := by
    rw [Journal.open, hsort, hopen]
    simp only [bind, Except.bind, hid, hsegs, hget]
    exact ⟨_, rfl, rfl, rfl, rfl, hback, rfl, rfl, rfl⟩
  have hj'first : j'.firstSeq = j.firstSeq := by
    rw [Journal.firstSeq, Journal.firstSeq, hj'segs, ← List.head?_map, ← List.head?_map, hfirst]
  refine ⟨j', hj', hj'last.trans hlast, hj'first, hid', hbroken, fun hsame => ⟨?_, ?_, ?_, ?_, hstray⟩⟩
  · rw [hj'segs, hkeys, hid']
    exact hss'
  · rw [hj'segs, hj'first, hsame]
    exact h.linked.congr hfirst hrec
  · rw [hj'first]
    exact h.positive
  · rw [holder]
    exact hfull

omit [External] in
theorem hexDigit_spec : ∀ n < 16, hexValue (hexDigit n) = some n ∧ isWhitespace (hexDigit n) = false := by
  decide

omit [External] in
@[simp] theorem length_hexDigits (n : Nat) : (hexDigits n).length = 16 := by simp [hexDigits]

omit [External] in
theorem mem_hexDigits {n : Nat} {c : Char} (h : c ∈ hexDigits n) : (hexValue c).isSome ∧ isWhitespace c = false := by
  obtain ⟨i, -, rfl⟩ := List.mem_map.mp h
  obtain ⟨hv, hw⟩ := hexDigit_spec (n / 16 ^ i % 16) (Nat.mod_lt _ (by decide))
  exact ⟨by rw [hv]; rfl, hw⟩

omit [External] in
theorem foldl_hexDigits (n k a : Nat) :
    ((List.range k).reverse.map fun i => hexDigit (n / 16 ^ i % 16)).foldl
      (fun n c => 16 * n + (hexValue c).getD 0) a = a * 16 ^ k + n % 16 ^ k := by
  induction k generalizing a with
  | zero => simp [Nat.mod_one]
  | succ k ih =>
      have hv := (hexDigit_spec (n / 16 ^ k % 16) (Nat.mod_lt _ (by decide))).1
      rw [List.range_succ, List.reverse_append, List.reverse_singleton, List.singleton_append, List.map_cons,
        List.foldl_cons, ih, hv, Option.getD_some, Nat.mod_pow_succ, Nat.pow_succ]
      ring

omit [External] in
theorem fromHex_hexDigits {n : Nat} (h : n < 2 ^ 64) : fromHex (hexDigits n) = n := by
  have hmod : n % 16 ^ 16 = n := Nat.mod_eq_of_lt (by omega)
  rw [fromHex, hexDigits, foldl_hexDigits, hmod]
  omega

omit [External] in
theorem dropWhile_isWhitespace {cs : List Char} (h : ∀ c ∈ cs, isWhitespace c = false) :
    cs.dropWhile isWhitespace = cs := by
  cases cs with
  | nil => rfl
  | cons c cs => rw [List.dropWhile_cons_of_neg (by simp [h c List.mem_cons_self])]

omit [External] in
theorem trimmed_cursorOf (id : UInt64) (seq : Nat) : trimmed (cursorOf id seq) = hexDigits id.toNat ++ hexDigits seq := by
  have hw : ∀ c ∈ hexDigits id.toNat ++ hexDigits seq, isWhitespace c = false := by
    intro c hc
    rcases List.mem_append.mp hc with hc | hc
    · exact (mem_hexDigits hc).2
    · exact (mem_hexDigits hc).2
  rw [trimmed, cursorOf, String.toList_ofList, dropWhile_isWhitespace hw,
    dropWhile_isWhitespace fun c hc => hw c (List.mem_reverse.mp hc), List.reverse_reverse]

/-- A cursor of the journal gives back its number, unless it is ahead. -/
theorem parseCursor_cursorOf (j : Journal) {seq : Nat} (hs : seq < 2 ^ 64) (hle : seq ≤ j.lastSeq) :
    j.parseCursor (cursorOf j.id seq) = .ok seq := by
  have hall : (hexDigits j.id.toNat ++ hexDigits seq).all (fun ch => (hexValue ch).isSome) = true := by
    rw [List.all_eq_true]
    intro c hc
    rcases List.mem_append.mp hc with hc | hc
    · exact (mem_hexDigits hc).1
    · exact (mem_hexDigits hc).1
  have htake : (hexDigits j.id.toNat ++ hexDigits seq).take 16 = hexDigits j.id.toNat := List.take_left' (by simp)
  have hdrop : (hexDigits j.id.toNat ++ hexDigits seq).drop 16 = hexDigits seq := List.drop_left' (by simp)
  rw [parseCursor]
  simp only [trimmed_cursorOf, List.length_append, length_hexDigits, hall, htake, hdrop,
    fromHex_hexDigits j.id.toNat_lt, fromHex_hexDigits hs, not_lt.mpr hle]
  simp

/-- What a read gives is a matter of the changes held and their bounds. -/
theorem Holds.read_congr {j' : Journal} (h : j.Holds ts) (h' : j'.Holds ts) (hb : j.broken = none)
    (hb' : j'.broken = none) (hf : j'.firstSeq = j.firstSeq) (hl : j'.lastSeq = j.lastSeq) (after limit : Nat)
    (pattern : Option String) : j'.read after limit pattern = j.read after limit pattern := by
  rw [Journal.read, Journal.read, hb, hb', hf, hl]
  simp only [h.gather_eq, h'.gather_eq]

theorem Holds.lastSeq_lt (h : j.Holds ts) : j.lastSeq < 2 ^ 64 := by
  obtain ⟨us, t, -, -, ht⟩ := h.split
  have hnum := h.active_numbers
  have hfirst := ht.first
  by_cases hz : j.active.records = 0
  · omega
  · have hmem : j.lastSeq ∈ t.changes.map Body.seq := by
      rw [ht.numbered, List.mem_range'_1]
      omega
    obtain ⟨b, hb, heq⟩ := List.mem_map.mp hmem
    obtain ⟨p, hp, rfl⟩ := List.mem_map.mp (List.mem_filter.mp hb).1
    exact heq ▸ (ht.journaled p hp).1.seq

/-- A call on a journal that is open. -/
inductive Edit
  | build (b : Build)
  | trim (nowSecs : Int64)
  | dropAfter (fileId len : UInt64)

def Edit.step (j : Journal) : Edit → Option Journal
  | build b => (b.step (j, [])).map Prod.fst
  | trim nowSecs => some (left (Journal.trim nowSecs) j)
  | dropAfter fileId len => some (left (Journal.dropAfter fileId.toNat len.toNat) j)

/-- What is true of a journal opened with `keys`, whatever was called on it. -/
structure Steady (keys : Option Keys) (j : Journal) : Prop where
  holds : ∃ ts, j.Holds ts
  broken : j.broken = none
  keys : j.keys = keys

theorem Steady.step {j j' : Journal} {e : Edit} (h : j.Steady keys) (hs : e.step j = some j') : j'.Steady keys := by
  obtain ⟨⟨ts, hh⟩, hb, hk⟩ := h
  cases e with
  | build b =>
      simp only [Edit.step, Build.step] at hs
      split at hs
      · rename_i hroom
        cases hs
        obtain ⟨us, hus, -, hkeys, hbroken⟩ := hh.build hroom
        exact ⟨⟨us, hus⟩, hbroken.trans hb, hkeys.trans hk⟩
      · cases hs
  | trim nowSecs =>
      cases hs
      obtain ⟨us, hus, -⟩ := hh.trim nowSecs
      exact ⟨⟨us, hus⟩, hb, hk⟩
  | dropAfter fileId len =>
      cases hs
      obtain ⟨us, hus, -, hkept⟩ := hh.dropAfter fileId.toNat len.toNat
      exact ⟨⟨us, hus⟩, hkept.broken.trans hb, hkept.keys.trans hk⟩

theorem Steady.run {j j' : Journal} {es : List Edit} (h : j.Steady keys) (hr : Lib.Runs.run Edit.step j es = some j') :
    j'.Steady keys :=
  Lib.Runs.preserved (fun hi hs => hi.step hs) h hr

/-- Reopening the files of `j` goes on with its numbers and keeps its cursors. -/
def Survives (j : Journal) (keys : Option Keys) (settings : Settings) (random : Except String UInt64) : Prop :=
  ∃ j', Journal.open j.dir j.files keys settings random = .ok j' ∧ j'.lastSeq = j.lastSeq ∧
    j'.firstSeq ≤ j'.lastSeq + 1 ∧
    ∀ after, j.firstSeq ≤ after + 1 → after ≤ j.lastSeq →
      j'.parseCursor (j.cursor after) = .ok after ∧
        ∀ limit pattern, ∃ b, j'.read after limit pattern = .ok b ∧ j.read after limit pattern = .ok b

theorem steady_nil {dir : String} {settings : Settings} {random : Except String UInt64}
    (h : Journal.open dir [] keys settings random = .ok j) : j.Steady keys := by
  obtain ⟨⟨ts, hh, -⟩, hb⟩ := listed_nil h
  refine ⟨⟨ts, hh⟩, hb, ?_⟩
  cases random with
  | error why => simp [Journal.open, Opening.files, bind, Except.bind] at h
  | ok id =>
      simp only [Journal.open, List.mergeSort_nil, Opening.files, bind, Except.bind, Except.ok.injEq] at h
      subst h
      rfl

omit [External] in
theorem foundUpTo_eq_iff {stop last : Nat} {ss : List Segment} (h : last ≠ stop - 1) :
    foundUpTo stop last ss = stop - 1 ↔ ∃ s ∈ ss, 0 < s.records := by
  have hsum : 0 < (ss.map Segment.records).sum ↔ ∃ s ∈ ss, 0 < s.records := by
    rw [List.sum_pos_iff_exists_pos_nat]
    simp
  rw [foundUpTo, ← hsum]
  by_cases hz : (ss.map Segment.records).sum = 0
  · simp [hz, h]
  · simp [hz, Nat.pos_of_ne_zero hz]

/-- Reopening keeps the numbers of a journal exactly when the segments it still has
hold a change, or none was ever numbered. -/
theorem numbers_survive_iff (dir : String) (keys : Option Keys) (settings : Settings) (random : Except String UInt64)
    (j₀ j : Journal) (es : List Edit) (h₀ : Journal.open dir [] keys settings random = .ok j₀)
    (hr : Lib.Runs.run Edit.step j₀ es = some j) (settings' : Settings) (random' : Except String UInt64) :
    j.Survives keys settings' random' ↔ j.lastSeq = 0 ∨ ∃ s ∈ j.segments, 0 < s.records := by
  obtain ⟨⟨ts, hh⟩, hb, rfl⟩ := (steady_nil h₀).run hr
  obtain ⟨j', hopen, hlast, hfirst, hid, hb', hsame⟩ := hh.reopen j.dir settings' random'
  have hkey : j'.lastSeq = j.lastSeq ↔ j.lastSeq = 0 ∨ ∃ s ∈ j.segments, 0 < s.records := by
    by_cases hz : j.lastSeq = 0
    · simp only [hz, true_or, iff_true]
      rw [hlast, hz, foundUpTo]
      split <;> rfl
    · have hiff := @foundUpTo_eq_iff (j.lastSeq + 1) 0 j.segments (by omega)
      rw [Nat.add_sub_cancel] at hiff
      rw [hlast, hiff]
      simp [hz]
  rw [← hkey]
  constructor
  · rintro ⟨k, hk, hkl, -⟩
    obtain rfl : j' = k := Except.ok.inj (hopen.symm.trans hk)
    exact hkl
  · intro heq
    have hh' := hsame heq
    refine ⟨j', hopen, heq, hh'.firstSeq_le, fun after hlo hhi => ⟨?_, fun limit pattern => ?_⟩⟩
    · have hlt := hh.lastSeq_lt
      rw [Journal.cursor, ← hid]
      exact parseCursor_cursorOf j' (by omega) (by omega)
    · obtain ⟨m, -, -, hread⟩ := hh.read_eq hb hlo hhi limit pattern
      exact ⟨_, (hh.read_congr hh' hb hb' hfirst heq after limit pattern).trans hread, hread⟩

end Journal

end

namespace Journal

open Reference

theorem sampleEdits_run : (Lib.Runs.run Edit.step sampleStart (sampleBuild.map Edit.build)).isSome := by decide

theorem sampleStart_open : Journal.open "" [] none sampleSettings (.ok 7) = .ok sampleStart := by
  simp [Journal.open, Opening.files, bind, Except.bind, sampleStart]

theorem numbers_survive_iff_sample :
    ∃ j, Lib.Runs.run Edit.step sampleStart (sampleBuild.map Edit.build) = some j ∧ j.lastSeq = 3 ∧
      j.Survives none sampleSettings (.error "") := by
  have hrun := (Option.some_get sampleEdits_run).symm
  refine ⟨_, hrun, by decide, ?_⟩
  exact (numbers_survive_iff "" none sampleSettings (.ok 7) sampleStart _ _ sampleStart_open hrun sampleSettings (.error "")).mpr
    (.inr (by decide))

section

variable (c : NewChange)

def recordOf (b : Body) : Bytes :=
  le32 (UInt32.ofNat (body b).length) ++ (le32 (External.crc32 (body b)) ++ body b)

theorem length_recordOf (b : Body) : (body b).length ≤ (recordOf b).length := by
  rw [recordOf, List.length_append, List.length_append]
  omega

/-- The journal once the change is in it. -/
def loaded : Journal :=
  { sampleStart.pushedOn [(entry true 1 1 false true 1 c, recordOf (entry true 1 1 false true 1 c))] with
    lastSeq := 1, lastPos := some (1, c.dataEnd), written := 1 }

/-- The journal once a mark has started a segment. -/
def marked : Journal :=
  { { loaded c with
      older := [(loaded c).active], active := newSegment 7 2, stray := none, dirty := false }.pushedOn
        [(markBody 1 2 64, recordOf (markBody 1 2 64))] with
    lastPos := some (2, 64) }

variable {c}

/-- A value this large fills a segment. -/
theorem loaded_full (hk : c.kind = .set) (hc : 2 ^ 20 ≤ c.raw.length) :
    (loaded c).settings.segmentBytes ≤ (loaded c).active.len ∧ 0 < (loaded c).active.records := by
  have hm : (entry true 1 1 false true 1 c).isMark = false := by
    rw [entry, hk]
    rfl
  constructor
  · have hvalue : (entry true 1 1 false true 1 c).value = c.raw := by simp [entry, hk]
    have hle := length_recordOf (entry true 1 1 false true 1 c)
    rw [length_body, hvalue] at hle
    have hseg : sampleSettings.segmentBytes = 2 ^ 20 := by decide
    have hlen : (loaded c).active.len = headerLen + (recordOf (entry true 1 1 false true 1 c)).length := rfl
    show sampleSettings.segmentBytes ≤ _
    omega
  · show 0 < ((newSegment 7 1).push (_, _)).records
    rw [push_records, hm]
    decide

theorem append_loaded : append 1 [c] false (Io.well fun _ => .error "") sampleStart = .ok () (loaded c) := by
  have hrolled : sampleStart.rolled = sampleStart := if_neg (by decide)
  have h := @append_pushed _ sampleStart (by rfl) 1 [c] false (fun _ => .error "")
    [(entry true 1 1 false true 1 c, recordOf (entry true 1 1 false true 1 c))] _ rfl rfl
  rw [hrolled] at h
  exact h

theorem loaded_len : (loaded c).active.len = (loaded c).active.file.length := by
  show headerLen + (recordOf _).length = (header 7 1 ++ recordOf _).length
  rw [List.length_append]
  rfl

theorem mark_loaded (hk : c.kind = .set) (hc : 2 ^ 20 ≤ c.raw.length) :
    mark 2 64 (Io.well fun _ => .error "") (loaded c) = .ok () (marked c) := by
  have hrolled : (loaded c).rolled = _ := if_pos (loaded_full hk hc)
  have h := @mark_pushed _ (loaded c) loaded_len 2 64 (fun _ => .error "") (recordOf (markBody 1 2 64)) rfl
  rw [hrolled] at h
  exact h

theorem step_append (hf : c.Fits) :
    Edit.step sampleStart (.build (.append 1 [⟨c, hf⟩] false fun _ => .error "")) = some (loaded c) := by
  show some (left (append 1 [c] false (Io.well fun _ => .error "")) sampleStart) = _
  rw [left_of_ok append_loaded]

theorem step_mark (hk : c.kind = .set) (hc : 2 ^ 20 ≤ c.raw.length) :
    Edit.step (loaded c) (.build (.mark 2 64 fun _ => .error "")) = some (marked c) := by
  show some (left (mark 2 64 (Io.well fun _ => .error "")) (loaded c)) = _
  rw [left_of_ok (mark_loaded hk hc)]

theorem step_trim (hk : c.kind = .set) (ht : c.timestamp = 5) :
    Edit.step (marked c) (.trim 86406) = some { marked c with older := [] } := by
  have hm : (entry true 1 1 false true 1 c).isMark = false := by
    rw [entry, hk]
    rfl
  have hts : (loaded c).active.lastTs = 5 := by
    show ((newSegment 7 1).push (_, _)).lastTs = 5
    rw [Segment.push, hm]
    exact ht
  have htrim : trimFrom sampleSettings 86406 (marked c).active [(loaded c).active] 0 = ([], 0 + (loaded c).active.records) := by
    rw [trimFrom, if_pos (.inl (by rw [hts]; decide)), trimFrom]
  show some (left (trim 86406) (marked c)) = _
  rw [trim_eq]
  show some { marked c with older := (trimFrom sampleSettings 86406 (marked c).active [(loaded c).active] 0).1 } = _
  rw [htrim]

end

/-- A change of a value so large that the segment is full after it. -/
def large : NewChange := ⟨.set, "a", 1, List.replicate (2 ^ 20) 0, .json, 5, 0, some true, 2 ^ 20 + 100⟩

theorem large_fits : large.Fits :=
  ⟨by decide, by rw [large, List.length_replicate]; decide, by decide⟩

/-- The mark of a compaction starts a segment, and the retention then removes the
one with the change. -/
def forgetful : List Edit :=
  [.build (.append 1 [⟨large, large_fits⟩] false fun _ => .error ""), .build (.mark 2 64 fun _ => .error ""), .trim 86406]

theorem number_given_twice :
    ∃ j j', Journal.open "" [] none sampleSettings (.ok 7) = .ok sampleStart ∧
      Lib.Runs.run Edit.step sampleStart forgetful = some j ∧
      Journal.open j.dir j.files none sampleSettings (.error "") = .ok j' ∧
      j.lastSeq = 1 ∧ j'.lastSeq = 0 ∧ j'.lastSeq + 1 < j'.firstSeq ∧ ¬ j.Survives none sampleSettings (.error "") := by
  have hlarge : 2 ^ 20 ≤ large.raw.length := List.length_replicate.ge
  have hrun : Lib.Runs.run Edit.step sampleStart forgetful = some { marked large with older := [] } :=
    Lib.Runs.run_cons.mpr ⟨_, step_append large_fits, Lib.Runs.run_cons.mpr ⟨_, step_mark rfl hlarge,
      Lib.Runs.run_cons.mpr ⟨_, step_trim rfl rfl, rfl⟩⟩⟩
  obtain ⟨⟨ts, hh⟩, -, -⟩ := (steady_nil sampleStart_open).run hrun
  obtain ⟨j', hopen, hlast, hfirst, -⟩ := hh.reopen "" sampleSettings (.error "")
  have hzero : j'.lastSeq = 0 := hlast
  have htwo : j'.firstSeq = 2 := hfirst
  refine ⟨_, j', sampleStart_open, hrun, hopen, rfl, hzero, by omega, ?_⟩
  rintro ⟨k, hk, hsame, -⟩
  obtain rfl : j' = k := Except.ok.inj (hopen.symm.trans hk)
  exact absurd (hzero.symm.trans hsame) (by decide)

end Journal

end KivaDb.Changes
