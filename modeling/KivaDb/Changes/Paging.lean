import KivaDb.Changes.Writing
import KivaDb.External
import KivaDb.Lib.Runs

namespace KivaDb.Changes

open Lib.LittleEndian Lib.Utf8 Lib.Flags Lib.Fallible Crypt

section

variable {after limit : Nat} {pattern : Option String}

theorem look_full {g : Gathered} (h : g.full = true) (b : Body) : g.look after limit pattern b = g := by
  simp [Gathered.look, h]

theorem foldl_look_full {g : Gathered} (h : g.full = true) (bs : List Body) :
    bs.foldl (Gathered.look after limit pattern) g = g := by
  induction bs with
  | nil => rfl
  | cons b bs ih => rw [List.foldl_cons, look_full h, ih]

/-- Marks and changes up to `after` are passed over. -/
theorem foldl_look_skip {bs : List Body} (h : ∀ b ∈ bs, b.isMark = false → b.seq ≤ after) (g : Gathered) :
    bs.foldl (Gathered.look after limit pattern) g = g := by
  induction bs with
  | nil => rfl
  | cons b bs ih =>
      have hb : g.look after limit pattern b = g := by
        cases hm : b.isMark with
        | true => simp [Gathered.look, hm]
        | false => simp [Gathered.look, h b List.mem_cons_self hm]
      rw [List.foldl_cons, hb, ih fun c hc => h c (List.mem_cons_of_mem _ hc)]

theorem foldl_look_filter (bs : List Body) (g : Gathered) :
    bs.foldl (Gathered.look after limit pattern) g =
      ((bs.filter fun b => !b.isMark).filter fun b => after < b.seq).foldl (Gathered.look after limit pattern) g := by
  induction bs generalizing g with
  | nil => rfl
  | cons b bs ih =>
      rw [List.foldl_cons, ih]
      by_cases hm : b.isMark = true
      · have hb : g.look after limit pattern b = g := by simp [Gathered.look, hm]
        simp [hm, hb]
      · by_cases ha : after < b.seq
        · simp [hm, ha]
        · have hb : g.look after limit pattern b = g := by simp [Gathered.look, not_lt.mp ha]
          simp [hm, ha, hb]

/-- What is gathered of changes numbered one after the other: a part of them from
the first on, at least one if there is one. -/
theorem foldl_look_numbered {bs : List Body} {g : Gathered} (hm : ∀ b ∈ bs, b.isMark = false)
    (hn : bs.map Body.seq = List.range' (g.next + 1) bs.length) (ha : after ≤ g.next) (hg : g.full = false) :
    ∃ m ≤ bs.length, (bs ≠ [] → 1 ≤ m) ∧
      (bs.foldl (Gathered.look after limit pattern) g).next = g.next + m ∧
      (bs.foldl (Gathered.look after limit pattern) g).changes =
        g.changes ++ ((bs.take m).filter (wanted pattern)).map Body.intoChange := by
  induction bs generalizing g with
  | nil => exact ⟨0, le_rfl, by simp, rfl, by simp⟩
  | cons b bs ih =>
      rw [List.map_cons, List.length_cons, List.range'_succ, List.cons.injEq] at hn
      obtain ⟨hseq, hrest⟩ := hn
      have hb : b.isMark = false := hm b List.mem_cons_self
      have hlt : ¬ g.next + 1 ≤ after := by omega
      have hlook : (g.look after limit pattern b).next = g.next + 1 ∧
          (g.look after limit pattern b).changes = g.changes ++ ([b].filter (wanted pattern)).map Body.intoChange := by
        cases hw : wanted pattern b <;> simp [Gathered.look, hg, hb, hlt, hw, hseq]
      rw [List.foldl_cons]
      cases hfull : (g.look after limit pattern b).full with
      | true =>
          refine ⟨1, by simp, fun _ => le_rfl, ?_, ?_⟩
          · rw [foldl_look_full hfull, hlook.1]
          · rw [foldl_look_full hfull, hlook.2]
            simp
      | false =>
          obtain ⟨m, hm', -, hnext, hch⟩ := ih (g := g.look after limit pattern b)
            (fun c hc => hm c (List.mem_cons_of_mem _ hc)) (by rw [hlook.1]; exact hrest)
            (by rw [hlook.1]; omega) hfull
          refine ⟨m + 1, by simpa using hm', fun _ => by omega, ?_, ?_⟩
          · rw [hnext, hlook.1]
            omega
          · rw [hch, hlook.2, List.append_assoc, ← List.map_append, ← List.filter_append]
            rfl

end

section

variable [External]

namespace Segment.Holds

variable {keys : Option Keys} {id : UInt64} {s : Segment} {t : Tape}

theorem numbered_bounds (h : s.Holds keys id t) {b : Body} (hb : b ∈ t.changes) :
    s.firstSeq ≤ b.seq ∧ b.seq < s.firstSeq + s.records := by
  have hm : b.seq ∈ t.changes.map Body.seq := List.mem_map_of_mem hb
  rw [h.numbered, List.mem_range'_1] at hm
  exact hm

/-- The changes before one of them have smaller numbers. -/
theorem lt_of_split (h : s.Holds keys id t) {pre post : Tape} {b : Body} {rec : Bytes}
    (ht : t = pre ++ (b, rec) :: post) (hb : b.isMark = false) {c : Body} (hc : c ∈ pre.changes) : c.seq < b.seq := by
  have hn := h.numbered
  rw [ht, Tape.changes_append, Tape.changes_cons, hb, List.map_append] at hn
  have hp : (List.range' s.firstSeq s.records).Pairwise (· < ·) := List.pairwise_lt_range'
  rw [← hn] at hp
  exact (List.pairwise_append.mp hp).2.2 c.seq (List.mem_map_of_mem hc) b.seq (by simp)

/-- Reading starts at a record, and leaves out only changes up to `after`. -/
theorem from_eq (h : s.Holds keys id t) (after : Nat) :
    ∃ pre post, t = pre ++ post ∧ s.from after = headerLen + pre.bytes.length ∧ ∀ b ∈ pre.changes, b.seq ≤ after := by
  rw [Segment.from]
  cases hf : s.index.reverse.find? fun p => p.1 ≤ after + 1 with
  | none => exact ⟨[], t, rfl, by simp, by simp⟩
  | some p =>
      have hp := List.find?_some hf
      obtain ⟨pre, b, rec, post, ht, hb, hseq, hpos⟩ :=
        h.index p (List.mem_reverse.mp (List.mem_of_find?_eq_some hf))
      refine ⟨pre, (b, rec) :: post, ht, by simpa using hpos, fun c hc => ?_⟩
      have hlt := h.lt_of_split ht hb hc
      simp only [decide_eq_true_eq] at hp
      omega

end Segment.Holds

namespace Journal

variable {j : Journal} {after limit : Nat} {pattern : Option String}

/-- Reading on in a segment looks at each of its records. -/
theorem readSegment_eq {s : Segment} {t : Tape} (h : s.Holds j.keys j.id t) (g : Gathered) :
    j.readSegment after limit pattern g s =
      .ok ((t.map Prod.fst).foldl (Gathered.look after limit pattern) g) := by
  obtain ⟨pre, post, ht, hfrom, hpre⟩ := h.from_eq after
  have hskip : (t.map Prod.fst).foldl (Gathered.look after limit pattern) g =
      (post.map Prod.fst).foldl (Gathered.look after limit pattern) g := by
    have hold : ∀ b ∈ pre.map Prod.fst, b.isMark = false → b.seq ≤ after := fun b hb hm =>
      hpre b (List.mem_filter.mpr ⟨hb, by simp [hm]⟩)
    rw [ht, List.map_append, List.foldl_append, foldl_look_skip hold]
  rw [hskip, readSegment]
  by_cases hfull : g.full = true
  · rw [foldl_look_full hfull]
    simp [hfull]
  · have hj : ∀ p ∈ post, Journaled j.keys j.id p.1 p.2 := fun p hp => h.journaled p (ht ▸ List.mem_append_right _ hp)
    have hlen := h.length_file
    have hbytes : t.bytes.length = pre.bytes.length + post.bytes.length := by
      rw [ht, Tape.bytes_append, List.length_append]
    simp only [hfrom, h.len, hfull, Bool.false_or]
    by_cases hend : s.file.length ≤ headerLen + pre.bytes.length
    · have hnil : post = [] := by
        have hle := length_le_bytes hj
        exact List.length_eq_zero_iff.mp (by omega)
      simp [hend, hnil]
    · have hslice : slice s.file (headerLen + pre.bytes.length) (s.file.length - (headerLen + pre.bytes.length)) =
          post.bytes := by
        rw [slice, h.drop_file ht, List.take_of_length_le (by omega)]
      have hrec := records_bytes hj []
      simp only [List.nil_append, List.length_nil] at hrec
      simp only [hend, decide_false, Bool.false_eq_true, if_false, lt_irrefl, hslice, hrec]
      rw [← map_placed 0 post, List.foldl_map]

theorem foldlM_readSegment {ss : List Segment} {ts : List Tape}
    (h : List.Forall₂ (Segment.Holds j.keys j.id) ss ts) (g : Gathered) :
    ss.foldlM (j.readSegment after limit pattern) g =
      .ok ((ts.flatten.map Prod.fst).foldl (Gathered.look after limit pattern) g) := by
  induction h generalizing g with
  | nil => rfl
  | @cons s t ss ts hs hss ih =>
      rw [List.foldlM_cons, readSegment_eq hs, List.flatten_cons, List.map_append, List.foldl_append]
      exact ih _

omit [External] in
theorem startingAt_eq (after : Nat) (ss : List Segment) :
    ∃ before, ss = before ++ startingAt after ss ∧
      (before = [] ∨ ∃ s rest, startingAt after ss = s :: rest ∧ s.firstSeq ≤ after + 1) := by
  rw [startingAt]
  cases hd : ss.reverse.dropWhile fun s => ¬ s.firstSeq ≤ after + 1 with
  | nil => exact ⟨[], rfl, .inl rfl⟩
  | cons s before =>
      have hs : s.firstSeq ≤ after + 1 := by
        have hhead := List.head?_dropWhile_not (fun s : Segment => decide (¬ s.firstSeq ≤ after + 1)) ss.reverse
        rw [hd] at hhead
        simpa using hhead
      obtain ⟨late, hlate⟩ : ∃ late, ss.reverse = late ++ s :: before :=
        ⟨_, by rw [← hd, List.takeWhile_append_dropWhile]⟩
      have hss : ss = before.reverse ++ s :: late.reverse := by
        rw [← List.reverse_reverse ss, hlate]
        simp
      have hdrop : ss.drop ((s :: before).length - 1) = s :: late.reverse := by
        rw [hss, List.drop_left' (by simp)]
      exact ⟨before.reverse, hss.trans (congrArg _ hdrop.symm), .inr ⟨s, _, hdrop, hs⟩⟩

/-- The changes kept after `after`. -/
def laterThan (after : Nat) (ts : List Tape) : List Body := (changesOf ts).filter fun b => after < b.seq

namespace Holds

variable {ts : List Tape}

theorem numbered (h : j.Holds ts) : (changesOf ts).map Body.seq = List.range' j.firstSeq (j.lastSeq + 1 - j.firstSeq) :=
  h.linked.numbered h.segments

theorem firstSeq_le (h : j.Holds ts) : j.firstSeq ≤ j.lastSeq + 1 := by
  have hstop := h.linked.stop_eq
  omega

/-- The segments a read passes over hold only changes up to `after`. -/
theorem gather_eq (h : j.Holds ts) (g : Gathered) :
    (startingAt after j.segments).foldlM (j.readSegment after limit pattern) g =
      .ok ((laterThan after ts).foldl (Gathered.look after limit pattern) g) := by
  obtain ⟨before, hss, hb⟩ := startingAt_eq after j.segments
  have hsegs := h.segments
  have hlinked := h.linked
  rw [hss] at hsegs hlinked
  obtain ⟨us, vs, rfl, hus, hvs⟩ := forall₂_append_left hsegs
  obtain ⟨hlow, hhigh⟩ := Linked.append.mp hlinked
  have hold : laterThan after us = [] := by
    rcases hb with rfl | ⟨s, rest, hs, hle⟩
    · cases hus
      rfl
    · rw [hs] at hhigh
      refine List.filter_eq_nil_iff.mpr fun b hb => ?_
      have hm : b.seq ∈ (changesOf us).map Body.seq := List.mem_map_of_mem hb
      rw [hlow.numbered hus, List.mem_range'_1] at hm
      have hfirst := hhigh.1
      simp only [decide_eq_true_eq]
      omega
  have hsplit : laterThan after (us ++ vs) = laterThan after us ++ laterThan after vs := by
    simp [laterThan]
  rw [foldlM_readSegment hvs, foldl_look_filter, hsplit, hold, List.nil_append, laterThan, changesOf_eq]

theorem laterThan_numbered (h : j.Holds ts) (hlo : j.firstSeq ≤ after + 1) (hhi : after ≤ j.lastSeq) :
    (laterThan after ts).map Body.seq = List.range' (after + 1) (laterThan after ts).length ∧
      (laterThan after ts).length = j.lastSeq - after := by
  have hmap : (laterThan after ts).map Body.seq =
      (List.range' j.firstSeq (j.lastSeq + 1 - j.firstSeq)).filter fun n => after < n := by
    rw [← h.numbered, List.filter_map]
    rfl
  have hsplit : List.range' j.firstSeq (j.lastSeq + 1 - j.firstSeq) =
      List.range' j.firstSeq (after + 1 - j.firstSeq) ++ List.range' (after + 1) (j.lastSeq - after) := by
    have hlen : j.lastSeq + 1 - j.firstSeq = (after + 1 - j.firstSeq) + (j.lastSeq - after) := by omega
    have hstart : after + 1 = j.firstSeq + (after + 1 - j.firstSeq) := by omega
    conv_rhs => rw [hstart]
    rw [hlen]
    simp [List.range'_append_1]
  have hlow : (List.range' j.firstSeq (after + 1 - j.firstSeq)).filter (fun n => after < n) = [] := by
    refine List.filter_eq_nil_iff.mpr fun n hn => ?_
    rw [List.mem_range'_1] at hn
    simp only [decide_eq_true_eq]
    omega
  have hhigh : (List.range' (after + 1) (j.lastSeq - after)).filter (fun n => after < n) =
      List.range' (after + 1) (j.lastSeq - after) := by
    refine List.filter_eq_self.mpr fun n hn => ?_
    rw [List.mem_range'_1] at hn
    simp only [decide_eq_true_eq]
    omega
  rw [hsplit, List.filter_append, hlow, hhigh, List.nil_append] at hmap
  have hlen : (laterThan after ts).length = j.lastSeq - after := by simpa using congrArg List.length hmap
  exact ⟨by rw [hmap, hlen], hlen⟩

/-- One read of a journal that holds `ts`: the changes looked at come right after
`after`, and there is one unless none is left. -/
theorem read_eq (h : j.Holds ts) (hb : j.broken = none) (hlo : j.firstSeq ≤ after + 1) (hhi : after ≤ j.lastSeq)
    (limit : Nat) (pattern : Option String) :
    ∃ m ≤ j.lastSeq - after, (after < j.lastSeq → 1 ≤ m) ∧
      j.read after limit pattern = .ok
        ⟨(((laterThan after ts).take m).filter (wanted pattern)).map Body.intoChange, after + m,
          after + m < j.lastSeq⟩ := by
  obtain ⟨hnum, hlen⟩ := h.laterThan_numbered hlo hhi
  have hmark : ∀ b ∈ laterThan after ts, b.isMark = false := by
    intro b hb
    have hc := (List.mem_filter.mp hb).1
    rw [changesOf_eq] at hc
    simpa using (List.mem_filter.mp hc).2
  obtain ⟨m, hm, hpos, hnext, hch⟩ := @foldl_look_numbered after (max 1 (min maxRead limit)) pattern _
    ⟨[], after, 0, false⟩ hmark hnum le_rfl rfl
  refine ⟨m, hlen ▸ hm, fun hlt => hpos fun hnil => ?_, ?_⟩
  · rw [hnil] at hlen
    simp only [List.length_nil] at hlen
    omega
  · rw [read, hb]
    simp only [not_lt.mpr hlo, if_false, h.gather_eq, bind, Except.bind, hnext, hch, List.nil_append]

end Holds

/-- A call that builds a journal. -/
inductive Build
  | append (fileId : UInt64) (changes : List { c : NewChange // c.Fits }) (txn : Bool) (draws : Nat → Draw)
  | mark (fileId : UInt64) (dataEnd : UInt64) (draws : Nat → Draw)
  | configure (settings : Settings)

namespace Build

def run (j : Journal) : Build → JM Unit
  | append fileId changes txn draws => Journal.append fileId.toNat (changes.map Subtype.val) txn (Io.well draws)
  | mark fileId dataEnd draws => Journal.mark fileId.toNat dataEnd.toNat (Io.well draws)
  | configure settings => set { j with settings }

/-- The changes a call adds. -/
def adds (j : Journal) : Build → List Body
  | append fileId changes txn draws =>
      if Lib.Fallible.succeeds (Journal.append fileId.toNat (changes.map Subtype.val) txn (Io.well draws)) j then
        entriesFrom j.settings.values (j.lastSeq + 1) fileId.toNat txn (j.lastSeq + 1) (changes.map Subtype.val)
      else []
  | mark .. => []
  | configure .. => []

/-- How many numbers a call takes. -/
def size : Build → Nat
  | append _ changes _ _ => changes.length
  | mark .. => 0
  | configure .. => 0

/-- One call, as long as the numbers are those of a `u64`; the changes added so
far go with the journal. -/
def step (s : Journal × List Body) (b : Build) : Option (Journal × List Body) :=
  if s.1.lastSeq + b.size + 1 < 2 ^ 64 then some (left (b.run s.1) s.1, s.2 ++ b.adds s.1) else none

end Build

/-- A call goes on with the changes of the journal. -/
theorem Holds.build {ts : List Tape} (h : j.Holds ts) {b : Build} (hroom : j.lastSeq + b.size + 1 < 2 ^ 64) :
    ∃ us, (left (b.run j) j).Holds us ∧ changesOf us = changesOf ts ++ b.adds j ∧
      (left (b.run j) j).keys = j.keys ∧ (left (b.run j) j).broken = j.broken := by
  cases b with
  | append fileId changes txn draws =>
      have hc : ∀ c ∈ changes.map Subtype.val, c.Fits := by
        intro c hc
        obtain ⟨d, -, rfl⟩ := List.mem_map.mp hc
        exact d.2
      exact h.append fileId hc txn draws (by simpa [Build.size] using hroom)
  | mark fileId dataEnd draws =>
      obtain ⟨us, hus, hch, hkeys, hbroken⟩ := h.mark fileId dataEnd.toNat_lt draws (by simpa [Build.size] using hroom)
      exact ⟨us, hus, by rw [hch, Build.adds, List.append_nil], hkeys, hbroken⟩
  | configure settings =>
      exact ⟨ts, ⟨h.segments, h.linked, h.positive, h.full, h.stray⟩, by rw [Build.adds, List.append_nil], rfl, rfl⟩

/-- What is true of a journal with the changes added to it. -/
structure Listed (s : Journal × List Body) : Prop where
  holds : ∃ ts, s.1.Holds ts ∧ changesOf ts = s.2
  broken : s.1.broken = none

theorem Listed.step {s s' : Journal × List Body} {b : Build} (h : Listed s) (hs : b.step s = some s') : Listed s' := by
  obtain ⟨j, log⟩ := s
  obtain ⟨⟨ts, hh, hlog⟩, hb⟩ := h
  simp only [Build.step] at hs
  split at hs
  · rename_i hroom
    cases hs
    obtain ⟨us, hus, hch, -, hbroken⟩ := hh.build hroom
    exact ⟨⟨us, hus, by rw [hch]; exact congrArg (· ++ _) hlog⟩, hbroken.trans hb⟩
  · cases hs

/-- A journal that was only just started. -/
theorem open_nil {dir : String} {keys : Option Keys} {settings : Settings} {random : Except String UInt64} {j : Journal}
    (h : Journal.open dir [] keys settings random = .ok j) :
    ∃ id, random = .ok id ∧ j.segments = [newSegment id 1] ∧ j.id = id ∧ j.lastSeq = 0 ∧ j.stray = none ∧
      j.broken = none := by
  cases random with
  | error why => simp [Journal.open, Opening.files, bind, Except.bind] at h
  | ok id =>
      simp only [Journal.open, List.mergeSort_nil, Opening.files, bind, Except.bind, Except.ok.injEq] at h
      subst h
      exact ⟨id, rfl, rfl, rfl, rfl, rfl, rfl⟩

theorem listed_nil {dir : String} {keys : Option Keys} {settings : Settings} {random : Except String UInt64}
    {j : Journal} (h : Journal.open dir [] keys settings random = .ok j) : Listed (j, []) := by
  obtain ⟨id, -, hseg, rfl, hlast, hstray, hbroken⟩ := open_nil h
  have holder : j.older = [] := by
    cases ho : j.older with
    | nil => rfl
    | cons s ss => simp [Journal.segments, ho] at hseg
  have hfirst : j.firstSeq = 1 := by simp [Journal.firstSeq, hseg, newSegment]
  refine ⟨⟨[[]], ⟨?_, ?_, hfirst.ge, by simp [holder], hstray⟩, rfl⟩, hbroken⟩
  · rw [hseg]
    refine .cons ⟨by simp [newSegment], ?_, by simp [newSegment], by simp, by simp [newSegment], by simp [newSegment]⟩ .nil
    simp [newSegment, header, magic, headerLen]
  · rw [hseg, hfirst, hlast]
    exact ⟨rfl, rfl⟩

theorem Listed.run {s s' : Journal × List Body} {as : List Build} (h : Listed s)
    (hr : Lib.Runs.run Build.step s as = some s') : Listed s' :=
  Lib.Runs.preserved (fun hi hs => hi.step hs) h hr

end Journal

end

namespace Journal

open Reference

def sampleSettings : Settings := ⟨true, 86400, 2 ^ 23⟩

def sampleSet (key : String) (dataEnd : Nat) : NewChange := ⟨.set, key, 1, asBytes "v", .json, 5, 0, some true, dataEnd⟩

def sampleFits (key : String) (dataEnd : Nat) (h : (asBytes key).length ≤ Format.maxKeyLen) (hd : dataEnd < 2 ^ 64) :
    { c : NewChange // c.Fits } :=
  ⟨sampleSet key dataEnd, h, show (asBytes "v").length ≤ Format.maxValueLen by decide, hd⟩

def sampleStart : Journal :=
  ⟨"", 7, sampleSettings, none, [], newSegment 7 1, none, 0, false, none, none, 0⟩

def sampleBuild : List Build :=
  [.append 1 [sampleFits "a" 100 (by decide) (by decide)] false fun _ => .error "",
    .mark 1 120 fun _ => .error "",
    .append 1 [sampleFits "b" 140 (by decide) (by decide), sampleFits "c" 160 (by decide) (by decide)]
      true fun _ => .error ""]

end Journal

end KivaDb.Changes
