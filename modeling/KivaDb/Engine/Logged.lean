import KivaDb.Engine.Moves
import Mathlib.Algebra.BigOperators.Group.List.Basic

namespace KivaDb

open Lib.LittleEndian Lib.Utf8 Lib.Flags Lib.Fallible Format Crypt Log Relation

theorem formatForRecord_le (ty flags : UInt8) : formatForRecord ty flags ≤ formatVersion := by
  unfold formatForRecord
  split
  · decide
  · split <;> decide

section

variable [External]

omit [External] in
theorem formatNeededFrom_le (fuel : Nat) (buf : Bytes) {need : UInt32} (h : need ≤ formatVersion) :
    formatNeededFrom fuel buf need ≤ formatVersion := by
  induction fuel generalizing buf need with
  | zero => exact h
  | succ fuel ih =>
      unfold formatNeededFrom
      split
      · refine ih _ ?_
        rw [UInt32.max_def]
        split
        · exact formatForRecord_le _ _
        · exact h
      · exact h

end

section

variable [External] [Chrono] [Vectors] [Codec]

/-- The entry `e` of `k` is that of a record of the file that can be read. -/
def Backed (i : Inner) (k : String) (e : Entry) : Prop :=
  ∃ w role rec, Written i.keys w role rec ∧ role.Readable i.keys ∧ w.key.1 = k ∧ fileHeaderLen ≤ e.offset ∧
    i.readAt e.offset e.recLen = some rec ∧ w.entry i.keys role.extra e.offset = some e.bare

/-- The data file is a header and the appends `as`, and the index is the one
they make, but for what has expired at `t`. -/
structure Logged (t : Int64) (i : Inner) (as : List Append) : Prop where
  sound : i.Sound t
  laid : ∃ bufs, List.Forall₂ (Laid i.keys) as bufs ∧ i.file = fileHeader i.fileId i.format ++ bufs.flatten
  readable : ∀ a ∈ as, ∀ r ∈ a.records, r.2.Readable i.keys
  format : formatV1 ≤ i.format ∧ i.format ≤ formatVersion
  agree : Agree t i.index (scanned i.keys as).1
  backed : ∀ (k : String) (e : Entry), i.index[k]? = some e → Backed i k e
  count : i.index.size ≤ i.file.length

omit [Codec] in
theorem size_drops {now : Int64} {i i' : Inner} (hd : ReflTransGen (Drop now) i i') : i'.index.size ≤ i.index.size := by
  induction hd with
  | refl => exact le_rfl
  | tail hab hbc ih =>
      obtain ⟨key, e, he, -, rfl⟩ := hbc.cases
      rw [Inner.idxRemove_eq he]
      exact (Std.ExtTreeMap.size_erase_le (t := _) (k := key)).trans ih

namespace Logged

variable {t : Int64} {i : Inner} {as : List Append}

omit [Codec] in
theorem length_file (h : Logged t i as) : i.file.length = fileHeaderLen + logLen i.keys as := by
  obtain ⟨bufs, hl, hf⟩ := h.laid
  rw [hf, List.length_append, length_fileHeader, length_laid hl]

omit [Codec] in
theorem placed (h : Logged t i as) : i.Placed := by
  refine ⟨by rw [h.length_file]; omega, fun k e he => ?_⟩
  obtain ⟨w, role, rec, -, -, -, ho, hr, -⟩ := h.backed k e he
  refine ⟨ho, ?_⟩
  unfold Inner.readAt at hr
  split at hr
  · assumption
  · simp at hr

omit [Codec] in
theorem drops {now : Int64} (h : Logged t i as) (ht : now ≤ t) {i' : Inner} (hd : ReflTransGen (Drop now) i i') :
    Logged t i' as := by
  have hfr := Drop.frame_star hd
  have hfile : i'.file = i.file := by rw [hfr]
  have hkeys : i'.keys = i.keys := by rw [hfr]
  refine ⟨h.sound.drops hd, ?_, ?_, ?_, ?_, ?_, ?_⟩
  · rw [hfr]
    exact h.laid
  · rw [hkeys]
    exact h.readable
  · rw [hfr]
    exact h.format
  · rw [hkeys]
    intro k
    have hat : shown t i'.index[k]? = shown t i.index[k]? := congrArg (Option.map Entry.bare) (Drop.at?_star hd ht k)
    rw [hat]
    exact h.agree k
  · intro k e he
    have hk : i.index[k]? = some e := by
      rcases Drop.index_star hd k with hk | hk
      · rw [← hk, he]
      · rw [hk.1] at he
        exact absurd he (by simp)
    obtain ⟨w, role, rec, hw⟩ := h.backed k e hk
    refine ⟨w, role, rec, ?_⟩
    simp only [Inner.readAt, hfile, hkeys]
    exact hw
  · rw [hfile]
    exact (size_drops hd).trans h.count

end Logged

omit [Codec] in
theorem file_raiseFormat {i : Inner} {rest : Bytes} (hf : i.file = fileHeader i.fileId i.format ++ rest) (need : UInt32) :
    (i.raiseFormat need).file = fileHeader i.fileId (i.raiseFormat need).format ++ rest := by
  unfold Inner.raiseFormat
  split
  · have h4 : i.file.take 4 = magic := by
      rw [hf, fileHeader, List.append_assoc, List.append_assoc, List.take_left' (by rfl)]
    have h8 : i.file.drop 8 = le64 i.fileId ++ rest := by
      rw [hf, fileHeader, List.append_assoc, List.drop_left' (by simp [magic])]
    simp only [h4, h8, fileHeader, List.append_assoc]
  · exact hf

omit [Codec] in
theorem format_raiseFormat {i : Inner} (h : formatV1 ≤ i.format ∧ i.format ≤ formatVersion) {need : UInt32}
    (hn : need ≤ formatVersion) :
    formatV1 ≤ (i.raiseFormat need).format ∧ (i.raiseFormat need).format ≤ formatVersion := by
  unfold Inner.raiseFormat
  split
  · rename_i hlt
    exact ⟨UInt32.le_trans h.1 (UInt32.le_of_lt hlt), hn⟩
  · exact h

/-- Applying staged operations and replaying their records does the same. -/
theorem agree_applyAllStaged {t : Int64} {keys : Option Keys} {recs : List (Staged × Bytes)} {rs : List (Write × Role)}
    (h : List.Forall₂ (fun p r => Recorded keys r.1 r.2 p) recs rs) (hs : ∀ r ∈ rs, Settles t r.1.expiresAt)
    {i : Inner} {s : Index × Nat} (ha : Agree t i.index s.1) (base : Nat) :
    Agree t (i.applyAllStaged base recs).index ((changesFrom keys base rs).foldl applyChange s).1 := by
  induction h generalizing i s base with
  | nil => exact ha
  | @cons p r recs rs hr hrs ih =>
      rw [Inner.applyAllStaged, changesFrom, List.foldl_cons, ← hr.written.length_eq]
      refine ih (fun q hq => hs q (List.mem_cons_of_mem r hq)) ?_ _
      have hst := Inner.getElem?_applyStaged i base p.1
      rw [hr.key] at hst
      refine ha.of_key hst (getElem?_applyChange s _) ?_
      rw [hr.entry]
      dsimp only
      rw [Write.entry_at r.1 keys r.2.extra base]
      cases he : r.1.entry keys r.2.extra 0 with
      | none => rfl
      | some e =>
          have hx : Settles t ({ e with offset := base } : Entry).expiresAt := by
            rw [Write.expiresAt_entry he]
            exact hs r List.mem_cons_self
          simp only [Option.map_some]
          rw [shown_version t { e with offset := base }, shown_version t ({ e with offset := base } : Entry).reread,
            shown_reread hx]

theorem size_applyAllStaged (recs : List (Staged × Bytes)) (i : Inner) (base : Nat) :
    (i.applyAllStaged base recs).index.size ≤ i.index.size + recs.length := by
  induction recs generalizing i base with
  | nil => exact le_rfl
  | cons p recs ih =>
      have hp : (i.applyStaged base p.1).index.size ≤ i.index.size + 1 := by
        cases hs : p.1 with
        | put key e raw doc ty created => exact Std.ExtTreeMap.size_insert_le
        | del key =>
            have hr : (i.applyStaged base (.del key)).index = ({ i with seq := i.seq + 1 }.idxRemove key).index := by
              simp only [Inner.applyStaged]
              split <;> rfl
            rw [hr]
            refine (?_ : _ ≤ i.index.size).trans (Nat.le_succ _)
            unfold Inner.idxRemove
            split
            · exact le_rfl
            · exact Std.ExtTreeMap.size_erase_le
      have hi := ih (i.applyStaged base p.1) (base + p.2.length)
      rw [Inner.applyAllStaged, List.length_cons]
      omega

/-- The record of an entry that a commit adds. -/
theorem backed_commit {i : Inner} (hh : fileHeaderLen ≤ i.file.length) {recs : List (Staged × Bytes)} {a : Append}
    (hc : Commits i.keys recs a) (hr : ∀ r ∈ a.records, r.2.Readable i.keys)
    (hb : ∀ (k : String) (e : Entry), i.index[k]? = some e → Backed i k e) (hp : i.Placed) (k : String) (e : Entry)
    (he : (i.commit recs).index[k]? = some e) : Backed (i.commit recs) k e := by
  have hkeys : (i.commit recs).keys = i.keys := by rw [Inner.commit_frame]
  have hfile : (i.commit recs).file = (i.extend (recs.flatMap Prod.snd)).file := by
    rw [Inner.commit, Inner.applyAllStaged_frame]
  have hread (off len : Nat) : (i.commit recs).readAt off len = (i.extend (recs.flatMap Prod.snd)).readAt off len := by
    simp only [Inner.readAt, hfile]
  have hlen := Inner.length_raiseFormat hh (formatNeeded (recs.flatMap Prod.snd))
  rcases Inner.index_commit he with he | ⟨pre, p, post, e', rfl, rfl, hent, rfl⟩
  · obtain ⟨w, role, rec, hw, hrole, hk, ho, hat, hentry⟩ := hb k e he
    refine ⟨w, role, rec, hkeys ▸ hw, hkeys ▸ hrole, hk, ho, ?_, hkeys ▸ hentry⟩
    rw [hread, Inner.readAt_extend hh _ ho (hp.entries k e he).2, hat]
  · obtain ⟨r, hrm, hrec⟩ := hc.recorded (List.mem_append_right pre List.mem_cons_self)
    rw [hrec.entry] at hent
    refine ⟨r.1, r.2, p.2, hkeys ▸ hrec.written, hkeys ▸ hr r hrm, hrec.key.symm, ?_, ?_, ?_⟩
    · dsimp only
      omega
    · obtain ⟨-, hl, -⟩ := Write.entry_content hent
      have hlen' : e'.recLen = p.2.length := hl.trans hrec.written.length_eq.symm
      rw [hread]
      have hf : (i.extend ((pre ++ p :: post).flatMap Prod.snd)).file =
          ((i.raiseFormat (formatNeeded ((pre ++ p :: post).flatMap Prod.snd))).file ++ pre.flatMap Prod.snd) ++
            (p.2 ++ post.flatMap Prod.snd) := by
        rw [Inner.file_extend, List.flatMap_append, List.flatMap_cons]
        simp only [List.append_assoc]
      have hra := Inner.readAt_append hf
      rw [List.length_append, ← hlen'] at hra
      exact hra
    · rw [hkeys, Write.entry_at, hent]
      have hv : e'.version = 0 := by
        cases hw : r.1 with
        | put key raw ty enc algo ts ex =>
            rw [hw] at hent
            obtain rfl := Option.some.inj hent
            rfl
        | delete key ts =>
            rw [hw] at hent
            simp [Write.entry] at hent
      simp only [Option.map_some, Entry.bare, hv]

theorem Logged.commit {t : Int64} {i : Inner} {as : List Append} (h : Logged t i as) {recs : List (Staged × Bytes)}
    {a : Append} (hc : Commits i.keys recs a)
    (ha : ∀ r ∈ a.records, r.2.Readable i.keys ∧ Settles t r.1.expiresAt) : Logged t (i.commit recs) (as ++ [a]) := by
  obtain ⟨bufs, hl, hf⟩ := h.laid
  have hh : fileHeaderLen ≤ i.file.length := h.placed.header
  have hkeys : (i.commit recs).keys = i.keys := by rw [Inner.commit_frame]
  have hid : (i.commit recs).fileId = i.fileId := by rw [Inner.commit_frame]
  have hfile : (i.commit recs).file = (i.raiseFormat (formatNeeded (recs.flatMap Prod.snd))).file ++ recs.flatMap Prod.snd := by
    rw [Inner.commit, Inner.applyAllStaged_frame, Inner.file_extend]
  have hfmt : (i.commit recs).format = (i.raiseFormat (formatNeeded (recs.flatMap Prod.snd))).format := by
    rw [Inner.commit, Inner.applyAllStaged_frame]
    rfl
  have hlen : (i.raiseFormat (formatNeeded (recs.flatMap Prod.snd))).file.length = fileHeaderLen + logLen i.keys as := by
    rw [Inner.length_raiseFormat hh, h.length_file]
  have hwritten : List.Forall₂ (fun r rec => Written i.keys r.1 r.2 rec) a.records (recs.map Prod.snd) := by
    rw [List.forall₂_map_right_iff]
    exact (hc.imp fun _ _ hr => hr.written).flip
  refine ⟨h.sound.move (.commit hc ha), ?_, ?_, ?_, ?_, ?_, ?_⟩
  · refine ⟨bufs ++ [recs.flatMap Prod.snd], ?_, ?_⟩
    · rw [hkeys]
      exact List.rel_append hl (.cons ⟨recs.map Prod.snd, hwritten, List.flatMap_def.symm ▸ rfl⟩ .nil)
    · rw [hfile, hid, hfmt, file_raiseFormat hf, List.flatten_append, List.append_assoc]
      simp
  · rw [hkeys]
    intro b hb
    rcases List.mem_append.mp hb with hb | hb
    · exact h.readable b hb
    · rw [List.mem_singleton.mp hb]
      exact fun r hr => (ha r hr).1
  · rw [hfmt]
    exact format_raiseFormat h.format (formatNeededFrom_le _ _ (by decide))
  · have hx : Agree t (i.extend (recs.flatMap Prod.snd)).index (scanned i.keys as).1 := by
      rw [Inner.index_extend]
      exact h.agree
    have hag := agree_applyAllStaged hc (fun r hr => (ha r hr).2) hx (fileHeaderLen + logLen i.keys as)
    rw [hkeys, scanned_append, logChanges, logChanges, List.append_nil, Inner.commit, hlen]
    exact hag
  · exact backed_commit hh hc (fun r hr => (ha r hr).1) h.backed h.placed
  · have hs := size_applyAllStaged recs (i.extend (recs.flatMap Prod.snd))
      (i.raiseFormat (formatNeeded (recs.flatMap Prod.snd))).file.length
    rw [Inner.index_extend] at hs
    have hn : recs.length ≤ (recs.flatMap Prod.snd).length := by
      have hone : ∀ n ∈ recs.map fun p => p.2.length, 1 ≤ n := by
        intro n hn
        obtain ⟨p, hp, rfl⟩ := List.mem_map.mp hn
        obtain ⟨r, -, hr⟩ := hc.recorded hp
        have h28 : recHeaderLen = 28 := rfl
        have := hr.written.framed.header
        omega
      have hsum := List.length_le_sum_of_one_le _ hone
      rwa [List.length_map, ← List.length_flatMap] at hsum
    have hcount := h.count
    rw [hfile, List.length_append, Inner.length_raiseFormat hh, Inner.commit]
    omega

theorem Logged.moves {t : Int64} {i i' : Inner} {as : List Append} (h : Logged t i as)
    (hm : ReflTransGen (Move t) i i') : ∃ more, Logged t i' (as ++ more) := by
  induction hm with
  | refl => exact ⟨[], by rwa [List.append_nil]⟩
  | tail hab hbc ih =>
      obtain ⟨more, hl⟩ := ih
      cases hbc with
      | drop hd => exact ⟨more, hl.drops (Int64.le_refl t) (.single hd)⟩
      | @commit recs a hc ha =>
          refine ⟨more ++ [a], ?_⟩
          rw [← List.append_assoc]
          exact hl.commit hc ha

theorem Move.fileId {t : Int64} {i i' : Inner} (h : ReflTransGen (Move t) i i') : i'.fileId = i.fileId := by
  induction h with
  | refl => rfl
  | tail hab hbc ih =>
      cases hbc with
      | drop h => rw [h.frame, ih]
      | commit hc ha => rw [Inner.commit_frame, ih]

/-- A data file that has just been created, whatever the settings of its
engine. -/
structure Inner.Fresh (i : Inner) : Prop where
  file : i.file = fileHeader i.fileId i.format
  format : i.format = formatV1
  table : i.table = Table.empty

omit [Codec] in
theorem Inner.Fresh.logged {i : Inner} (h : i.Fresh) (t : Int64) : Logged t i [] := by
  have hix : i.index = ∅ := by
    rw [Inner.index, h.table]
    rfl
  refine ⟨?_, ⟨[], .nil, ?_⟩, by simp, ?_, ?_, ?_, ?_⟩
  · intro k e he
    rw [hix] at he
    simp at he
  · rw [h.file]
    simp
  · rw [h.format]
    decide
  · rw [hix]
    exact .rfl' t _
  · intro k e he
    rw [hix] at he
    simp at he
  · rw [hix]
    simp

end

end KivaDb
