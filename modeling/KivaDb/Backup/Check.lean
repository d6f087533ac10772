import KivaDb.Appends
import KivaDb.Compress
import KivaDb.Kdoc.Encoding
import KivaDb.Resp.Reply

namespace KivaDb

open Lib.LittleEndian Lib.Utf8 Lib.Flags Format

namespace Log

theorem nextFrame_some {rest rec rest' : Bytes} (h : nextFrame rest = some (rec, rest')) :
    rest = rec ++ rest' ∧ Framed rec := by
  rw [nextFrame] at h
  split_ifs at h with hlen
  dsimp only at h
  split_ifs at h with hframe
  obtain ⟨rfl, rfl⟩ := Prod.mk.inj (Option.some.inj h)
  rw [not_or, Nat.not_lt] at hframe
  have hle : recHeaderLen ≤ (parseHeader rest).totalLen := by
    rw [RecHeader.totalLen]
    omega
  have hrec : (rest.take (parseHeader rest).totalLen).length = (parseHeader rest).totalLen := by
    rw [List.length_take]
    omega
  have hparse : parseHeader (rest.take (parseHeader rest).totalLen) = parseHeader rest := by
    conv_rhs => rw [← List.take_append_drop (parseHeader rest).totalLen rest]
    exact (parseHeader_append (by omega) _).symm
  exact ⟨(List.take_append_drop _ _).symm, by omega, by rw [hparse]; exact hframe.1, by rw [hparse, hrec]⟩

theorem Framed.ne_nil {rec : Bytes} (h : Framed rec) : rec ≠ [] := by
  rintro rfl
  exact absurd h.header (by decide)

end Log

namespace Backup

open Log

variable [External] [Chrono] [Clocks]

/-- Reads the document of a record in clear. Where reading ends in a panic, so does the
check. -/
def readDoc (rec : Bytes) : Except String Doc :=
  let h := parseHeader rec
  let stored := rec.drop (recHeaderLen + h.kSize.toNat)
  match Compress.unpack stored (Compression.fromFlag (h.flags &&& flagCompMask)) with
  | .error e => .error e.text
  | .ok raw =>
      match Kdoc.decode raw with
      | .error .panic => .error "a panic"
      | .error (.bad why) => .error why
      | .ok d => .ok d

/-- Whether a record holds a document that can be read without a key. -/
def inClear (flags : UInt8) : Bool := hasFlag flags flagKdoc && !hasFlag flags (flagEncrypted ||| flagTombstone)

def checkRecords : Nat → Nat → Bytes → Except String Nat
  | 0, _, _ => .ok 0
  | fuel + 1, pos, rest =>
      if rest = [] then .ok 0
      else
        match nextFrame rest with
        | none => .error s!"truncated record at byte {pos}"
        | some (rec, rest) =>
            let h := parseHeader rec
            if External.crc32 (rec.drop 4) ≠ h.crc then .error s!"checksum mismatch in the record at byte {pos}"
            else
              let next := (checkRecords fuel (pos + rec.length) rest).map (· + 1)
              if inClear h.flags then
                match readDoc rec with
                | .error why => .error s!"the document in the record at byte {pos} cannot be read: {why}"
                | .ok _ => next
              else next

/-- Checks the framing and the checksum of every record of a data file. -/
def checkLog (data : Bytes) : Except String Nat :=
  if data.length < fileHeaderLen then .error "the data file is too short"
  else
    match parseFileHeader (data.take fileHeaderLen) with
    | .error why => .error why
    | .ok _ => checkRecords data.length fileHeaderLen (data.drop fileHeaderLen)

/-- A whole record with the right checksum, whose document, in clear, can be read. -/
structure Sound (rec : Bytes) : Prop where
  framed : Framed rec
  sums : Sums rec
  readable : inClear (parseHeader rec).flags = true → ∃ d, readDoc rec = .ok d

def SoundLog (data : Bytes) : Prop := ∃ recs : List Bytes, data.drop fileHeaderLen = recs.flatten ∧ ∀ r ∈ recs, Sound r

theorem checkRecords_cons {rec : Bytes} (hf : Framed rec) (fuel pos : Nat) (rest : Bytes) :
    (∃ n, checkRecords (fuel + 1) pos (rec ++ rest) = .ok n) ↔
      Sound rec ∧ ∃ n, checkRecords fuel (pos + rec.length) rest = .ok n := by
  have hnext : (∃ n, (checkRecords fuel (pos + rec.length) rest).map (· + 1) = .ok n) ↔
      ∃ n, checkRecords fuel (pos + rec.length) rest = .ok n := by
    rcases checkRecords fuel (pos + rec.length) rest with _ | n
    · exact ⟨fun ⟨_, h⟩ => (nomatch h), fun ⟨_, h⟩ => (nomatch h)⟩
    · exact ⟨fun _ => ⟨n, rfl⟩, fun _ => ⟨n + 1, rfl⟩⟩
  rw [checkRecords, if_neg (by simp [hf.ne_nil]), nextFrame_append hf]
  dsimp only
  by_cases hsum : External.crc32 (rec.drop 4) = (parseHeader rec).crc
  · rw [if_neg (not_not_intro hsum)]
    by_cases hclear : inClear (parseHeader rec).flags = true
    · rw [if_pos hclear]
      rcases hdoc : readDoc rec with _ | d
      · refine ⟨fun ⟨_, h⟩ => (nomatch h), fun ⟨hsound, _⟩ => ?_⟩
        obtain ⟨d, hd⟩ := hsound.readable hclear
        rw [hdoc] at hd
        exact nomatch hd
      · exact hnext.trans ⟨fun h => ⟨⟨hf, hsum, fun _ => ⟨d, hdoc⟩⟩, h⟩, And.right⟩
    · rw [if_neg hclear]
      exact hnext.trans ⟨fun h => ⟨⟨hf, hsum, fun h => absurd h hclear⟩, h⟩, And.right⟩
  · rw [if_pos hsum]
    exact ⟨fun ⟨_, h⟩ => (nomatch h), fun ⟨hsound, _⟩ => absurd hsound.sums hsum⟩

theorem checkRecords_ok (fuel pos : Nat) {rest : Bytes} (hfuel : rest.length ≤ fuel) :
    (∃ n, checkRecords fuel pos rest = .ok n) ↔ ∃ recs : List Bytes, rest = recs.flatten ∧ ∀ r ∈ recs, Sound r := by
  induction fuel generalizing pos rest with
  | zero =>
      cases List.length_eq_zero_iff.mp (Nat.le_zero.mp hfuel)
      exact ⟨fun _ => ⟨[], rfl, nofun⟩, fun _ => ⟨0, rfl⟩⟩
  | succ fuel ih =>
      by_cases hnil : rest = []
      · subst hnil
        exact ⟨fun _ => ⟨[], rfl, nofun⟩, fun _ => ⟨0, rfl⟩⟩
      · rcases hframe : nextFrame rest with _ | ⟨rec, rest'⟩
        · rw [checkRecords, if_neg hnil, hframe]
          refine ⟨fun ⟨_, h⟩ => (nomatch h), fun ⟨recs, hrecs, hsound⟩ => ?_⟩
          cases recs with
          | nil => exact absurd hrecs hnil
          | cons r recs =>
              rw [hrecs, List.flatten_cons, nextFrame_append (hsound r List.mem_cons_self).framed] at hframe
              exact nomatch hframe
        · obtain ⟨rfl, hf⟩ := nextFrame_some hframe
          have hlt : rest'.length ≤ fuel := by
            have := length_of_nextFrame hframe
            omega
          rw [checkRecords_cons hf, ih _ hlt]
          constructor
          · rintro ⟨hsound, recs, rfl, hrecs⟩
            exact ⟨rec :: recs, rfl, List.forall_mem_cons.mpr ⟨hsound, hrecs⟩⟩
          · rintro ⟨recs, hrecs, hsound⟩
            cases recs with
            | nil => exact absurd hrecs hnil
            | cons r recs =>
                obtain ⟨hr, hsound⟩ := List.forall_mem_cons.mp hsound
                rw [hrecs, List.flatten_cons, nextFrame_append hr.framed] at hframe
                obtain ⟨rfl, rfl⟩ := Prod.mk.inj (Option.some.inj hframe)
                exact ⟨hr, recs, rfl, hsound⟩

/-- A data file: its header, then sound records. -/
def SoundFile (data : Bytes) : Prop := (∃ head, parseFileHeader (data.take fileHeaderLen) = .ok head) ∧ SoundLog data

/-- The check accepts exactly the files of sound records. -/
theorem checkLog_ok {data : Bytes} : (∃ n, checkLog data = .ok n) ↔ SoundFile data := by
  rw [SoundFile, checkLog]
  by_cases hlen : data.length < fileHeaderLen
  · have hshort : (data.take fileHeaderLen).length < fileHeaderLen ∨ slice (data.take fileHeaderLen) 0 4 ≠ magic :=
      .inl (by rw [List.length_take]; omega)
    rw [if_pos hlen, parseFileHeader, if_pos hshort]
    exact ⟨fun ⟨_, h⟩ => (nomatch h), fun ⟨⟨_, h⟩, _⟩ => (nomatch h)⟩
  · rw [if_neg hlen]
    rcases parseFileHeader (data.take fileHeaderLen) with e | head
    · exact ⟨fun ⟨_, h⟩ => (nomatch h), fun ⟨⟨_, h⟩, _⟩ => (nomatch h)⟩
    · refine (checkRecords_ok _ _ ?_).trans ⟨fun h => ⟨⟨head, rfl⟩, h⟩, And.right⟩
      rw [List.length_drop]
      omega

end Backup

end KivaDb
