import KivaDb.Recovery
import KivaDb.External

namespace KivaDb.Log

open Lib.LittleEndian Lib.Utf8 Lib.Flags Format Crypt

section

variable [External]

/-- Applies a record by noting it. -/
def note (l : List Change) (c : Change) : List Change := l ++ [c]

omit [External] in
theorem foldl_note (l l' : List Change) : l.foldl note l' = l' ++ l := by
  induction l generalizing l' with
  | nil => simp
  | cons x xs ih => simp [ih, note]

section

variable {σ : Type} (apply : σ → Change → σ) (keys : Option Keys) (req : Bool)

/-- The state of a replay that only notes what it applies, taken on to the
state of a replay that applies it. -/
def Scan.onto (acc : σ) (s : Scan (List Change)) : Scan σ :=
  { pos := s.pos
    corrupted := s.corrupted
    pending := s.pending
    pendingStart := s.pendingStart
    acc := s.acc.foldl apply acc }

omit [External] in
theorem onto_take (acc : σ) (s : Scan (List Change)) (flags : UInt8) (c : Change) (n : Nat) :
    (s.take note flags c n).onto apply acc = (s.onto apply acc).take apply flags c n := by
  unfold Scan.take
  cases hasFlag flags flagTxn with
  | false => simp [Scan.onto, note]
  | true =>
      cases hasFlag flags flagTxnCommit with
      | false => by_cases hp : s.pending = [] <;> simp [Scan.onto, hp]
      | true => by_cases hp : s.pending = [] <;> simp [Scan.onto, foldl_note, note, hp]

theorem scanFrom_onto (acc : σ) (fuel : Nat) (s : Scan (List Change)) (rest : Bytes) :
    scanFrom apply keys req fuel (s.onto apply acc) rest =
      (scanFrom note keys req fuel s rest).map (Scan.onto apply acc) := by
  induction fuel generalizing s rest with
  | zero => rfl
  | succ fuel ih =>
      rw [scanFrom, scanFrom]
      cases hf : nextFrame rest with
      | none => rfl
      | some p =>
          obtain ⟨rec, rest'⟩ := p
          have hpos : (s.onto apply acc).pos = s.pos := rfl
          simp only [hpos]
          cases hr : readRecord keys req s.pos rec with
          | error e => rfl
          | ok r =>
              cases r with
              | none =>
                  simp only [bind, Except.bind]
                  split
                  · rfl
                  · exact ih (s.skip rec.length) rest'
              | some c =>
                  simp only [bind, Except.bind]
                  rw [← onto_take]
                  exact ih _ rest'

end

/-- The records a scan from the first one applies, in order. -/
def applied (keys : Option Keys) (req : Bool) (file : Bytes) : Result (List Change) :=
  (replay note keys req file fileHeaderLen []).map (·.acc)

/-- What a scan makes of an index is what these records make of it. -/
theorem scanLog_applied (keys : Option Keys) (req : Bool) (file : Bytes) (index : Index) (seq : Nat) :
    (scanLog file fileHeaderLen index seq keys req).map (fun o => (o.index, o.seq)) =
      (applied keys req file).map (fun l => l.foldl applyChange (index, seq)) := by
  have hs : Scan.start fileHeaderLen (index, seq) =
      Scan.onto applyChange (index, seq) (Scan.start fileHeaderLen []) := rfl
  rw [scanLog, applied, replay, replay, hs, scanFrom_onto]
  cases scanFrom note keys req file.length (Scan.start fileHeaderLen []) (file.drop fileHeaderLen) with
  | error e => rfl
  | ok s => rfl

/-- `bad` is what damage made of `rec`: its lengths are untouched, and it fails
its checksum. -/
structure Damaged (rec bad : Bytes) : Prop where
  length : bad.length = rec.length
  kSize : (parseHeader bad).kSize = (parseHeader rec).kSize
  vSize : (parseHeader bad).vSize = (parseHeader rec).vSize
  sums : ¬ Sums bad

theorem Damaged.framed {rec bad : Bytes} (h : Damaged rec bad) (hf : Framed rec) : Framed bad where
  header := h.length ▸ hf.header
  key := h.kSize ▸ hf.key
  total := by
    rw [h.length, ← hf.total, RecHeader.totalLen, RecHeader.totalLen, h.kSize, h.vSize]

variable (ks : Option Keys) (req : Bool)

/-- A record the engine wrote, and what is found in its place. It was written
with keys the scan under `ks` knows, or in clear. -/
structure Cell where
  keys : Option Keys
  write : Write
  role : Role
  record : Bytes
  found : Bytes
  opens : CanOpen ks keys
  required : req = true → keys.isSome
  written : Written keys write role record
  intact_or_damaged : found = record ∨ Damaged record found

variable {ks req}

namespace Cell

instance (rec : Bytes) : Decidable (Sums rec) := inferInstanceAs (Decidable (_ = _))

/-- The record no longer passes its checksum. -/
def isDamaged (c : Cell ks req) : Bool := ¬ Sums c.found

/-- The scan has no use for the record: it is damaged, or an encrypted commit
record. -/
def isInvalid (c : Cell ks req) : Bool := c.isDamaged || (c.role == .commit && c.keys.isSome)

def change (c : Cell ks req) (pos : Nat) : Change :=
  ⟨pos, c.write.key.1, (c.write.entry c.keys c.role.extra pos).map Entry.reread⟩

theorem sums_record (c : Cell ks req) : Sums c.record := by
  have hw := c.written
  cases hr : c.role with
  | single => rw [hr] at hw; obtain ⟨nonce, h⟩ := hw; exact Write.sums_encode h
  | member => rw [hr] at hw; obtain ⟨nonce, h⟩ := hw; exact Write.sums_encode h
  | commit =>
      rw [hr] at hw
      obtain ⟨nonce, r, h, hs⟩ := hw
      obtain ⟨body, -, rfl⟩ := Write.encode_ok h
      rw [hs, stampCommit_withCrc]
      exact sums_withCrc ..

theorem found_eq_record {c : Cell ks req} (h : c.isDamaged = false) : c.found = c.record := by
  rcases c.intact_or_damaged with hi | hd
  · exact hi
  · exact absurd hd.sums (by simpa [isDamaged] using h)

theorem isDamaged_eq_false_iff {c : Cell ks req} : c.isDamaged = false ↔ c.found = c.record := by
  refine ⟨found_eq_record, fun h => ?_⟩
  simp [isDamaged, h, c.sums_record]

theorem framed (c : Cell ks req) : Framed c.found := by
  rcases c.intact_or_damaged with hi | hd
  · rw [hi]
    exact c.written.framed
  · exact hd.framed c.written.framed

theorem reads (c : Cell ks req) (pos : Nat) :
    readRecord ks req pos c.found = .ok (if c.isInvalid then none else some (c.change pos)) := by
  cases hd : c.isDamaged with
  | true =>
      rw [readRecord_damaged ks req pos (by simpa [isDamaged] using hd), isInvalid, hd]
      rfl
  | false =>
      rw [found_eq_record hd, c.written.readRecord_eq pos c.opens c.required, read, isInvalid, hd]
      simp [change]

def piece (c : Cell ks req) : Piece ks req where
  bytes := c.found
  role := c.role
  read := fun pos => if c.isInvalid then none else some (c.change pos)
  framed := c.framed
  reads := c.reads
  flags := by
    intro pos h
    have hi : c.isInvalid = false := by
      by_contra hc
      simp [hc] at h
    have hd : c.isDamaged = false ∧ (c.role = .commit → c.keys.isSome = false) := by
      simpa [isInvalid] using hi
    rw [found_eq_record hd.1]
    have hread : Log.read c.keys c.write c.role pos ≠ none := by simpa [read] using hd.2
    exact c.written.role_flags hread

end Cell

/-- An append as it lies in the file. -/
inductive Stretch (ks : Option Keys) (req : Bool)
  | single (c : Cell ks req) (hc : c.role = .single)
  | batch (init : List (Cell ks req)) (last : Cell ks req) (hi : ∀ c ∈ init, c.role = .member)
      (hl : last.role = .commit)

namespace Stretch

def cells : Stretch ks req → List (Cell ks req)
  | single c _ => [c]
  | batch init last _ _ => init ++ [last]

def bytes (st : Stretch ks req) : Bytes := st.cells.flatMap (·.found)

end Stretch

/-- Where cells laid out from `pos` on start. -/
def positions : Nat → List (Cell ks req) → List Nat
  | _, [] => []
  | pos, c :: cs => pos :: positions (pos + c.found.length) cs

/-- The positions of the records of each batch. -/
def batches : Nat → List (Stretch ks req) → List (List Nat)
  | _, [] => []
  | pos, st :: rest =>
      let more := batches (pos + st.bytes.length) rest
      match st with
      | .single _ _ => more
      | .batch init last _ _ => positions pos (init ++ [last]) :: more

def stretchFile (fileId : UInt64) (format : UInt32) (sts : List (Stretch ks req)) : Bytes :=
  fileHeader fileId format ++ sts.flatMap Stretch.bytes

/-- Every one of `ps` is the position of a change of `l`, or none is. -/
def Whole (ps : List Nat) (l : List Change) : Prop :=
  (∀ p ∈ ps, p ∈ l.map (·.pos)) ∨ (∀ p ∈ ps, p ∉ l.map (·.pos))

/-- Of each batch, all records are applied or none is. -/
def AllOrNone (sts : List (Stretch ks req)) (l : List Change) : Prop :=
  ∀ ps ∈ batches fileHeaderLen sts, Whole ps l

/-- The batches damage leaves whole or takes whole: no record of it is damaged,
or its commit record is, or is encrypted. -/
def Stretch.Spared : Stretch ks req → Prop
  | .single _ _ => True
  | .batch init last _ _ => (∀ c ∈ init, c.isDamaged = false) ∨ last.isInvalid = true

/-- The members of a batch that still wait after the cells `cs`. -/
def waiting : Nat → List Change → List (Cell ks req) → List Change
  | _, w, [] => w
  | pos, w, c :: cs => waiting (pos + c.found.length) (if c.isDamaged then [] else w ++ [c.change pos]) cs

/-- The records of a stretch at `pos` that are applied. -/
def Stretch.applied (pos : Nat) : Stretch ks req → List Change
  | .single c _ => if c.isInvalid then [] else [c.change pos]
  | .batch init last _ _ =>
      if last.isInvalid then []
      else waiting pos [] init ++ [last.change (pos + (init.flatMap (·.found)).length)]

def appliedFrom : Nat → List (Stretch ks req) → List Change
  | _, [] => []
  | pos, st :: rest => st.applied pos ++ appliedFrom (pos + st.bytes.length) rest

theorem joined_pieces (cs : List (Cell ks req)) : joined (cs.map Cell.piece) = cs.flatMap (·.found) := by
  simp [joined, List.flatMap_map, Cell.piece]

theorem isInvalid_of_member {c : Cell ks req} (h : c.role = .member) : c.isInvalid = c.isDamaged := by
  simp [Cell.isInvalid, h]

theorem pieces_init (cs : List (Cell ks req)) (hm : ∀ c ∈ cs, c.role = .member) (s : Scan (List Change)) :
    (s.pieces note (cs.map Cell.piece)).acc = s.acc ∧
      (s.pieces note (cs.map Cell.piece)).pending = waiting s.pos s.pending cs := by
  induction cs generalizing s with
  | nil => exact ⟨rfl, rfl⟩
  | cons c cs ih =>
      have hr : c.role = .member := hm c List.mem_cons_self
      have ht : hasFlag Role.member.extra flagTxn = true := by decide
      have hc : hasFlag Role.member.extra flagTxnCommit = false := by decide
      have hpos := Scan.pos_piece note s c.piece
      have hstep : (s.piece note c.piece).acc = s.acc ∧
          (s.piece note c.piece).pending = if c.isDamaged then [] else s.pending ++ [c.change s.pos] := by
        cases hd : c.isDamaged with
        | true => simp [Scan.piece, Cell.piece, isInvalid_of_member hr, hd, Scan.skip]
        | false => simp [Scan.piece, Cell.piece, isInvalid_of_member hr, hd, Scan.take, hr, ht, hc]
      obtain ⟨ha, hp⟩ := ih (fun x hx => hm x (List.mem_cons_of_mem c hx)) (s.piece note c.piece)
      rw [List.map_cons, Scan.pieces_cons, ha, hp, hstep.1, hstep.2, hpos]
      exact ⟨rfl, rfl⟩

theorem pieces_stretch (st : Stretch ks req) {s : Scan (List Change)} (hs : s.pending = []) :
    (s.pieces note (st.cells.map Cell.piece)).acc = s.acc ++ st.applied s.pos ∧
      (s.pieces note (st.cells.map Cell.piece)).pending = [] := by
  cases st with
  | single c hc =>
      have ht : hasFlag Role.single.extra flagTxn = false := by decide
      simp only [Stretch.cells, List.map_cons, List.map_nil, Scan.pieces, List.foldl_cons, List.foldl_nil]
      cases hi : c.isInvalid with
      | true => simp [Scan.piece, Cell.piece, hi, Scan.skip, Stretch.applied]
      | false => simp [Scan.piece, Cell.piece, hi, Scan.take, hc, ht, Stretch.applied, note]
  | batch init last hm hl =>
      have ht : hasFlag Role.commit.extra flagTxn = true := by decide
      have hc : hasFlag Role.commit.extra flagTxnCommit = true := by decide
      obtain ⟨ha, hp⟩ := pieces_init init hm s
      have hpos := Scan.pos_pieces note s (init.map Cell.piece)
      rw [joined_pieces] at hpos
      rw [hs] at hp
      simp only [Stretch.cells, List.map_append, Scan.pieces_append, List.map_cons, List.map_nil]
      generalize s.pieces note (init.map Cell.piece) = t at ha hp hpos
      simp only [Scan.pieces, List.foldl_cons, List.foldl_nil]
      cases hi : last.isInvalid with
      | true => simp [Scan.piece, Cell.piece, hi, Scan.skip, Stretch.applied, ha]
      | false =>
          simp [Scan.piece, Cell.piece, hi, Scan.take, hl, ht, hc, Stretch.applied, note, ha, hp, hpos, foldl_note]

theorem pieces_stretches (sts : List (Stretch ks req)) {s : Scan (List Change)} (hs : s.pending = []) :
    (s.pieces note (sts.flatMap fun st => st.cells.map Cell.piece)).acc = s.acc ++ appliedFrom s.pos sts := by
  induction sts generalizing s with
  | nil => simp [Scan.pieces, appliedFrom]
  | cons st sts ih =>
      obtain ⟨ha, hp⟩ := pieces_stretch st hs
      have hpos := Scan.pos_pieces note s (st.cells.map Cell.piece)
      rw [joined_pieces] at hpos
      rw [List.flatMap_cons, Scan.pieces_append, ih hp, ha, hpos, appliedFrom, List.append_assoc]
      rfl

/-- What a scan applies of a file with damaged records. -/
theorem applied_stretchFile (fileId : UInt64) (format : UInt32) (sts : List (Stretch ks req)) :
    applied ks req (stretchFile fileId format sts) = .ok (appliedFrom fileHeaderLen sts) := by
  have hj : joined (sts.flatMap fun st => st.cells.map Cell.piece) = sts.flatMap Stretch.bytes := by
    induction sts with
    | nil => rfl
    | cons st sts ih => rw [List.flatMap_cons, joined_append, joined_pieces, ih, List.flatMap_cons, Stretch.bytes]
  obtain ⟨t, ht, hacc⟩ := scan_joined note (sts.flatMap fun st => st.cells.map Cell.piece)
    (Scan.start fileHeaderLen [])
  have hall := pieces_stretches sts (s := Scan.start fileHeaderLen []) rfl
  have hd : (stretchFile fileId format sts).drop fileHeaderLen = sts.flatMap Stretch.bytes :=
    List.drop_left' (length_fileHeader fileId format)
  rw [hj] at ht
  rw [applied, replay_eq_scan, hd, ht]
  simp only [Except.map, hacc, hall]
  rfl

theorem positions_append (cs ds : List (Cell ks req)) (pos : Nat) :
    positions pos (cs ++ ds) = positions pos cs ++ positions (pos + (cs.flatMap (·.found)).length) ds := by
  induction cs generalizing pos with
  | nil => rfl
  | cons c cs ih =>
      simp only [List.cons_append, positions, ih, List.flatMap_cons, List.length_append, Nat.add_assoc]

theorem positions_range {cs : List (Cell ks req)} {pos p : Nat} (h : p ∈ positions pos cs) :
    pos ≤ p ∧ p < pos + (cs.flatMap (·.found)).length := by
  induction cs generalizing pos with
  | nil => simp [positions] at h
  | cons c cs ih =>
      have hc := c.framed.header
      have h28 : recHeaderLen = 28 := rfl
      rw [List.flatMap_cons, List.length_append]
      rcases List.mem_cons.mp h with rfl | h
      · omega
      · have hp := ih h
        omega

theorem waiting_intact (cs : List (Cell ks req)) (hd : ∀ c ∈ cs, c.isDamaged = false) (pos : Nat) (w : List Change) :
    (waiting pos w cs).map (·.pos) = w.map (·.pos) ++ positions pos cs := by
  induction cs generalizing pos w with
  | nil => simp [waiting, positions]
  | cons c cs ih =>
      rw [waiting, ih (fun x hx => hd x (List.mem_cons_of_mem c hx)), hd c List.mem_cons_self]
      simp [positions, Cell.change]

theorem waiting_subset {cs : List (Cell ks req)} {pos : Nat} {w : List Change} {x : Change}
    (h : x ∈ waiting pos w cs) : x ∈ w ∨ x.pos ∈ positions pos cs := by
  induction cs generalizing pos w with
  | nil => exact .inl h
  | cons c cs ih =>
      rcases ih h with hw | hp
      · cases hd : c.isDamaged with
        | true => simp [hd] at hw
        | false =>
            simp only [hd, Bool.false_eq_true, if_false, List.mem_append, List.mem_singleton] at hw
            rcases hw with hw | rfl
            · exact .inl hw
            · exact .inr List.mem_cons_self
      · exact .inr (List.mem_cons_of_mem pos hp)

/-- A damaged member of a batch takes itself out, at least. -/
theorem waiting_damaged (cs : List (Cell ks req)) (hd : ∃ c ∈ cs, c.isDamaged = true) (pos : Nat) (w : List Change)
    (hw : ∀ x ∈ w, x.pos < pos) : ∃ p ∈ positions pos cs, p ∉ (waiting pos w cs).map (·.pos) := by
  induction cs generalizing pos w with
  | nil => simp at hd
  | cons c cs ih =>
      have hc := c.framed.header
      have h28 : recHeaderLen = 28 := rfl
      rw [waiting, positions]
      by_cases hcs : ∃ c ∈ cs, c.isDamaged = true
      · obtain ⟨p, hp, hn⟩ := ih hcs (pos + c.found.length) (if c.isDamaged then [] else w ++ [c.change pos]) (by
          intro x hx
          cases hcd : c.isDamaged with
          | true => simp [hcd] at hx
          | false =>
              simp only [hcd, Bool.false_eq_true, if_false, List.mem_append, List.mem_singleton] at hx
              rcases hx with hx | rfl
              · have := hw x hx
                omega
              · simp only [Cell.change]
                omega)
        exact ⟨p, List.mem_cons_of_mem pos hp, hn⟩
      · have hcd : c.isDamaged = true := by
          obtain ⟨x, hx, hxd⟩ := hd
          rcases List.mem_cons.mp hx with rfl | hx
          · exact hxd
          · exact absurd ⟨x, hx, hxd⟩ hcs
        push Not at hcs
        refine ⟨pos, List.mem_cons_self, ?_⟩
        rw [hcd, waiting_intact cs (by simpa using hcs)]
        intro hmem
        have hr := positions_range (by simpa using hmem : pos ∈ positions (pos + c.found.length) cs)
        omega

theorem applied_subset {st : Stretch ks req} {pos : Nat} {x : Change} (h : x ∈ st.applied pos) :
    x.pos ∈ positions pos st.cells := by
  cases st with
  | single c hc =>
      simp only [Stretch.applied] at h
      split at h
      · simp at h
      · rw [List.mem_singleton.mp h]
        exact List.mem_cons_self
  | batch init last hi hl =>
      simp only [Stretch.applied] at h
      rw [Stretch.cells, positions_append]
      split at h
      · simp at h
      · rcases List.mem_append.mp h with h | h
        · exact List.mem_append_left _ ((waiting_subset h).resolve_left List.not_mem_nil)
        · rw [List.mem_singleton.mp h]
          exact List.mem_append_right _ List.mem_cons_self

theorem appliedFrom_ge {sts : List (Stretch ks req)} {pos : Nat} {x : Change} (h : x ∈ appliedFrom pos sts) :
    pos ≤ x.pos := by
  induction sts generalizing pos with
  | nil => simp [appliedFrom] at h
  | cons st sts ih =>
      rcases List.mem_append.mp h with h | h
      · exact (positions_range (applied_subset h)).1
      · have := ih h
        omega

/-- One batch: all of its records are applied or none, exactly when damage
spared it. -/
theorem batch_all_or_none (init : List (Cell ks req)) (last : Cell ks req) (hi : ∀ c ∈ init, c.role = .member)
    (hl : last.role = .commit) (pos : Nat) :
    Whole (positions pos (init ++ [last])) ((Stretch.batch init last hi hl).applied pos) ↔
      (Stretch.batch init last hi hl).Spared := by
  simp only [Whole, Stretch.applied, Stretch.Spared, positions_append, positions]
  cases hv : last.isInvalid with
  | true => simp
  | false =>
      simp only [Bool.false_eq_true, if_false, List.map_append, List.map_cons, List.map_nil, or_false]
      constructor
      · rintro (h | h)
        · by_contra hd
          push Not at hd
          obtain ⟨c, hc, hcd⟩ := hd
          obtain ⟨p, hp, hn⟩ := waiting_damaged init ⟨c, hc, by simpa using hcd⟩ pos [] (by simp)
          have hr := positions_range hp
          rcases List.mem_append.mp (h p (List.mem_append_left _ hp)) with hw | hl'
          · exact hn hw
          · have he := List.mem_singleton.mp hl'
            simp only [Cell.change] at he
            omega
        · exact absurd (List.mem_append_right _ List.mem_cons_self)
            (h (pos + (init.flatMap (·.found)).length) (List.mem_append_right _ List.mem_cons_self))
      · intro hd
        left
        intro p hp
        rw [waiting_intact init hd]
        simpa [Cell.change] using hp

omit [External] in
theorem whole_congr {ps : List Nat} {l l' : List Change}
    (h : ∀ p ∈ ps, p ∈ l.map (·.pos) ↔ p ∈ l'.map (·.pos)) : Whole ps l ↔ Whole ps l' := by
  apply or_congr
  · exact forall₂_congr h
  · exact forall₂_congr fun p hp => not_congr (h p hp)

theorem batches_ge {sts : List (Stretch ks req)} {pos p : Nat} {ps : List Nat} (h : ps ∈ batches pos sts)
    (hp : p ∈ ps) : pos ≤ p := by
  induction sts generalizing pos with
  | nil => simp [batches] at h
  | cons st sts ih =>
      cases st with
      | single c hc =>
          have := ih h
          omega
      | batch init last hi hl =>
          rcases List.mem_cons.mp h with rfl | h
          · exact (positions_range hp).1
          · have := ih h
            omega

/-- What later stretches apply is not found among the records of this one. -/
theorem mem_appliedFrom_head {st : Stretch ks req} {sts : List (Stretch ks req)} {pos p : Nat}
    (hp : p ∈ positions pos st.cells) :
    p ∈ (appliedFrom pos (st :: sts)).map (·.pos) ↔ p ∈ (st.applied pos).map (·.pos) := by
  have hlt : p < pos + st.bytes.length := (positions_range hp).2
  rw [appliedFrom, List.map_append, List.mem_append, or_iff_left_iff_imp]
  intro hm
  obtain ⟨x, hx, rfl⟩ := List.mem_map.mp hm
  have := appliedFrom_ge hx
  omega

theorem mem_appliedFrom_tail {st : Stretch ks req} {sts : List (Stretch ks req)} {pos p : Nat}
    (hp : pos + st.bytes.length ≤ p) :
    p ∈ (appliedFrom pos (st :: sts)).map (·.pos) ↔ p ∈ (appliedFrom (pos + st.bytes.length) sts).map (·.pos) := by
  rw [appliedFrom, List.map_append, List.mem_append, or_iff_right_iff_imp]
  intro hm
  obtain ⟨x, hx, rfl⟩ := List.mem_map.mp hm
  have hlt : x.pos < pos + st.bytes.length := (positions_range (applied_subset hx)).2
  omega

theorem whole_iff_spared (sts : List (Stretch ks req)) (pos : Nat) :
    (∀ ps ∈ batches pos sts, Whole ps (appliedFrom pos sts)) ↔ ∀ st ∈ sts, st.Spared := by
  induction sts generalizing pos with
  | nil => simp [batches]
  | cons st sts ih =>
      have htail : (∀ ps ∈ batches (pos + st.bytes.length) sts, Whole ps (appliedFrom pos (st :: sts))) ↔
          ∀ st ∈ sts, st.Spared := by
        rw [← ih (pos + st.bytes.length)]
        exact forall₂_congr fun ps hps => whole_congr fun p hp => mem_appliedFrom_tail (batches_ge hps hp)
      rw [List.forall_mem_cons, ← htail]
      cases st with
      | single c hc =>
          simp only [batches, Stretch.Spared, true_and]
      | batch init last hi hl =>
          rw [batches, List.forall_mem_cons, ← batch_all_or_none init last hi hl pos]
          exact and_congr_left fun _ => whole_congr fun p hp => mem_appliedFrom_head hp

/-- For every file of single records and committed batches and every set of
damaged records, batches stay all-or-nothing exactly when damage spared each:
it hit none of its records, or also the commit record. -/
theorem all_or_none_iff_spared (fileId : UInt64) (format : UInt32) (sts : List (Stretch ks req)) :
    ∃ l, applied ks req (stretchFile fileId format sts) = .ok l ∧ (AllOrNone sts l ↔ ∀ st ∈ sts, st.Spared) :=
  ⟨_, applied_stretchFile fileId format sts, whole_iff_spared sts fileHeaderLen⟩

end

section

open Reference

def sampleA : Write := .put ⟨"a", rfl⟩ ⟨[0x31], by decide⟩ .number .json .none 0 0

def sampleB : Write := .put ⟨"b", rfl⟩ ⟨[0x32], by decide⟩ .number .json .none 0 0

/-- The first record of a batch, its value changed from 1 to 3. -/
def damagedA : Cell none false where
  keys := none
  write := sampleA
  role := .member
  record := sampleA.record flagTxn
  found := (sampleA.record flagTxn).set 29 0x33
  opens := by rintro _ ⟨⟩
  required := by rintro ⟨⟩
  written := ⟨.error "", rfl⟩
  intact_or_damaged := .inr
    { length := List.length_set
      kSize := by decide
      vSize := by decide
      sums := by decide +kernel }

/-- The commit record of that batch, as it was written. -/
def intactB : Cell none false where
  keys := none
  write := sampleB
  role := .commit
  record := stampCommit (sampleB.record flagTxn)
  found := stampCommit (sampleB.record flagTxn)
  opens := fun _ h => nomatch h
  required := fun h => nomatch h
  written := ⟨.error "", _, rfl, rfl⟩
  intact_or_damaged := .inl rfl

def halfBatch : Stretch none false := .batch [damagedA] intactB (by simp [damagedA]) rfl

/-- A batch of two puts whose first record is damaged: the second is applied
alone. -/
theorem damaged_batch_is_split : ∃ l, applied none false (stretchFile 1 1 [halfBatch]) = .ok l ∧
    l.map (·.key) = ["b"] ∧ ¬ AllOrNone [halfBatch] l := by
  refine ⟨_, applied_stretchFile 1 1 [halfBatch], by decide +kernel, ?_⟩
  rw [AllOrNone, whole_iff_spared]
  intro h
  have hs : (∀ c ∈ [damagedA], c.isDamaged = false) ∨ intactB.isInvalid = true := h halfBatch List.mem_cons_self
  rcases hs with hs | hs
  · exact absurd (hs damagedA List.mem_cons_self) (by decide +kernel)
  · exact absurd hs (by decide +kernel)

end

end KivaDb.Log
