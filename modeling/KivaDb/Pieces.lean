import KivaDb.Appends

namespace KivaDb.Log

open Lib.LittleEndian Lib.Utf8 Lib.Flags Format Crypt

variable [External]

/-- `rec` is what the engine appends for `w` in its role: the last record of a
batch is encoded as a member and stamped afterwards. -/
def Written (keys : Option Keys) (w : Write) : Role → Bytes → Prop
  | .commit, rec => ∃ nonce r, w.encode keys nonce Role.member.extra = .ok r ∧ rec = stampCommit r
  | role, rec => ∃ nonce, w.encode keys nonce role.extra = .ok rec

/-- What the scan makes of the record of `w` at `pos`. -/
def read (keys : Option Keys) (w : Write) (role : Role) (pos : Nat) : Option Change :=
  if role = .commit ∧ keys.isSome then none
  else some ⟨pos, w.key.1, (w.entry keys role.extra pos).map Entry.reread⟩

section

variable {keys : Option Keys} {w : Write} {role : Role} {rec : Bytes}

theorem Written.framed (h : Written keys w role rec) : Framed rec := by
  cases role with
  | single => obtain ⟨nonce, h⟩ := h; exact Write.framed_encode h
  | member => obtain ⟨nonce, h⟩ := h; exact Write.framed_encode h
  | commit => obtain ⟨nonce, r, h, rfl⟩ := h; exact Write.framed_stampCommit h

theorem Written.length_eq (h : Written keys w role rec) : rec.length = w.recLen keys := by
  cases role with
  | single => obtain ⟨nonce, h⟩ := h; exact Write.length_encode h
  | member => obtain ⟨nonce, h⟩ := h; exact Write.length_encode h
  | commit =>
      obtain ⟨nonce, r, h, rfl⟩ := h
      rw [Write.length_stampCommit h, Write.length_encode h]

theorem Written.readRecord_eq {ks : Option Keys} {req : Bool} (pos : Nat) (hc : CanOpen ks keys)
    (hq : req = true → keys.isSome) (h : Written keys w role rec) :
    readRecord ks req pos rec = .ok (read keys w role pos) := by
  cases role with
  | single => obtain ⟨nonce, h⟩ := h; exact Write.readRecord_encode pos hc hq h
  | member => obtain ⟨nonce, h⟩ := h; exact Write.readRecord_encode pos hc hq h
  | commit =>
      obtain ⟨nonce, r, h, rfl⟩ := h
      cases keys with
      | none => exact Write.readRecord_encode pos hc hq (Write.stampCommit_encode h)
      | some k => exact Write.readRecord_stampCommit_sealed req pos hc h

theorem Written.role_flags {pos : Nat} (h : Written keys w role rec) (hr : read keys w role pos ≠ none) :
    hasFlag (parseHeader rec).flags flagTxn = hasFlag role.extra flagTxn ∧
      hasFlag (parseHeader rec).flags flagTxnCommit = hasFlag role.extra flagTxnCommit := by
  cases role with
  | single => obtain ⟨nonce, h⟩ := h; exact Write.role_flags h
  | member => obtain ⟨nonce, h⟩ := h; exact Write.role_flags h
  | commit =>
      obtain ⟨nonce, r, h, rfl⟩ := h
      cases keys with
      | none => exact Write.role_flags (Write.stampCommit_encode h)
      | some k => simp [read] at hr

end

/-- A whole record lying in the file, with what a scan under the keys `ks`
makes of it. -/
structure Piece (ks : Option Keys) (req : Bool) where
  bytes : Bytes
  role : Role
  read : Nat → Option Change
  framed : Framed bytes
  reads : ∀ pos, readRecord ks req pos bytes = .ok (read pos)
  flags : ∀ pos, read pos ≠ none → hasFlag (parseHeader bytes).flags flagTxn = hasFlag role.extra flagTxn ∧
    hasFlag (parseHeader bytes).flags flagTxnCommit = hasFlag role.extra flagTxnCommit

variable {ks : Option Keys} {req : Bool} {σ : Type} (apply : σ → Change → σ)

/-- The bytes of the pieces, one after the other. -/
def joined (ps : List (Piece ks req)) : Bytes := ps.flatMap (·.bytes)

theorem joined_cons (p : Piece ks req) (ps : List (Piece ks req)) : joined (p :: ps) = p.bytes ++ joined ps := rfl

theorem joined_append (ps qs : List (Piece ks req)) : joined (ps ++ qs) = joined ps ++ joined qs := by
  simp [joined]

namespace Scan

/-- The scan passes over a piece. -/
def piece (s : Scan σ) (p : Piece ks req) : Scan σ :=
  match p.read s.pos with
  | none => s.skip p.bytes.length
  | some c => s.take apply p.role.extra c p.bytes.length

def pieces (s : Scan σ) (ps : List (Piece ks req)) : Scan σ := ps.foldl (piece apply) s

theorem pieces_cons (s : Scan σ) (p : Piece ks req) (ps : List (Piece ks req)) :
    s.pieces apply (p :: ps) = (s.piece apply p).pieces apply ps := rfl

theorem pieces_append (s : Scan σ) (ps qs : List (Piece ks req)) :
    s.pieces apply (ps ++ qs) = (s.pieces apply ps).pieces apply qs := List.foldl_append

omit [External] in
theorem take_congr {f g : UInt8} (s : Scan σ) (c : Change) (n : Nat) (ht : hasFlag f flagTxn = hasFlag g flagTxn)
    (hc : hasFlag f flagTxnCommit = hasFlag g flagTxnCommit) : s.take apply f c n = s.take apply g c n := by
  simp only [take, ht, hc]

theorem pos_piece (s : Scan σ) (p : Piece ks req) : (s.piece apply p).pos = s.pos + p.bytes.length := by
  unfold piece
  split
  · rfl
  · unfold take
    dsimp only
    split
    · split <;> rfl
    · rfl

theorem pos_pieces (s : Scan σ) (ps : List (Piece ks req)) :
    (s.pieces apply ps).pos = s.pos + (joined ps).length := by
  induction ps generalizing s with
  | nil => rfl
  | cons p ps ih =>
      rw [pieces_cons, ih, pos_piece, joined_cons, List.length_append]
      omega

end Scan

theorem scan_piece {s : Scan σ} (p : Piece ks req) {rest : Bytes} (h : p.read s.pos ≠ none ∨ rest ≠ []) :
    scan apply ks req s (p.bytes ++ rest) = scan apply ks req (s.piece apply p) rest := by
  have hr := p.reads s.pos
  cases hp : p.read s.pos with
  | none =>
      rw [hp] at hr
      rw [scan_invalid apply ks req p.framed hr (h.resolve_left (fun hn => hn hp)), Scan.piece, hp]
  | some c =>
      have hf := p.flags s.pos (by simp [hp])
      rw [hp] at hr
      rw [scan_valid apply ks req p.framed hr, Scan.piece, hp, Scan.take_congr apply s c _ hf.1 hf.2]

/-- Pieces that are followed by something, or none of which is invalid, are
passed over one after the other. -/
theorem scan_pieces (ps : List (Piece ks req)) {s : Scan σ} {rest : Bytes}
    (h : (∀ p ∈ ps, ∀ pos, p.read pos ≠ none) ∨ rest ≠ []) :
    scan apply ks req s (joined ps ++ rest) = scan apply ks req (s.pieces apply ps) rest := by
  induction ps generalizing s with
  | nil => rfl
  | cons p ps ih =>
      have hp : p.read s.pos ≠ none ∨ joined ps ++ rest ≠ [] := by
        rcases h with h | h
        · exact .inl (h p List.mem_cons_self _)
        · exact .inr (by simp [h])
      have hps : (∀ q ∈ ps, ∀ pos, q.read pos ≠ none) ∨ rest ≠ [] := by
        rcases h with h | h
        · exact .inl fun q hq => h q (List.mem_cons_of_mem p hq)
        · exact .inr h
      rw [joined_cons, List.append_assoc, scan_piece apply p hp, ih hps, Scan.pieces_cons]

/-- A file of whole pieces: an invalid one at its very end is not passed over,
which makes no difference to what was applied. -/
theorem scan_joined (ps : List (Piece ks req)) (s : Scan σ) :
    ∃ t, scan apply ks req s (joined ps) = .ok t ∧ t.acc = (s.pieces apply ps).acc := by
  induction ps generalizing s with
  | nil => exact ⟨s, rfl, rfl⟩
  | cons p ps ih =>
      by_cases h : p.read s.pos ≠ none ∨ joined ps ≠ []
      · rw [joined_cons, scan_piece apply p h]
        exact ih (s.piece apply p)
      · push Not at h
        have hr := p.reads s.pos
        rw [h.1] at hr
        have hps : ps = [] := by
          cases ps with
          | nil => rfl
          | cons q qs =>
              have hq := q.framed.header
              have h28 : recHeaderLen = 28 := rfl
              have hn := congrArg List.length h.2
              rw [joined_cons, List.length_append, List.length_nil] at hn
              omega
        subst hps
        refine ⟨s, ?_, ?_⟩
        · rw [joined_cons, h.2, List.append_nil, scan_invalid_last apply ks req p.framed hr]
        · simp only [Scan.pieces, List.foldl_cons, List.foldl_nil, Scan.piece, h.1, Scan.skip]

/-- What pieces laid out from the byte `pos` on say. -/
def readsFrom : Nat → List (Piece ks req) → List Change
  | _, [] => []
  | pos, p :: ps => (p.read pos).toList ++ readsFrom (pos + p.bytes.length) ps

theorem readsFrom_append (ps qs : List (Piece ks req)) (pos : Nat) :
    readsFrom pos (ps ++ qs) = readsFrom pos ps ++ readsFrom (pos + (joined ps).length) qs := by
  induction ps generalizing pos with
  | nil => rfl
  | cons p ps ih =>
      simp only [List.cons_append, readsFrom, ih, joined_cons, List.length_append, Nat.add_assoc, List.append_assoc]

theorem piece_member {s : Scan σ} {p : Piece ks req} {c : Change} (hr : p.role = .member) (hp : p.read s.pos = some c) :
    s.piece apply p =
      { s with pos := s.pos + p.bytes.length, pending := s.pending ++ [c], pendingStart := s.stop } := by
  have ht : hasFlag Role.member.extra flagTxn = true := by decide
  have hc : hasFlag Role.member.extra flagTxnCommit = false := by decide
  rw [Scan.piece, hp]
  simp only [hr, Scan.take, ht, hc, if_true, Scan.stop]
  rfl

/-- Records of a batch before its commit record only wait. -/
theorem pieces_members (ps : List (Piece ks req)) (hr : ∀ p ∈ ps, p.role = .member)
    (hv : ∀ p ∈ ps, ∀ pos, p.read pos ≠ none) (s : Scan σ) :
    s.pieces apply ps =
      { s with
        pos := s.pos + (joined ps).length
        pending := s.pending ++ readsFrom s.pos ps
        pendingStart := if ps = [] then s.pendingStart else s.stop } := by
  induction ps generalizing s with
  | nil => simp [Scan.pieces, joined, readsFrom]
  | cons p ps ih =>
      obtain ⟨c, hc⟩ := Option.ne_none_iff_exists'.mp (hv p List.mem_cons_self s.pos)
      have hp := piece_member apply (hr p List.mem_cons_self) hc
      rw [Scan.pieces_cons, hp, ih (fun q hq => hr q (List.mem_cons_of_mem p hq))
        (fun q hq => hv q (List.mem_cons_of_mem p hq))]
      simp only [joined_cons, List.length_append, readsFrom, hc, Scan.stop]
      simp [Nat.add_assoc]

/-- What one call appended, all of it valid to the scan: a single record, or the
members of a batch and its commit record. -/
structure Block (ks : Option Keys) (req : Bool) where
  init : List (Piece ks req)
  last : Piece ks req
  members : ∀ p ∈ init, p.role = .member
  closes : last.role = .commit ∨ init = [] ∧ last.role = .single
  valid : ∀ p ∈ init ++ [last], ∀ pos, p.read pos ≠ none

namespace Block

def pieces (b : Block ks req) : List (Piece ks req) := b.init ++ [b.last]

def bytes (b : Block ks req) : Bytes := joined b.pieces

def changes (b : Block ks req) (pos : Nat) : List Change := readsFrom pos b.pieces

end Block

/-- A whole append is applied, whatever stood before it. -/
theorem pieces_block (b : Block ks req) {s : Scan σ} (hs : s.pending = []) :
    (s.pieces apply b.pieces).pending = [] ∧ (s.pieces apply b.pieces).corrupted = s.corrupted ∧
      (s.pieces apply b.pieces).acc = (b.changes s.pos).foldl apply s.acc := by
  have hvi : ∀ p ∈ b.init, ∀ pos, p.read pos ≠ none := fun p hp => b.valid p (List.mem_append_left _ hp)
  obtain ⟨c, hc⟩ := Option.ne_none_iff_exists'.mp
    (b.valid b.last (List.mem_append_right _ List.mem_cons_self) (s.pos + (joined b.init).length))
  rw [Block.changes, Block.pieces, readsFrom_append, Scan.pieces_append, pieces_members apply b.init b.members hvi]
  simp only [readsFrom, hc, Option.toList_some, List.append_nil, List.foldl_append, List.foldl_cons, List.foldl_nil]
  rcases b.closes with hr | ⟨hi, hr⟩
  · have ht : hasFlag Role.commit.extra flagTxn = true := by decide
    have hcm : hasFlag Role.commit.extra flagTxnCommit = true := by decide
    simp only [Scan.pieces, List.foldl_cons, List.foldl_nil, Scan.piece, hc, hr, Scan.take, ht, hcm, if_true, hs,
      List.nil_append, List.foldl_append, and_self]
  · have ht : hasFlag Role.single.extra flagTxn = false := by decide
    rw [hi] at hc ⊢
    simp only [Scan.pieces, List.foldl_cons, List.foldl_nil, Scan.piece, hc, hr, Scan.take, ht, readsFrom]
    exact ⟨rfl, rfl, rfl⟩

theorem scan_block (b : Block ks req) (s : Scan σ) (rest : Bytes) :
    scan apply ks req s (b.bytes ++ rest) = scan apply ks req (s.pieces apply b.pieces) rest :=
  scan_pieces apply b.pieces (.inl b.valid)

/-- What blocks laid out from `pos` on change. -/
def changesAll : Nat → List (Block ks req) → List Change
  | _, [] => []
  | pos, b :: bs => b.changes pos ++ changesAll (pos + b.bytes.length) bs

theorem changesAll_append (bs cs : List (Block ks req)) (pos : Nat) :
    changesAll pos (bs ++ cs) = changesAll pos bs ++ changesAll (pos + (bs.flatMap Block.bytes).length) cs := by
  induction bs generalizing pos with
  | nil => rfl
  | cons b bs ih =>
      simp only [List.cons_append, changesAll, ih, List.flatMap_cons, List.length_append, Nat.add_assoc,
        List.append_assoc]

/-- A log of whole appends is applied as a whole. -/
theorem scan_blocks (bs : List (Block ks req)) {s : Scan σ} (hs : s.pending = []) :
    ∃ t, scan apply ks req s (bs.flatMap Block.bytes) = .ok t ∧ t.pending = [] ∧ t.corrupted = s.corrupted ∧
      t.pos = s.pos + (bs.flatMap Block.bytes).length ∧ t.acc = (changesAll s.pos bs).foldl apply s.acc := by
  induction bs generalizing s with
  | nil => exact ⟨s, scan_stop apply ks req s nextFrame_nil, hs, rfl, rfl, rfl⟩
  | cons b bs ih =>
      obtain ⟨hp, hc, ha⟩ := pieces_block apply b hs
      have hpos : (s.pieces apply b.pieces).pos = s.pos + b.bytes.length := Scan.pos_pieces apply s b.pieces
      obtain ⟨t, ht, htp, htc, htpos, hta⟩ := ih hp
      refine ⟨t, ?_, htp, htc.trans hc, ?_, ?_⟩
      · rw [List.flatMap_cons, scan_block, ht]
      · rw [htpos, hpos, List.flatMap_cons, List.length_append, Nat.add_assoc]
      · rw [hta, hpos, ha, changesAll, List.foldl_append]

end KivaDb.Log
