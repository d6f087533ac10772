import KivaDb.Engine.Reads
import KivaDb.Front.Direct

namespace KivaDb

open Lib.LittleEndian Lib.Utf8 Lib.Fallible Format Crypt Log

variable [External] [Chrono] [Codec] [Vectors]

section

variable {key : String} {value : Value} {ex ts now : Int64} {msgpack : Bool} {nonce : Draw} {i j : Inner}

omit [External] [Codec] [Vectors] in
theorem Schema.apply_error (hdoc : DocView.of value = none) (s : Schema) (key : String) (at_ : Int64) :
    ∃ why, s.apply key at_ value = .error why := by
  rw [Schema.apply, hdoc]
  exact ⟨_, rfl⟩

/-- A value that is no document is written as it is, or not at all. -/
theorem conformed_eq_none (hdoc : DocView.of value = none) {at_ : Int64} {v : Option Value}
    (h : conformed key value at_ now i = .ok v j) : v = none := by
  obtain ⟨k, _, hget, h⟩ := bind_ok.mp h
  obtain ⟨rfl, rfl⟩ := get_ok.mp hget
  split at h
  · exact (pure_ok.mp h).1.symm
  · next hne =>
      split at h
      · next doc hfold =>
          cases hs : i.schemas.filter fun s => Glob.globMatch s.pattern key with
          | nil => exact absurd (by rw [hs]; rfl) hne
          | cons s schemas =>
              obtain ⟨why, hwhy⟩ := s.apply_error hdoc key at_
              rw [hs, List.foldlM_cons, hwhy] at hfold
              exact nomatch hfold
      · obtain ⟨e, k, -, h⟩ := bind_ok.mp h
        cases e with
        | none => exact (throw_ok.mp h).elim
        | some e =>
            obtain ⟨k', _, -, h⟩ := bind_ok.mp h
            cases hread : k'.readValue key e with
            | error why =>
                rw [hread] at h
                exact (throw_ok.mp h).elim
            | ok current =>
                rw [hread] at h
                dsimp only at h
                split at h
                · exact (pure_ok.mp h).1.symm
                · exact (throw_ok.mp h).elim

/-- The key holds what was put there until its deadline. -/
theorem content_putLocked {created : Bool} (h : putLocked key value ex msgpack ts now nonce i = .ok created j) :
    ∃ raw enc, Codec.encodeStored value (msgpack && value.ty.isDoc) = .ok (raw, enc) ∧
      ∀ t, Content.alive t ⟨value.ty, raw, enc, ts, ex⟩ = true →
        j.content key t = some (.ok ⟨value.ty, raw, enc, ts, ex⟩) := by
  obtain ⟨rec, entry, raw, hbuild, -, -, rfl⟩ := putLocked_ok h
  obtain ⟨enc, henc, hcontent, hrec⟩ := buildPut_recorded (show Role.single ≠ .commit by simp) hbuild
  obtain ⟨w, hw⟩ := hrec (DocView.of value) value.ty created
  have hl := hw.legible (by simp [Role.Readable])
  refine ⟨raw, enc, henc, fun t halive => ?_⟩
  have hkeys : (i.dropExpired key now).keys = i.keys := by rw [Drop.frame_star (dropExpired_drops i key now)]
  have hfile : ((i.dropExpired key now).extend rec).file =
      ((i.dropExpired key now).raiseFormat (formatNeeded rec)).file ++ (rec ++ []) := by
    rw [List.append_nil, Inner.file_extend]
  have hread := content_applyStaged (i := (i.dropExpired key now).extend rec)
    (p := (.put key entry raw (DocView.of value) value.ty created, rec)) (by rwa [Inner.keys_extend, hkeys]) hfile t
  have hone : [(Staged.put key entry raw (DocView.of value) value.ty created, rec)].flatMap Prod.snd = rec := by simp
  rw [Inner.commit, hone, Inner.applyAllStaged, Inner.applyAllStaged, congrFun hread key]
  simp only [Staged.cmd, hcontent, Lib.Shadow.final, Function.update_self, halive, if_true]

theorem content_put (hdoc : DocView.of value = none) {clock : Clock} {created : Bool}
    (h : put key value ex msgpack clock nonce i = .ok created j) :
    ∃ raw enc, Codec.encodeStored value (msgpack && value.ty.isDoc) = .ok (raw, enc) ∧
      ∀ t, Content.alive t ⟨value.ty, raw, enc, clock.secs 0, ex⟩ = true →
        j.content key t = some (.ok ⟨value.ty, raw, enc, clock.secs 0, ex⟩) := by
  obtain ⟨v, k, hv, h⟩ := bind_ok.mp h
  obtain rfl := conformed_eq_none hdoc hv
  obtain ⟨_, _, -, h⟩ := bind_ok.mp h
  obtain ⟨_, _, -, h⟩ := bind_ok.mp h
  obtain ⟨_, _, -, h⟩ := bind_ok.mp h
  obtain ⟨_, _, -, h⟩ := bind_ok.mp h
  obtain ⟨_, _, -, h⟩ := bind_ok.mp h
  exact content_putLocked h

/-- What a key holds is read back. -/
theorem get_of_content {t : Int64} {c : Content} (h : j.content key t = some (.ok c))
    {v : Value} (hv : Codec.decode c.ty c.raw c.enc = .ok v) :
    ∃ e, Engine.get key t j = .ok (some (v, e)) (j.dropExpired key t) ∧ e.expiresAt = c.expiresAt := by
  rw [Inner.content, Option.map_eq_some_iff] at h
  obtain ⟨e, hat, hread⟩ := h
  cases hraw : j.readRaw key e with
  | error why =>
      rw [hraw] at hread
      cases hread
  | ok raw =>
      rw [hraw] at hread
      obtain rfl : (⟨e.ty, raw, e.docEnc, e.timestamp, e.expiresAt⟩ : Content) = c := Except.ok.inj hread
      have hfr := Drop.frame_star (dropExpired_drops j key t)
      have hlater : (j.dropExpired key t).readRaw key e = .ok raw := by
        rw [readRaw_congr (j := j) (by rw [hfr]) (by rw [hfr]), hraw]
      have hvalue : (j.dropExpired key t).readValue key e = .ok v := by
        simp only [Inner.readValue, hlater, bind, Except.bind, hv]
      refine ⟨e, ?_, rfl⟩
      refine (run_bind_of_ok (live_eq key t j) _).trans ?_
      rw [hat]
      show (attempt ((j.dropExpired key t).readValue key e) >>= fun v => pure (some (v, e)) : M _) _ = _
      rw [hvalue]
      rfl

end

namespace Front

omit [External] [Codec] [Vectors] in
/-- Who may write may read. -/
theorem Session.check_read {s : Session} (h : s.check .write = .ok ()) : s.check .read = .ok () := by
  unfold check at h ⊢
  cases hu : s.user with
  | none =>
      rw [hu] at h
      exact nomatch h
  | some u =>
      rw [hu] at h
      dsimp only at h ⊢
      split at h
      · exact nomatch h
      · next hpriv =>
          rw [if_neg (by simpa using hpriv)]

omit [Codec] in
theorem Site.check_write {s : Site} (h : s.writable = .ok ()) : s.sess.check .write = .ok () := by
  obtain ⟨_, h, -⟩ := except_bind_ok.mp h
  exact h

section

variable {key : String} {value : Value} {ex : Int64} {s t : Site}

/-- What is put is buffered, or the key holds it. -/
theorem apply_put (h : apply [.put key value ex false] s = .ok () t) (hdoc : DocView.of value = none) :
    t.sess.check .read = .ok () ∧
      (t.sess.buffered key = some (.put value ex false) ∨
        t.sess.buffered key = none ∧ ∃ raw enc ts, Codec.encodeStored value false = .ok (raw, enc) ∧
          ∀ now, Content.alive now ⟨value.ty, raw, enc, ts, ex⟩ = true →
            (t.server.engines t.sess.ws).content key now = some (.ok ⟨value.ty, raw, enc, ts, ex⟩)) := by
  cases htxn : s.sess.txn with
  | none =>
      rw [apply_direct_eq _ htxn] at h
      obtain ⟨_, u, hroom, h⟩ := bind_ok.mp h
      obtain ⟨_, u', hset, h⟩ := bind_ok.mp h
      obtain rfl := modify_ok.mp hset
      obtain ⟨m, v, hpause, h⟩ := bind_ok.mp h
      have hv : v.sess = { u.sess with wrote := true } := by
        obtain ⟨-, rfl⟩ := EStateM.Result.ok.inj hpause
        rfl
      have hsess : u.sess = s.sess := looks_sess ((pause_looks s).trans ((room_looks _ s).ok hroom))
      obtain ⟨_, _, hwritable, -⟩ := bind_ok.mp hroom
      have hcheck := Session.check_read (Site.check_write (require_ok hwritable).1)
      obtain ⟨created, w, hrun, h⟩ := bind_ok.mp h
      obtain ⟨-, rfl⟩ := EStateM.Result.ok.inj h
      obtain ⟨i, hput, rfl⟩ := onEngine_ok hrun
      obtain ⟨raw, enc, henc, hcontent⟩ := content_put hdoc hput
      rw [hsess] at hv
      have hengine : ((v.set s.sess.ws i).server.engines (v.set s.sess.ws i).sess.ws) = i := by
        show (if v.sess.ws = s.sess.ws then i else _) = i
        rw [hv, if_pos rfl]
      refine ⟨?_, .inr ⟨?_, raw, enc, m.clock.secs 0, henc, ?_⟩⟩
      · show v.sess.check .read = .ok ()
        rw [hv]
        exact hcheck
      · show v.sess.buffered key = none
        rw [hv, Session.buffered, htxn]
        rfl
      · rw [hengine]
        exact hcontent
  | some txn =>
      rw [apply_open _ htxn] at h
      obtain ⟨_, u, hrequire, h⟩ := bind_ok.mp h
      obtain ⟨hwritable, rfl⟩ := require_ok hrequire
      obtain ⟨_, v, hset, h⟩ := bind_ok.mp h
      obtain rfl := modify_ok.mp hset
      obtain ⟨hall, rfl⟩ := require_ok h
      refine ⟨Session.check_read (Site.check_write hwritable), .inl ?_⟩
      have hwrites : (bufferAll [.put key value ex false] txn.writes).2 = txn.writes.insert key (.put value ex false) := by
        unfold bufferAll at hall ⊢
        split
        · next hbad =>
            rw [if_pos hbad] at hall
            exact nomatch hall
        · rfl
      show (some ({ txn with writes := (bufferAll [.put key value ex false] txn.writes).2 } : Txn)).bind _ = _
      rw [hwrites, Option.bind_some, Std.ExtTreeMap.getElem?_insert_self]

/-- A read of a session that may read. -/
def kvGetFrom (key : String) (s : Session) (m : Moment) : S (Option (Value × Meta)) :=
  match s.buffered key with
  | some (.put value expiresAt msgpack) => return some (value, ⟨expiresAt, msgpack, 0⟩)
  | some .del => return none
  | none => do
      match ← onEngine s.ws (Engine.get key (m.clock.now 0)) with
      | some (v, e) => return some (v, ⟨e.expiresAt, e.isMsgpack, e.timestamp⟩)
      | none => return none

/-- What a session puts it reads back, until the deadline or until another client writes. -/
theorem kvGet_of_put (h : apply [.put key value ex false] s = .ok () t) (hdoc : DocView.of value = none)
    (hcodec : ∀ raw enc, Codec.encodeStored value false = .ok (raw, enc) → Codec.decode value.ty raw enc = .ok value)
    (hquiet : (t.moments 0).others = []) (halive : ex ≤ 0 ∨ (t.moments 0).clock.now 0 < ex) :
    ∃ m u, kvGet key t = .ok (some (value, m)) u ∧ m.expiresAt = ex := by
  obtain ⟨hcheck, hput⟩ := apply_put h hdoc
  have hsame : t.after.server = t.server := by rw [Site.after, hquiet, List.foldl_nil]
  have hget : kvGet key t = kvGetFrom key t.sess (t.moments 0) t.after := by
    refine (run_bind_of_ok (rfl : pause t = .ok (t.moments 0) t.after) _).trans ?_
    refine (run_bind_of_ok (rfl : (get : S Site) t.after = .ok t.after t.after) _).trans ?_
    show (require (t.sess.check .read) >>= _ : S _) t.after = _
    rw [hcheck]
    rfl
  rw [hget, kvGetFrom]
  obtain hbuffered | ⟨hbuffered, raw, enc, ts, henc, hcontent⟩ := hput
  · rw [hbuffered]
    exact ⟨_, _, rfl, rfl⟩
  · have hlive : Content.alive ((t.moments 0).clock.now 0) ⟨value.ty, raw, enc, ts, ex⟩ = true := by
      simp only [Content.alive, Bool.not_eq_true', Bool.and_eq_false_iff, decide_eq_false_iff_not, Int64.not_lt,
        Int64.not_le]
      exact halive
    obtain ⟨e, hread, hex⟩ := get_of_content (hcontent _ hlive) (hcodec raw enc henc)
    rw [hbuffered]
    have hrun : onEngine t.sess.ws (Engine.get key ((t.moments 0).clock.now 0)) t.after =
        .ok (some (value, e)) (t.after.set t.sess.ws
          ((t.server.engines t.sess.ws).dropExpired key ((t.moments 0).clock.now 0))) := by
      unfold onEngine
      rw [hsame, hread]
      rw [← hsame]
      rfl
    exact ⟨_, _, run_bind_of_ok hrun _, hex⟩

end

end Front

end KivaDb
