import KivaDb.Engine.Reads
import KivaDb.Engine.Sealed

namespace KivaDb

open Lib.LittleEndian Lib.Utf8 Lib.Flags Lib.Fallible Lib.Shadow Format Crypt Log Relation

section

variable [External] [Chrono] [Vectors]

/-- What listeners are told of an event. -/
def toOp : Event String Content → Op
  | .set k c created => .set k c.ty c.raw c.enc c.timestamp c.expiresAt created
  | .del k => .del k

omit [External] [Chrono] [Vectors] in
theorem toOp_injective : Function.Injective toOp := by
  intro a b h
  cases a with
  | set k c created =>
      cases b with
      | set k' c' created' =>
          obtain ⟨ty, raw, enc, ts, ex⟩ := c
          obtain ⟨ty', raw', enc', ts', ex'⟩ := c'
          simp only [toOp, Op.set.injEq] at h
          obtain ⟨rfl, rfl, rfl, rfl, rfl, rfl, rfl⟩ := h
          rfl
      | del k' => simp [toOp] at h
  | del k =>
      cases b with
      | set k' c' created' => simp [toOp] at h
      | del k' =>
          simp only [toOp, Op.del.injEq] at h
          rw [h]

variable [Codec]

/-- The operations one after the other, each by its own call, at an instant. -/
def oneByOne (now ts : Int64) (draws : Nat → Draw) : Nat → List BatchOp → M Unit
  | _, [] => pure ()
  | n, .put key value expiresAt msgpack :: ops => do
      let _ ← putLocked key value expiresAt msgpack ts now (draws n)
      oneByOne now ts draws (n + 1) ops
  | n, .del key :: ops => do
      let _ ← delete key (Clock.still now) (draws n)
      oneByOne now ts draws (n + 1) ops

/-- The command an operation is, once its value is encoded. -/
def BatchOp.cmd (ts : Int64) : BatchOp → Option (Cmd String Content)
  | put key value ex msgpack =>
      match Codec.encodeStored value (msgpack && value.ty.isDoc) with
      | .ok (raw, enc) => some (.put key ⟨value.ty, raw, enc, ts, ex⟩)
      | .error _ => none
  | del key => some (.del key)

variable {now ts : Int64} {draws : Nat → Draw} {n : Nat} {ops : List BatchOp} {st st' : Staging} {i i' : Inner}

omit [Codec] in
theorem seen_insert (i : Inner) (shadow : Std.ExtTreeMap String Bool compare) (key : String) (x : Bool) (now : Int64) :
    (seen (looked i shadow key now) (shadow.insert key x) · now) = Function.update (seen i shadow · now) key x := by
  funext k
  have hat := Drop.at?_star (looked_drops i shadow key now) (Int64.le_refl now) k
  by_cases hk : k = key
  · subst hk
    simp [seen]
  · have hne : compare key k ≠ .eq := by simpa [Std.compare_eq_iff_eq] using Ne.symm hk
    simp only [seen, Std.ExtTreeMap.getElem?_insert, hne, if_false, hat, Function.update_of_ne hk]

omit [Codec] in
theorem seen_looked (i : Inner) (shadow : Std.ExtTreeMap String Bool compare) (key : String) (now : Int64) :
    (seen (looked i shadow key now) shadow · now) = (seen i shadow · now) := by
  funext k
  simp only [seen, Drop.at?_star (looked_drops i shadow key now) (Int64.le_refl now) k]

/-- What a batch stages: the operations that do something, each with what is
told of it and its record. -/
theorem stage_spec (h : stage now ts draws n ops st i = .ok st' i') :
    ∃ cmds more, List.Forall₂ (fun op c => op.cmd ts = some c) ops cmds ∧ st'.staged = st.staged ++ more ∧
      more.map (·.1.cmd) = effective (seen i st.shadow · now) cmds ∧
      more.map (·.1.op) = (shadowed (seen i st.shadow · now) cmds).map toOp ∧
      ∀ p ∈ more, p.1.entry.isSome → ∃ w, Recorded i.keys w .member p := by
  induction ops generalizing n st i with
  | nil =>
      obtain ⟨rfl, rfl⟩ := pure_ok.mp h
      exact ⟨[], [], .nil, by simp, rfl, rfl, by simp⟩
  | cons op ops ih =>
      have hfr (key : String) : (looked i st.shadow key now).keys = i.keys := by
        rw [Drop.frame_star (looked_drops i st.shadow key now)]
      cases op with
      | put key value ex msgpack =>
          obtain ⟨rec, entry, raw, hb, h⟩ := stage_put_ok h
          obtain ⟨enc, henc, hcon, hrec⟩ := buildPut_recorded (show Log.Role.member ≠ .commit by simp) hb
          obtain ⟨cmds, more, hcmds, hst, heff, htold, hall⟩ := ih h
          rw [seen_insert] at heff htold
          rw [hfr] at hall
          refine ⟨.put key ⟨value.ty, raw, enc, ts, ex⟩ :: cmds, _ :: more, .cons ?_ hcmds,
            by rw [hst, List.append_assoc]; rfl, ?_, ?_, ?_⟩
          · simp [BatchOp.cmd, henc]
          · rw [List.map_cons, heff]
            simp only [effective, Staged.cmd, hcon]
          · rw [List.map_cons, htold]
            simp only [shadowed, List.map_cons, Staged.op, toOp, ← hcon]
          · intro p hp hs
            rcases List.mem_cons.mp hp with rfl | hp
            · exact hrec _ _ _
            · exact hall p hp hs
      | del key =>
          obtain ⟨hs, rec, -, h⟩ | ⟨hs, h⟩ := stage_del_ok h
          · obtain ⟨cmds, more, hcmds, hst, heff, htold, hall⟩ := ih h
            rw [seen_insert] at heff htold
            rw [hfr] at hall
            refine ⟨.del key :: cmds, _ :: more, .cons rfl hcmds, by rw [hst, List.append_assoc]; rfl, ?_, ?_, ?_⟩
            · rw [List.map_cons, heff]
              simp only [effective, hs, if_true, Staged.cmd]
            · rw [List.map_cons, htold]
              simp only [shadowed, hs, if_true, List.map_cons, Staged.op, toOp]
            · intro p hp hsome
              rcases List.mem_cons.mp hp with rfl | hp
              · simp [Staged.entry] at hsome
              · exact hall p hp hsome
          · obtain ⟨cmds, more, hcmds, hst, heff, htold, hall⟩ := ih h
            rw [seen_looked] at heff htold
            rw [hfr] at hall
            refine ⟨.del key :: cmds, more, .cons rfl hcmds, hst, ?_, ?_, hall⟩
            · simp only [heff, effective, hs, Bool.false_eq_true, if_false]
            · simp only [htold, shadowed, hs, Bool.false_eq_true, if_false]

/-- A put that can be encoded once can be encoded again, with other marks. -/
theorem buildPut_again {j : Inner} {key : String} {value : Value} {ex : Int64} {msgpack : Bool} {extra : UInt8}
    {nonce : Draw} {rec raw : Bytes} {entry : Entry}
    (h : buildPut i key value ex msgpack ts extra nonce = .ok (rec, entry, raw)) (hk : j.keys = i.keys)
    (extra' : UInt8) :
    ∃ rec' entry', buildPut j key value ex msgpack ts extra' nonce = .ok (rec', entry', raw) := by
  obtain ⟨hkey, enc, hr, henc, hw, -⟩ := buildPut_ok h
  obtain ⟨rec', hw'⟩ := encodeRecord_again hw key (Compress.pack raw j.compression).1 value.ty.code
    ((Compress.pack raw j.compression).2 ||| extra' ||| enc.flags) ts ex
  have hlen : ¬ maxValueLen < raw.length := Nat.not_lt.mpr hr
  rw [← hk] at hw'
  refine ⟨rec', ?_, ?_⟩
  rotate_left
  · simp only [buildPut, hkey, henc, hlen, hw', bind, Except.bind, if_false]
    rfl

omit [Codec] in
theorem isSome_content (i : Inner) (key : String) (now : Int64) :
    (i.content key now).isSome = (i.at? key now).isSome := by
  simp [Inner.content]

/-- A single operation, after the key was looked for. -/
theorem commit_one {j : Inner} (hj : j.Placed) {p : Staged × Bytes} (hl : Legible j.keys p) (key : String)
    (now : Int64) :
    ((j.dropExpired key now).commit [p]).Placed ∧ ((j.dropExpired key now).commit [p]).keys = j.keys ∧
      ((j.dropExpired key now).commit [p]).closed = j.closed ∧
      ((j.dropExpired key now).commit [p]).seq = j.seq + 1 ∧
      ((j.dropExpired key now).commit [p]).emitted = j.emitted ++ [p.1.op] ∧
      (fun k => ((j.dropExpired key now).commit [p]).content k now) =
        final (Content.alive now) Except.ok (fun k => j.content k now) [p.1.cmd] := by
  have hd := dropExpired_drops j key now
  have hfr := Drop.frame_star hd
  have hk : (j.dropExpired key now).keys = j.keys := by rw [hfr]
  have hp := placed_drops hj hd
  have hall : ∀ q ∈ [p], Legible (j.dropExpired key now).keys q := by simpa [hk] using hl
  have hc := content_commit hp hall now
  refine ⟨placed_commit hp fun q hq => (hall q hq).fits, ?_, ?_, ?_, ?_, ?_⟩
  · rw [Inner.commit_frame, hk]
  · rw [Inner.commit_frame, hfr]
  · rw [Inner.commit_frame, hfr]
    rfl
  · rw [Inner.commit_frame, hfr]
    rfl
  · rw [hc, funext fun k => content_drops hd (Int64.le_refl now) k]
    rfl

/-- What the operations do one after the other, once they could be staged. -/
theorem oneByOne_spec {j : Inner} {cmds : List (Cmd String Content)} (hj : j.Placed) (hkeys : j.keys = i.keys)
    (hle : ∀ k, (j.content k now).isSome = true → seen i st.shadow k now = true)
    (hcl : j.closed = false ∨ st'.staged = []) (h : stage now ts draws n ops st i = .ok st' i')
    (hcmds : List.Forall₂ (fun op c => op.cmd ts = some c) ops cmds) :
    ∃ j', oneByOne now ts draws n ops j = .ok () j' ∧
      (fun k => j'.content k now) = final (Content.alive now) Except.ok (fun k => j.content k now) cmds ∧
      j'.seq = j.seq + (told (Content.alive now) (fun k => (j.content k now).isSome) cmds).length ∧
      j'.emitted = j.emitted ++ (told (Content.alive now) (fun k => (j.content k now).isSome) cmds).map toOp := by
  have hne {l : List (Staged × Bytes)} {p : Staged × Bytes} (hl : st'.staged = []) (hp : l ++ [p] <+: st'.staged) :
      False := by
    rw [hl] at hp
    simp at hp
  induction hcmds generalizing n st i j with
  | nil => exact ⟨j, rfl, rfl, by simp [told], by simp [told]⟩
  | @cons op c ops cmds hc hcmds ih =>
      have hfr (key : String) : (looked i st.shadow key now).keys = i.keys := by
        rw [Drop.frame_star (looked_drops i st.shadow key now)]
      cases op with
      | put key value ex msgpack =>
          obtain ⟨rec, entry, raw, hb, h⟩ := stage_put_ok h
          have hclosed : j.closed = false := hcl.resolve_right fun hn => hne hn (prefix_stage h)
          obtain ⟨rec', entry', hb'⟩ := buildPut_again hb hkeys Role.single.extra
          obtain ⟨enc, henc, hcon, hrec⟩ := buildPut_recorded (show Log.Role.single ≠ .commit by simp) hb'
          obtain rfl : c = .put key ⟨value.ty, raw, enc, ts, ex⟩ := by
            simp only [BatchOp.cmd, henc] at hc
            exact (Option.some.inj hc).symm
          obtain ⟨w, hw⟩ := hrec (DocView.of value) value.ty (j.at? key now).isNone
          obtain ⟨hj₁, hk₁, hc₁, hs₁, he₁, hm₁⟩ := commit_one hj (hw.legible (by simp [Role.Readable])) key now
          have hput := @putLocked_eq _ _ _ _ _ now _ _ _ _ _ _ _ _ _ hb' hclosed
          generalize (j.dropExpired key now).commit
            [(.put key entry' raw (DocView.of value) value.ty (j.at? key now).isNone, rec')] = j₁ at hj₁ hk₁ hc₁ hs₁ he₁ hm₁ hput
          rw [Staged.cmd, hcon] at hm₁
          have hsome : (fun k => (j₁.content k now).isSome) =
              Function.update (fun k => (j.content k now).isSome) key
                (Content.alive now ⟨value.ty, raw, enc, ts, ex⟩) := by
            rw [← isSome_final_put, ← hm₁]
          have hle₁ : ∀ k, (j₁.content k now).isSome = true →
              seen (looked i st.shadow key now) (st.shadow.insert key true) k now = true := by
            have hup := le_update hle key (x := Content.alive now ⟨value.ty, raw, enc, ts, ex⟩) (y := true) fun _ => rfl
            rw [← hsome, ← seen_insert] at hup
            exact hup
          obtain ⟨j', hrun, hcontent, hseq, hemit⟩ := ih hj₁ (hk₁.trans (hkeys.trans (hfr key).symm)) hle₁
            (.inl (hc₁.trans hclosed)) h
          refine ⟨j', bind_ok.mpr ⟨_, j₁, hput, hrun⟩, ?_, ?_, ?_⟩
          · rw [hcontent, hm₁]
            rfl
          · rw [hseq, hsome, hs₁, told, List.length_cons, Nat.add_assoc, Nat.add_comm 1]
          · obtain ⟨-, -, hen, hts, hex⟩ := Content.mk.inj hcon
            rw [hemit, hsome, he₁, told, List.append_assoc, List.map_cons, Staged.op, toOp, hen, hts, hex,
              isSome_content, Option.not_isSome]
            rfl
      | del key =>
          obtain rfl : c = .del key := (Option.some.inj hc).symm
          cases hlive : j.at? key now with
          | none =>
              have hd := dropExpired_drops j key now
              have hsame : (fun k => (j.dropExpired key now).content k now) = fun k => j.content k now :=
                funext fun k => content_drops hd (Int64.le_refl now) k
              have hkey : j.content key now = none := by simp [Inner.content, hlive]
              have hdel := @delete_absent _ _ _ _ (draws n) _ (Clock.still now) hlive
              have hj₁ := placed_drops hj hd
              have hk₁ : (j.dropExpired key now).keys = (looked i st.shadow key now).keys := by
                rw [hfr, ← hkeys, Drop.frame_star hd]
              have hcl₁ : (j.dropExpired key now).closed = false ∨ st'.staged = [] := by
                rw [Drop.frame_star hd]
                exact hcl
              have hle₁ : ∀ k, ((j.dropExpired key now).content k now).isSome = true → k ≠ key ∧
                  seen i st.shadow k now = true := by
                intro k hk
                rw [congrFun hsame k] at hk
                refine ⟨?_, hle k hk⟩
                rintro rfl
                simp [hkey] at hk
              have hrest : ∃ j', oneByOne now ts draws (n + 1) ops (j.dropExpired key now) = .ok () j' ∧
                  (fun k => j'.content k now) = final (Content.alive now) Except.ok
                    (fun k => (j.dropExpired key now).content k now) cmds ∧
                  j'.seq = (j.dropExpired key now).seq + (told (Content.alive now)
                    (fun k => ((j.dropExpired key now).content k now).isSome) cmds).length ∧
                  j'.emitted = (j.dropExpired key now).emitted ++ (told (Content.alive now)
                    (fun k => ((j.dropExpired key now).content k now).isSome) cmds).map toOp := by
                obtain ⟨-, rec, -, h⟩ | ⟨-, h⟩ := stage_del_ok h
                · refine ih hj₁ hk₁ (fun k hk => ?_) hcl₁ h
                  have hseen := congrFun (seen_insert i st.shadow key false now) k
                  rw [hseen, Function.update_of_ne (hle₁ k hk).1]
                  exact (hle₁ k hk).2
                · refine ih hj₁ hk₁ (fun k hk => ?_) hcl₁ h
                  have hseen := congrFun (seen_looked i st.shadow key now) k
                  rw [hseen]
                  exact (hle₁ k hk).2
              obtain ⟨j', hrun, hcontent, hseq, hemit⟩ := hrest
              have hem : (j.dropExpired key now).emitted = j.emitted := by rw [Drop.frame_star hd]
              have hsq : (j.dropExpired key now).seq = j.seq := by rw [Drop.frame_star hd]
              have hsome := funext fun k => congrArg Option.isSome (congrFun hsame k)
              rw [hsame] at hcontent
              rw [hsq, hsome] at hseq
              rw [hem, hsome] at hemit
              refine ⟨j', bind_ok.mpr ⟨_, _, hdel, hrun⟩, ?_, ?_, ?_⟩
              · rw [hcontent, final, ← hkey, Function.update_eq_self]
              · simp only [hseq, told, hkey, Option.isSome_none, Bool.false_eq_true, if_false]
              · simp only [hemit, told, hkey, Option.isSome_none, Bool.false_eq_true, if_false]
          | some e =>
              have hkey : (j.content key now).isSome = true := by rw [isSome_content, hlive]; rfl
              obtain ⟨-, rec, hb, h⟩ | ⟨hs, -⟩ := stage_del_ok h
              · have hclosed : j.closed = false := hcl.resolve_right fun hn => hne hn (prefix_stage h)
                obtain ⟨rec', hb'⟩ := encodeRecord_again hb key [] 0 flagTombstone ((Clock.still now).secs 1) 0
                rw [← hkeys] at hb'
                have hdel : delete key (Clock.still now) (draws n) j =
                    .ok true ((j.dropExpired key now).commit [(.del key, rec')]) :=
                  @delete_eq _ _ _ _ _ _ _ _ (Clock.still now) _ hlive hb' hclosed
                obtain ⟨hj₁, hk₁, hc₁, hs₁, he₁, hm₁⟩ := commit_one hj (p := (.del key, rec')) trivial key now
                have hsome := isSome_final_del (Content.alive now) Except.ok (fun k => j.content k now) key
                generalize (j.dropExpired key now).commit [(.del key, rec')] = j₁ at hj₁ hk₁ hc₁ hs₁ he₁ hm₁ hdel
                rw [Staged.cmd] at hm₁
                rw [← hm₁] at hsome
                have hle₁ : ∀ k, (j₁.content k now).isSome = true →
                    seen (looked i st.shadow key now) (st.shadow.insert key false) k now = true := by
                  have hup := le_update hle key (x := false) (y := false) id
                  rw [← hsome, ← seen_insert] at hup
                  exact hup
                obtain ⟨j', hrun, hcontent, hseq, hemit⟩ := ih hj₁ (hk₁.trans (hkeys.trans (hfr key).symm)) hle₁
                  (.inl (hc₁.trans hclosed)) h
                refine ⟨j', bind_ok.mpr ⟨_, j₁, hdel, hrun⟩, ?_, ?_, ?_⟩
                · rw [hcontent, hm₁]
                  rfl
                · simp only [hseq, hsome, hs₁, told, hkey, if_true, List.length_cons]
                  omega
                · simp only [hemit, hsome, he₁, told, hkey, if_true, List.append_assoc]
                  rfl
              · simp [hle key hkey] at hs

omit [External] [Chrono] [Vectors] [Codec] in
theorem docEnc_commit (e : Entry) : ({ e with flags := e.flags ||| flagTxnCommit } : Entry).docEnc = e.docEnc := by
  have hk : hasFlag flagTxnCommit flagKdoc = false := by decide
  have hm : hasFlag flagTxnCommit flagMsgpack = false := by decide
  simp [Entry.docEnc, DocEnc.fromFlags, hk, hm]

omit [External] [Vectors] [Codec] in
theorem cmd_markCommit (s : Staged) : s.markCommit.cmd = s.cmd := by
  cases s with
  | put key e raw doc ty created => simp only [Staged.markCommit, Staged.cmd, docEnc_commit]
  | del key => rfl

omit [External] [Vectors] [Codec] in
theorem op_markCommit (s : Staged) : s.markCommit.op = s.op := by
  cases s with
  | put key e raw doc ty created => simp only [Staged.markCommit, Staged.op, docEnc_commit]
  | del key => rfl

omit [Vectors] [Codec] in
theorem map_commitLast {α : Type} {f : Staged → α} (hf : ∀ s, f s.markCommit = f s) (ps : List (Staged × Bytes)) :
    (commitLast ps).map (fun p => f p.1) = ps.map fun p => f p.1 := by
  rcases List.eq_nil_or_concat ps with rfl | ⟨qs, q, rfl⟩
  · rfl
  · rw [List.concat_eq_append, commitLast_concat]
    simp [hf]

omit [Codec] in
/-- The record of the last put of an encrypted batch cannot be read. -/
theorem readRaw_sealed {k : Keys} {w : Write} {p : Staged × Bytes} {key : String} {e : Entry} {pre post : Bytes}
    (hk : i.keys = some k) (hw : Recorded (some k) w .commit p) (he : p.1.entry = some e)
    (hf : i.file = pre ++ (p.2 ++ post)) : ∃ err, i.readRaw key { e with offset := pre.length } = .error err := by
  have hlen : e.recLen = p.2.length := by
    obtain ⟨-, hl, -⟩ := Write.entry_content (hw.entry.symm.trans he)
    rw [hl, hw.written.length_eq]
  have hat := Inner.readAt_append (i := i) hf
  rw [← hlen] at hat
  have hat' : i.readAt ({ e with offset := pre.length } : Entry).offset
      ({ e with offset := pre.length } : Entry).recLen = some p.2 := hat
  have ho := hw.written.openRecord_commit (canOpen_self (some k))
  rw [← hk] at ho
  refine ⟨OpenError.tampered.intoError s!"the record of '{key}'", ?_⟩
  simp only [Inner.readRaw, Inner.readRecord, hat', hw.written.verify, if_true, ho, bind, Except.bind]

/-- The last operation of `cmds` is not a put whose value is still there. -/
def EndsUnread (now : Int64) (cmds : List (Cmd String Content)) : Prop :=
  ∀ k c, cmds.getLast? = some (.put k c) → Content.alive now c = false

/-- What keys hold once the last record of an encrypted batch is a put. -/
theorem content_commit_sealed (hi : i.Placed) {k : Keys} (hk : i.keys = some k) {qs : List (Staged × Bytes)}
    (hqs : ∀ p ∈ qs, Legible i.keys p) {w : Write} {r : Staged × Bytes} (hr : Recorded (some k) w .commit r)
    {key : String} {c : Content} (hc : r.1.cmd = .put key c) (now : Int64) :
    (fun j => (i.commit (qs ++ [r])).content j now) =
        final (Content.alive now) Except.ok (fun j => i.content j now) (qs.map (·.1.cmd) ++ [.put key c]) ↔
      Content.alive now c = false := by
  obtain ⟨s, rec⟩ := r
  cases s with
  | del key' => simp [Staged.cmd] at hc
  | put key' e raw doc ty created =>
      obtain ⟨rfl, rfl⟩ := Cmd.put.inj hc
      set buf := (qs ++ [(Staged.put key' e raw doc ty created, rec)]).flatMap Prod.snd with hbuf
      have hbuf' : buf = qs.flatMap Prod.snd ++ rec := by simp [hbuf]
      set pre := (i.raiseFormat (formatNeeded buf)).file with hpre
      have hfile : (i.extend buf).file = pre ++ (qs.flatMap Prod.snd ++ rec) := by
        rw [Inner.file_extend, ← hbuf']
      have hm := content_applyAllStaged qs (by rw [Inner.keys_extend]; exact hqs) hfile now
      set j := (i.extend buf).applyAllStaged pre.length qs with hj
      have hcommit : i.commit (qs ++ [(.put key' e raw doc ty created, rec)]) =
          j.applyStaged (pre ++ qs.flatMap Prod.snd).length (.put key' e raw doc ty created) := by
        rw [Inner.commit, Inner.applyAllStaged_append, List.length_append]
        rfl
      have hjf : j.file = pre ++ qs.flatMap Prod.snd ++ (rec ++ []) := by
        rw [hj, Inner.applyAllStaged_frame, List.append_nil, List.append_assoc]
        exact hfile
      have hjk : j.keys = some k := by
        rw [hj, Inner.applyAllStaged_frame, ← hk]
        exact Inner.keys_extend i buf
      obtain ⟨err, herr⟩ := @readRaw_sealed _ _ _ _ _ _ _ key' _ _ _ hjk hr rfl hjf
      have hself := content_applyStaged_put j (pre ++ qs.flatMap Prod.snd).length key' e raw doc ty created now
      rw [herr] at hself
      have ha : Content.alive now ⟨e.ty, raw, e.docEnc, e.timestamp, e.expiresAt⟩ = !e.isExpired now := rfl
      have hbase : final (Content.alive now) Except.ok (fun j => i.content j now) (qs.map (·.1.cmd)) =
          fun k => j.content k now := by
        rw [hm]
        congr 1
        exact (funext fun k => Inner.content_extend hi buf k now).symm
      rw [hcommit, final_append, hbase, ha]
      cases hx : e.isExpired now with
      | false =>
          refine iff_of_false (fun heq => ?_) (by simp)
          have hkey := congrFun heq key'
          rw [hself] at hkey
          simp [hx, final, ha, Except.map] at hkey
      | true =>
          refine iff_of_true ?_ (by simp)
          funext x
          by_cases hxk : x = key'
          · subst hxk
            rw [hself]
            simp [hx, final, ha]
          · rw [content_applyStaged_ne j _ _ (Ne.symm hxk)]
            simp [final, Function.update_of_ne hxk]

/-- What keys hold after the records of a batch are committed: what its
operations say, except for what the commit record of an encrypted batch
hides. -/
theorem content_batch (hi : i.Placed) {ps : List (Staged × Bytes)} (hne : ps ≠ [])
    (hps : ∀ p ∈ ps, p.1.entry.isSome → ∃ w, Recorded i.keys w .member p) (now : Int64) :
    (fun k => (i.commit (commitLast ps)).content k now) =
        final (Content.alive now) Except.ok (fun k => i.content k now) (ps.map (·.1.cmd)) ↔
      i.keys = none ∨ EndsUnread now (ps.map (·.1.cmd)) := by
  obtain ⟨qs, q, rfl⟩ := List.eq_nil_or_concat ps |>.resolve_left hne
  rw [List.concat_eq_append] at hps ⊢
  have hcmds := map_commitLast cmd_markCommit (qs ++ [q])
  rw [commitLast_concat] at hcmds ⊢
  have hlegible {p : Staged × Bytes} (hp : p ∈ qs) : Legible i.keys p := by
    cases hs : p.1 with
    | del key => simp [Legible, hs]
    | put key e raw doc ty created =>
        obtain ⟨w, hw⟩ := hps p (List.mem_append_left _ hp) (by simp [hs, Staged.entry])
        exact hw.legible (by simp [Role.Readable])
  have hall (hlast : Legible i.keys (q.1.markCommit, stampCommit q.2)) :
      (fun k => (i.commit (qs ++ [(q.1.markCommit, stampCommit q.2)])).content k now) =
        final (Content.alive now) Except.ok (fun k => i.content k now) ((qs ++ [q]).map (·.1.cmd)) := by
    rw [← hcmds]
    refine content_commit hi (fun p hp => ?_) now
    rcases List.mem_append.mp hp with hp | hp
    · exact hlegible hp
    · rw [List.mem_singleton.mp hp]
      exact hlast
  cases hs : q.1 with
  | del key =>
      refine iff_of_true (hs ▸ hall (by simp [Legible, hs, Staged.markCommit])) (.inr ?_)
      simp [EndsUnread, hs, Staged.cmd]
  | put key e raw doc ty created =>
      obtain ⟨w, hw⟩ := hps q (List.mem_append_right _ List.mem_cons_self) (by simp [hs, Staged.entry])
      cases hk : i.keys with
      | none =>
          refine iff_of_true (hs ▸ hall ?_) (.inl rfl)
          exact hw.commit.legible fun _ => hk
      | some k =>
          rw [hk] at hw
          have hc : (q.1.markCommit, stampCommit q.2).1.cmd =
              .put key ⟨e.ty, raw, e.docEnc, e.timestamp, e.expiresAt⟩ := by
            rw [cmd_markCommit, hs]
            rfl
          have hsealed := content_commit_sealed hi hk (fun p hp => hlegible hp) hw.commit hc now
          rw [hs] at hsealed
          rw [List.map_append, List.map_cons, List.map_nil, hs, Staged.cmd, hsealed]
          simp [EndsUnread]

theorem applyBatchWatched_drops {beginSeq : Option Nat} {watched : Option (List WatchedKey)} {clock : Clock}
    {e : KivaError} (h : applyBatchWatched ops beginSeq watched clock draws i = .error e i') :
    ReflTransGen (Drop (clock.now 2)) i i' := by
  rw [applyBatchWatched_error h]
  exact within_stageBatch ops beginSeq watched clock draws i

omit [Codec] in
theorem seen_empty (i : Inner) (now : Int64) : (seen i ∅ · now) = fun k => (i.content k now).isSome := by
  funext k
  simp [seen, isSome_content]

/-- A batch against its operations one after the other. Refused, it changes
nothing but keys whose TTL had elapsed. Committed, it leaves the same values and
tells the same, exactly when no put of it is already expired while another
operation on its key follows, and the last record is not one that encryption
hides. -/
theorem batch_is_sequential_iff (hi : i.Placed) (ops : List BatchOp) (beginSeq : Option Nat)
    (watched : Option (List WatchedKey)) (clock : Clock) (draws : Nat → Draw) :
    (∀ e i', applyBatchWatched ops beginSeq watched clock draws i = .error e i' →
      ReflTransGen (Drop (clock.now 2)) i i') ∧
    ∀ i', applyBatchWatched ops beginSeq watched clock draws i = .ok () i' →
      ∃ ops' i₁ cmds i'', checkBatch ops beginSeq watched clock i = .ok ops' i₁ ∧
        List.Forall₂ (fun op c => op.cmd (clock.secs 0) = some c) ops' cmds ∧
        oneByOne (clock.now 0) (clock.secs 0) draws 0 ops' i₁ = .ok () i'' ∧
        ((∀ k, i'.content k (clock.now 0) = i''.content k (clock.now 0)) ∧ i'.emitted = i''.emitted ∧
            i'.seq = i''.seq ↔
          stale (Content.alive (clock.now 0)) cmds = false ∧
            (i.keys = none ∨
              EndsUnread (clock.now 0) (effective (fun k => (i₁.content k (clock.now 0)).isSome) cmds))) := by
  refine ⟨fun e i' h => applyBatchWatched_drops h, fun i' h => ?_⟩
  set now := clock.now 0 with hnow
  obtain ⟨recs, i₂, hsb, hi'⟩ := applyBatchWatched_ok h
  obtain ⟨ops', i₁, st, hc, hst, rfl⟩ := stageBatch_ok hsb
  have hd₁ := (within_checkBatch ops beginSeq watched clock).ok hc
  have hd₂ := Within.ok (.stage (fun op _ => within_live op.key _) _ draws 0 _) hst
  have hp₁ := placed_drops hi hd₁
  have hp₂ := placed_drops hp₁ hd₂
  have hf₁ := Drop.frame_star hd₁
  have hf₂ := Drop.frame_star hd₂
  obtain ⟨cmds, more, hcmds, hmore, heff, htold, hrec⟩ := stage_spec hst
  rw [List.nil_append] at hmore
  have hk₂ : i₂.keys = i.keys := by rw [hf₂, hf₁]
  have hcl : i₁.closed = false ∨ st.staged = [] := by
    rcases hi' with ⟨hn, -⟩ | ⟨-, hcl, -⟩
    · exact .inr (commitLast_eq_nil.mp hn)
    · rw [hf₂] at hcl
      exact .inl hcl
  obtain ⟨i'', hrun, hcon, hseq, hemit⟩ := oneByOne_spec hp₁ rfl (fun k hk => by
    rw [← hk]
    exact congrFun (seen_empty i₁ now) k) hcl hst hcmds
  refine ⟨ops', i₁, cmds, i'', hc, hcmds, hrun, ?_⟩
  rw [seen_empty] at heff htold
  set e := fun k => (i₁.content k now).isSome with he
  have hem : i'.emitted = i₂.emitted ++ more.map (·.1.op) ∧ i'.seq = i₂.seq + more.length := by
    rcases hi' with ⟨hn, rfl⟩ | ⟨-, -, rfl⟩
    · rw [← hmore, commitLast_eq_nil.mp hn]
      simp
    · have hops := map_commitLast op_markCommit st.staged
      have hlen := congrArg List.length hops
      rw [List.length_map, List.length_map] at hlen
      rw [Inner.commit_frame, hops, hlen, hmore]
      exact ⟨rfl, rfl⟩
  have he₂ : i₂.emitted = i₁.emitted ∧ i₂.seq = i₁.seq := by
    rw [hf₂]
    exact ⟨rfl, rfl⟩
  have hlen : more.length = (shadowed e cmds).length := by
    have := congrArg List.length htold
    rwa [List.length_map, List.length_map] at this
  have htrace : i'.emitted = i''.emitted ∧ i'.seq = i''.seq ↔ stale (Content.alive now) cmds = false := by
    rw [hem.1, hem.2, hemit, hseq, he₂.1, he₂.2, htold, hlen, List.append_cancel_left_eq, Nat.add_left_cancel_iff,
      List.map_inj_right fun _ _ h => toOp_injective h, ← shadowed_eq_told_iff e cmds]
    exact and_iff_left_of_imp fun h => by rw [h]
  have hvalues : (∀ k, i'.content k now = i''.content k now) ↔
      i.keys = none ∨ EndsUnread now (effective e cmds) := by
    have hcon₂ : (fun k => i₂.content k now) = fun k => i₁.content k now :=
      funext fun k => content_drops hd₂ (Int64.le_refl now) k
    have hsame : final (Content.alive now) Except.ok (fun k => i₂.content k now) (more.map (·.1.cmd)) =
        fun k => i''.content k now := by
      rw [hcon, heff, hcon₂, final_effective _ _ _ fun k hk => hk]
    rw [← funext_iff (f := fun k => i'.content k now), ← hsame, ← hk₂, ← heff]
    rcases hi' with ⟨hn, rfl⟩ | ⟨hn, -, rfl⟩
    · have hnil : more = [] := hmore ▸ commitLast_eq_nil.mp hn
      refine iff_of_true ?_ (.inr ?_)
      · rw [hnil]
        rfl
      · simp [hnil, EndsUnread]
    · have hne : st.staged ≠ [] := fun h => hn (commitLast_eq_nil.mpr h)
      rw [← hmore]
      refine content_batch hp₂ hne (fun p hp hs => ?_) now
      rw [hf₂]
      exact hrec p (hmore ▸ hp) hs
  rw [hvalues, htrace, and_comm]

end

section

open Reference

local instance wordCodec : Codec := codec []

/-- A value put with a deadline that has passed, then another under its key. -/
def lateBatch : List BatchOp := [.put "a" (.str "x") 1 false, .put "a" (.str "y") 0 false]

def noDraws : Nat → Draw := fun _ => .error "none asked for"

theorem placed_fresh (keys : Option Keys) : (fresh keys).Placed where
  header := by simp [fresh, length_fileHeader]
  entries := by
    intro k e he
    simp [fresh, Inner.index, Table.empty] at he

theorem lateBatch_accepted :
    applyBatchWatched lateBatch none none (Clock.still 1000) noDraws (fresh none) =
      .ok () (left (applyBatchWatched lateBatch none none (Clock.still 1000) noDraws) (fresh none)) := by
  apply ok_of_succeeds
  decide

theorem batch_is_sequential_iff_sample : ∃ ops' i₁ cmds i'',
    checkBatch lateBatch none none (Clock.still 1000) (fresh none) = .ok ops' i₁ ∧
      List.Forall₂ (fun op c => op.cmd 1 = some c) ops' cmds ∧
      oneByOne 1000 1 noDraws 0 ops' i₁ = .ok () i'' := by
  obtain ⟨ops', i₁, cmds, i'', hc, hcmds, hrun, -⟩ :=
    (batch_is_sequential_iff (placed_fresh none) lateBatch none none (Clock.still 1000) noDraws).2 _ lateBatch_accepted
  exact ⟨ops', i₁, cmds, i'', hc, hcmds, hrun⟩

/-- The second put of `lateBatch` creates the key: the first was expired at
once. Only the batch says that it does not. -/
theorem late_batch_is_told_otherwise :
    applyBatchWatched lateBatch none none (Clock.still 1000) noDraws (fresh none) =
        .ok () (left (applyBatchWatched lateBatch none none (Clock.still 1000) noDraws) (fresh none)) ∧
      (left (applyBatchWatched lateBatch none none (Clock.still 1000) noDraws) (fresh none)).emitted =
        [.set "a" .string [0x78] .json 1 1 true, .set "a" .string [0x79] .json 1 0 false] ∧
      oneByOne 1000 1 noDraws 0 lateBatch (fresh none) =
        .ok () (left (oneByOne 1000 1 noDraws 0 lateBatch) (fresh none)) ∧
      (left (oneByOne 1000 1 noDraws 0 lateBatch) (fresh none)).emitted =
        [.set "a" .string [0x78] .json 1 1 true, .set "a" .string [0x79] .json 1 0 true] :=
  ⟨lateBatch_accepted, by decide, ok_of_succeeds (by decide), by decide⟩

end

end KivaDb
