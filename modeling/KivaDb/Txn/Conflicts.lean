import KivaDb.Txn.Copies
import KivaDb.Txn.Refusals
import KivaDb.Damage
import KivaDb.Engine.Libraries
import KivaDb.Engine.Moves

namespace KivaDb

open Lib.LittleEndian Lib.Fallible Crypt Relation

section

variable [External] [Chrono] [Vectors]

/-- What looking at the keys of a watch comes to. -/
theorem watchAll_ok {keys : List String} {now : Int64} {since : Nat} {i i' : Inner} {ws : List WatchedKey}
    (h : watchAll now since keys i = .ok ws i') :
    ∀ w ∈ ws, w.since = since ∧ (w.existed = true → ∃ e, i'.index[w.key]? = some e) := by
  induction keys generalizing i ws with
  | nil =>
      obtain ⟨rfl, rfl⟩ := pure_ok.mp h
      simp
  | cons k ks ih =>
      obtain ⟨e, j, hl, h⟩ := bind_ok.mp h
      obtain ⟨rfl, rfl⟩ := EStateM.Result.ok.inj ((live_eq k now i).symm.trans hl)
      obtain ⟨rest, j', hr, h⟩ := bind_ok.mp h
      obtain ⟨rfl, rfl⟩ := pure_ok.mp h
      refine List.forall_mem_cons.mpr ⟨⟨rfl, fun hex => ?_⟩, ih hr⟩
      -- a key that was live at `now` is not dropped by looking at the others
      have hd := DropOf.drop_star ((looks_watchAll (K := fun _ => True) (fun _ _ => trivial) now since).ok hr)
      have hat : j'.at? k now = i.at? k now := by
        rw [Drop.at?_star hd (Int64.le_refl now), Drop.at?_star (dropExpired_drops i k now) (Int64.le_refl now)]
      obtain ⟨e, he⟩ := Option.isSome_iff_exists.mp hex
      rw [← hat] at he
      exact ⟨e, (Option.filter_eq_some_iff.mp he).1⟩

theorem watch_ok {keys : List String} {now : Int64} {i i' : Inner} {ws : List WatchedKey}
    (h : watch keys now i = .ok ws i') :
    ReflTransGen (DropOf (· ∈ keys) now) { i with activeTxns := i.activeTxns + 1 } i' ∧
      ∀ w ∈ ws, w.since = i'.seq ∧ (w.existed = true → ∃ e, i'.index[w.key]? = some e) := by
  obtain ⟨_, j, hm, h⟩ := bind_ok.mp h
  obtain rfl := modify_ok.mp hm
  obtain ⟨j, _, hg, h⟩ := bind_ok.mp h
  obtain ⟨rfl, rfl⟩ := get_ok.mp hg
  have hd := (looks_watchAll (K := (· ∈ keys)) (fun _ hk => hk) now _).ok h
  refine ⟨hd, fun w hw => ?_⟩
  rw [DropOf.frame_star hd]
  exact watchAll_ok h w hw

end

namespace Txn

section

variable [External] [Chrono] [Codec] [Vectors]

/-- What holds as long as nothing that is open is made to miss a change. -/
structure Inv (s : State) : Prop where
  dated : s.inner.Dated
  active : s.inner.activeTxns = s.opens.length
  traces : ∀ m ∈ s.marks, Traces s.latest s.inner m
  copies : ∀ c ∈ s.copying, Copies s.inner c

variable {s s' : State}

omit [Codec] in
theorem State.latest_le (s : State) (t : Int64) (i : Inner) : s.latest ≤ (s.after t i).latest := by
  unfold State.after
  dsimp only
  split
  · assumption
  · exact Int64.le_refl _

omit [Codec] in
theorem State.le_latest (s : State) (t : Int64) (i : Inner) : t ≤ (s.after t i).latest := by
  unfold State.after
  dsimp only
  split
  · exact Int64.le_refl _
  · rename_i h
    exact (Int64.le_total s.latest t).resolve_left h

omit [Codec] in
theorem Inv.active_pos (h : Inv s) {m : Mark} (hm : m ∈ s.marks) : 0 < s.inner.activeTxns := by
  rw [h.active]
  obtain ⟨ms, hms, -⟩ := List.mem_flatten.mp hm
  exact List.length_pos_of_mem hms

omit [Codec] in
theorem Inv.drops (h : Inv s) {K : String → Prop} {t : Int64} {j : Inner}
    (hd : ReflTransGen (DropOf K t) s.inner j) (hK : ∀ k, K k → s.Spares t k) : Inv (s.after t j) where
  dated := h.dated.drops hd
  active := by
    have hfr := DropOf.frame_star hd
    exact (congrArg Inner.activeTxns hfr).trans h.active
  traces m hm := (h.traces m hm).drops (State.latest_le s t j) (State.le_latest s t j) hd
    fun k hk e he hx hb => hK k hk e he hx m hm hb
  copies c hc := (h.copies c hc).drops hd

theorem Inv.commit (h : Inv s) (recs : List (Staged × Bytes)) : Inv { s with inner := s.inner.commit recs } where
  dated := h.dated.commit recs
  active := by
    have hfr := Inner.commit_frame s.inner recs
    exact (congrArg Inner.activeTxns hfr).trans h.active
  traces m hm := (h.traces m hm).commit (h.active_pos hm) recs
  copies c hc := (h.copies c hc).commit recs

/-- A call on the engine. -/
theorem Inv.acts {α : Type} (h : Inv s) {K : String → Prop} {t : Int64} {m : M α} (ha : Acts K t m)
    (hK : ∀ k, K k → s.Spares t k) : Inv (s.after t (left m s.inner)) := by
  obtain ⟨j, hd, hj | ⟨recs, hj⟩⟩ := ha s.inner
  · rw [hj]
    exact h.drops hd hK
  · rw [hj]
    exact (h.drops hd hK).commit recs

omit [Codec] in
theorem State.SparesAll.spares {t : Int64} (h : s.SparesAll t) (k : String) : s.Spares t k := by
  intro e he
  exact h (k, e) (Std.ExtTreeMap.mem_toList_iff_getElem?_eq_some.mpr he) e he

omit [Codec] in
theorem Inv.purges (h : Inv s) {t : Int64} {j : Inner} (hd : ReflTransGen (Drop t) s.inner j) (hs : s.SparesAll t) :
    Inv (s.after t j) := by
  refine h.drops (K := fun _ => True) ?_ fun k _ => hs.spares k
  refine ReflTransGen.mono (fun a b hab => ?_) _ _ hd
  obtain ⟨he, hx⟩ := hab
  exact .key trivial he hx

omit [Codec] in
/-- A step that changes nothing that is known of the keys. -/
theorem Inv.frame (h : Inv s) {i : Inner} {opens : List (List Mark)} (hix : i.index = s.inner.index)
    (htomb : i.tombVersions = s.inner.tombVersions) (hreset : i.resetSeq = s.inner.resetSeq)
    (hseq : i.seq = s.inner.seq) (hem : i.emitted = s.inner.emitted) (hact : i.activeTxns = opens.length)
    (hop : ∀ m ∈ opens.flatten, m ∈ s.marks ∨ Traces s.latest i m)
    (hcop : ∀ c ∈ s.copying, Copies i c) : Inv { s with inner := i, opens } where
  dated := h.dated.congr hix htomb hreset hseq
  active := hact
  traces m hm := by
    rcases hop m hm with hold | hnew
    · exact (h.traces m hold).congr (Int64.le_refl _) hix htomb hreset hseq hem
    · exact hnew
  copies := hcop

omit [Codec] in
/-- What is open goes on without one of them. -/
theorem Inv.txnEnd (h : Inv s) {opens : List (List Mark)} (hlen : opens.length + 1 = s.opens.length)
    (hop : ∀ m ∈ opens.flatten, m ∈ s.marks) : Inv { s with inner := s.inner.txnEnd, opens } := by
  have hact := h.active
  unfold Inner.txnEnd
  split
  · rename_i hz
    have hnil : opens = [] := List.eq_nil_of_length_eq_zero (by omega)
    subst hnil
    refine ⟨?_, rfl, by simp [State.marks], fun c hc => (h.copies c hc).frame rfl rfl (Nat.le_refl _)⟩
    refine { h.dated with tomb := fun k v hv => ?_ }
    rw [Std.ExtTreeMap.getElem?_empty] at hv
    exact absurd hv (by simp)
  · refine h.frame rfl rfl rfl rfl rfl ?_ (fun m hm => .inl (hop m hm)) fun c hc =>
      (h.copies c hc).frame rfl rfl (Nat.le_refl _)
    show s.inner.activeTxns - 1 = opens.length
    omega

omit [Codec] in
theorem Inv.txnBegin (h : Inv s) : Inv { s with
    inner := left KivaDb.txnBegin s.inner, opens := s.opens ++ [[⟨left KivaDb.txnBegin s.inner, none⟩]] } := by
  have hi : (left KivaDb.txnBegin s.inner).Dated := h.dated.congr rfl rfl rfl rfl
  refine h.frame rfl rfl rfl rfl rfl ?_ (fun m hm => ?_) fun c hc => (h.copies c hc).frame rfl rfl (Nat.le_refl _)
  · rw [List.length_append, ← h.active]
    rfl
  · rw [List.flatten_append, List.mem_append] at hm
    rcases hm with hm | hm
    · exact .inl hm
    · obtain rfl : m = ⟨left KivaDb.txnBegin s.inner, none⟩ := by simpa using hm
      exact .inr (.fresh hi (by simp) (by simp))

omit [Codec] in
theorem Inv.watch (h : Inv s) {keys : List String} {now : Int64} {ws : List WatchedKey} {i : Inner}
    (hw : KivaDb.watch keys now s.inner = .ok ws i) (hK : ∀ k ∈ keys, s.Spares now k) :
    Inv { s.after now i with opens := s.opens ++ [ws.map fun w => ⟨i, some w⟩] } := by
  obtain ⟨hd, hws⟩ := watch_ok hw
  have hfr := DropOf.frame_star hd
  have hopen : ({ s.inner with activeTxns := s.inner.activeTxns + 1 } : Inner).Dated :=
    h.dated.congr rfl rfl rfl rfl
  have hi : i.Dated := hopen.drops hd
  refine ⟨hi, ?_, fun m hm => ?_, fun c hc => ?_⟩
  · rw [List.length_append, ← h.active]
    exact congrArg Inner.activeTxns hfr
  · rw [State.marks, List.flatten_append, List.mem_append] at hm
    rcases hm with hm | hm
    · refine Traces.drops (i := { s.inner with activeTxns := s.inner.activeTxns + 1 }) ?_ (State.latest_le s now i)
        (State.le_latest s now i) hd fun k hk e he hx hb => hK k hk e he hx m hm hb
      exact (h.traces m hm).congr (Int64.le_refl _) rfl rfl rfl rfl rfl
    · obtain ⟨w, hw, rfl⟩ : ∃ w ∈ ws, (⟨i, some w⟩ : Mark) = m := by simpa using hm
      refine .fresh hi (fun w' hw' => ?_) fun w' hw' => ?_
      · obtain rfl := Option.some.inj hw'
        exact (hws w hw).1
      · obtain rfl := Option.some.inj hw'
        exact (hws w hw).2
  · have hframe : Copies { s.inner with activeTxns := s.inner.activeTxns + 1 } c :=
      (h.copies c hc).frame rfl rfl (Nat.le_refl _)
    exact hframe.drops hd

theorem Inv.check (h : Inv s) {repair : Bool} {copied : Except String Unit} {clock : Clock} {draws : Nat → Draw}
    (hs : s.SparesAll (clock.now 0))
    (hr : repair = true → ∀ k ∈ (left (purgeAllExpired (clock.now 0)) s.inner).corruptedKeys, ∀ m ∈ s.marks,
      m.blind k = false) : Inv (s.after (clock.now 0) (left (KivaDb.check repair copied clock draws) s.inner)) := by
  have hp := h.purges (within_purgeAllExpired (clock.now 0) s.inner) hs
  rcases check_left repair copied clock draws s.inner with hl | ⟨hrep, hl⟩
  · rw [hl]
    exact hp
  · rw [hl]
    refine repairAll_keeps (P := fun i => Inv (s.after (clock.now 0) i)) (fun j k rec hk hj => ?_) hp
    have hext : (j.extend rec).index = j.index ∧ (j.extend rec).tombVersions = j.tombVersions ∧
        (j.extend rec).resetSeq = j.resetSeq ∧ (j.extend rec).seq = j.seq ∧ (j.extend rec).emitted = j.emitted ∧
        (j.extend rec).activeTxns = j.activeTxns := by
      rw [Inner.extend, Inner.raiseFormat_eq]
      exact ⟨rfl, rfl, rfl, rfl, rfl, rfl⟩
    obtain ⟨hix, htomb, hreset, hseq, hem, hact⟩ := hext
    refine ⟨(hj.dated.congr hix htomb hreset hseq).repaired k, ?_, fun m hm => ?_, fun c hc => ?_⟩
    · have hfr := Inner.idxRemove_frame { j.extend rec with seq := (j.extend rec).seq + 1 } k
      exact ((congrArg Inner.activeTxns hfr).trans hact).trans hj.active
    · exact ((hj.traces m hm).congr (Int64.le_refl _) hix htomb hreset hseq hem).repaired (hr hrep k hk m hm)
    · exact (hj.copies c hc).repaired rec k

omit [Codec] in
theorem Inv.reset (h : Inv s) (fileId : Except String UInt64) :
    Inv { s with inner := left (KivaDb.reset fileId) s.inner } := by
  rcases reset_left fileId s.inner with hl | ⟨hrun, id, hl⟩
  · rw [hl]
    exact h
  · rw [hl]
    refine ⟨.wiped s.inner id, h.active, fun m hm => (h.traces m hm).wiped id h.dated, fun c hc => ?_⟩
    have hr := (h.copies c hc).running
    rw [hrun] at hr
    exact absurd hr (by simp)

omit [Codec] in
theorem Inv.swap (h : Inv s) {c : Copying} (hc : s.copying = some c) (written : Except String Unit)
    (hb : ∀ k ∈ c.lost s.inner.index, s.Bears k) :
    Inv { s with inner := left (KivaDb.swap c written) s.inner, copying := none } := by
  rcases swap_left c written s.inner with hl | hl
  · rw [hl]
    exact ⟨h.dated.congr rfl rfl rfl rfl, h.active,
      fun m hm => (h.traces m hm).congr (Int64.le_refl _) rfl rfl rfl rfl rfl, by simp⟩
  · rw [hl]
    have hcop := h.copies c hc
    obtain ⟨-, -, -, -, hact⟩ := replaced_frame s.inner c
    refine ⟨dated_replaced h.dated hcop, hact.trans h.active, fun m hm => ?_, by simp⟩
    exact (h.traces m hm).replaced hcop fun k hk e he => hb k hk e he m hm

theorem Inv.freeze (h : Inv s) {recompress : Option Compression} {newId : Except String UInt64} {now : Int64}
    (hs : s.SparesAll now) (hstep : s.step (.freeze recompress newId now) = some s') : Inv s' := by
  rw [State.step] at hstep
  split at hstep
  · rename_i c i hf
    obtain rfl := Option.some.inj hstep
    obtain ⟨-, hcop, j, comp, hd, rfl⟩ := freeze_ok hf
    have hp := h.purges hd hs
    refine ⟨hp.dated.congr rfl rfl rfl rfl, hp.active,
      fun m hm => (hp.traces m hm).congr (Int64.le_refl _) rfl rfl rfl rfl rfl, fun c' hc' => ?_⟩
    obtain rfl := Option.some.inj hc'
    exact hcop
  · rename_i e i hf
    obtain rfl := Option.some.inj hstep
    obtain ⟨j, comp, hd, rfl⟩ := freeze_error hf
    have hp := h.purges hd hs
    exact ⟨hp.dated.congr rfl rfl rfl rfl, hp.active,
      fun m hm => (hp.traces m hm).congr (Int64.le_refl _) rfl rfl rfl rfl rfl,
      fun c hc => (hp.copies c hc).frame rfl rfl (Nat.le_refl _)⟩

theorem Inv.copy (h : Inv s) {nonce : Draw} (hstep : s.step (.copy nonce) = some s') : Inv s' := by
  obtain ⟨c, hc, hstep⟩ := Option.bind_eq_some_iff.mp hstep
  split at hstep
  · rename_i c' hn
    obtain rfl := Option.some.inj hstep
    refine { h with copies := fun d hd => ?_ }
    obtain rfl := Option.some.inj hd
    exact (h.copies c hc).next hn
  · obtain rfl := Option.some.inj hstep
    exact ⟨h.dated.congr rfl rfl rfl rfl, h.active,
      fun m hm => (h.traces m hm).congr (Int64.le_refl _) rfl rfl rfl rfl rfl, by simp⟩

omit [Codec] in
theorem Inv.rot (h : Inv s) {file : Bytes} (hlen : file.length = s.inner.file.length) :
    Inv { s with inner := { s.inner with file := file } } :=
  ⟨h.dated.congr rfl rfl rfl rfl, h.active,
    fun m hm => (h.traces m hm).congr (Int64.le_refl _) rfl rfl rfl rfl rfl,
    fun c hc => (h.copies c hc).frame rfl rfl hlen.ge⟩

/-- A step that makes nothing open miss a change keeps the invariant. -/
theorem Inv.step (h : Inv s) {e : Event} (hc : s.Clean e) (hs : s.step e = some s') : Inv s' := by
  cases e with
  | txnBegin =>
      obtain rfl := Option.some.inj hs
      exact h.txnBegin
  | watch keys now =>
      rw [State.step] at hs
      split at hs
      · rename_i ws i hw
        obtain rfl := Option.some.inj hs
        exact h.watch hw hc
      · simp at hs
  | watchMore m n =>
      obtain ⟨kept, hm, hs⟩ := Option.bind_eq_some_iff.mp hs
      obtain ⟨more, hn, hs⟩ := Option.bind_eq_some_iff.mp hs
      split at hs
      · simp at hs
      · obtain rfl := Option.some.inj hs
        have hlt : n < s.opens.length := (List.getElem?_eq_some_iff.mp hn).1
        refine h.txnEnd ?_ fun x hx => ?_
        · rw [List.length_eraseIdx_of_lt (by rwa [List.length_set]), List.length_set]
          omega
        · obtain ⟨ms, hms, hx⟩ := List.mem_flatten.mp hx
          rcases List.mem_or_eq_of_mem_set (List.mem_of_mem_eraseIdx hms) with hms | rfl
          · exact List.mem_flatten.mpr ⟨ms, hms, hx⟩
          · rcases List.mem_append.mp hx with hx | hx
            · exact List.mem_flatten.mpr ⟨kept, List.mem_of_getElem? hm, hx⟩
            · exact List.mem_flatten.mpr ⟨more, List.mem_of_getElem? hn, hx⟩
  | txnEnd n =>
      obtain ⟨_, hn, hs⟩ := Option.bind_eq_some_iff.mp hs
      obtain rfl := Option.some.inj hs
      have hlt : n < s.opens.length := (List.getElem?_eq_some_iff.mp hn).1
      refine h.txnEnd ?_ fun x hx => ?_
      · rw [List.length_eraseIdx_of_lt hlt]
        omega
      · obtain ⟨ms, hms, hx⟩ := List.mem_flatten.mp hx
        exact List.mem_flatten.mpr ⟨ms, List.mem_of_mem_eraseIdx hms, hx⟩
  | live key now =>
      obtain rfl := Option.some.inj hs
      exact h.acts (.of_within (looks_live (K := (· = key)) rfl now)) fun k hk => hk ▸ hc
  | put key value expiresAt msgpack clock nonce =>
      obtain rfl := Option.some.inj hs
      exact h.acts (put_acts value msgpack) fun k hk => hk ▸ hc
  | updateWith key f clock nonce =>
      obtain rfl := Option.some.inj hs
      exact h.acts (updateWith_acts f) fun k hk => hk ▸ hc
  | delete key clock nonce =>
      obtain rfl := Option.some.inj hs
      exact h.acts delete_acts fun k hk => hk ▸ hc
  | applyBatch ops m n clock draws =>
      obtain ⟨⟨b, watched⟩, hb, hs⟩ := Option.bind_eq_some_iff.mp hs
      obtain rfl := Option.some.inj hs
      obtain ⟨txn, -, hb⟩ := Option.bind_eq_some_iff.mp hb
      obtain ⟨watch, hw, hb⟩ := Option.bind_eq_some_iff.mp hb
      obtain ⟨-, rfl⟩ := Prod.mk.inj (Option.some.inj hb)
      refine h.acts (applyBatchWatched_acts (K := fun k => s.Spares (clock.now 2) k) hc.1 ?_ b clock draws) fun k hk => hk
      intro ws hws w hw'
      obtain ⟨-, -, rfl⟩ := Option.map_eq_some_iff.mp hws
      exact hc.2 watch hw w hw'
  | reset fileId =>
      obtain rfl := Option.some.inj hs
      exact h.reset fileId
  | purgeExpired now =>
      obtain rfl := Option.some.inj hs
      exact h.purges (within_purgeExpired now s.inner) hc
  | check repair copied clock draws =>
      obtain rfl := Option.some.inj hs
      exact h.check hc.1 hc.2
  | freeze recompress newId now => exact h.freeze hc hs
  | copy nonce => exact h.copy hs
  | swap written =>
      obtain ⟨c, hcop, hs⟩ := Option.bind_eq_some_iff.mp hs
      split at hs
      · obtain rfl := Option.some.inj hs
        exact h.swap hcop written (hc c hcop)
      · simp at hs
  | rot file =>
      rw [State.step] at hs
      split at hs
      · rename_i hlen
        obtain rfl := Option.some.inj hs
        exact h.rot hlen
      · simp at hs

/-- An engine on which nothing is open. -/
def State.idle (i : Inner) (latest : Int64) : State := { inner := i, opens := [], latest, copying := none }

omit [Codec] in
theorem Inv.idle {i : Inner} (hi : i.Dated) (ha : i.activeTxns = 0) (latest : Int64) : Inv (State.idle i latest) :=
  ⟨hi, ha, by simp [State.marks, State.idle], by simp [State.idle]⟩

/-- Another operation has written or deleted one of the keys of the batch since
its transaction began, or one of the watched keys since it was watched. -/
def State.Overtaken (s : State) (ops : List BatchOp) (txn watch : List Mark) : Prop :=
  (∃ m ∈ txn.find? (·.watched.isNone), ∃ op ∈ ops, Told m.start s.inner op.key) ∨
    ∃ m ∈ watch, ∃ w ∈ m.watched, Told m.start s.inner w.key

/-- The keys were emptied since the transaction began, one of them was written or
deleted, or a watched key was, or has expired. -/
def State.Disturbed (s : State) (ops : List BatchOp) (txn watch : List Mark) (now : Int64) : Prop :=
  (∃ m ∈ txn.find? (·.watched.isNone), Op.reset ∈ news m.start s.inner ∨ ∃ op ∈ ops, Told m.start s.inner op.key) ∨
    ∃ m ∈ watch, ∃ w ∈ m.watched, Told m.start s.inner w.key ∨
      w.existed = true ∧ ∃ e, m.start.index[w.key]? = some e ∧ e.isExpired (s.after now s.inner).latest = true

omit [Codec] in
theorem State.mem_marks_of_pick {n : Option Nat} {ms : List Mark} (h : s.pick n = some ms) {m : Mark} (hm : m ∈ ms) :
    m ∈ s.marks := by
  cases n with
  | none =>
      obtain rfl := Option.some.inj h
      simp at hm
  | some n => exact List.mem_flatten.mpr ⟨ms, List.mem_of_getElem? h, hm⟩

omit [Codec] in
theorem Inv.told_of_version (h : Inv s) {m : Mark} (hm : m ∈ s.marks) {k : String}
    (hv : m.start.seq < s.inner.versionOf k) : Told m.start s.inner k := by
  have ht := h.traces m hm
  cases he : s.inner.index[k]? with
  | some e =>
      rw [Inner.versionOf_of_index he] at hv
      exact ht.entry k e he hv
  | none =>
      cases htv : s.inner.tombVersions[k]? with
      | some v =>
          have hve : s.inner.versionOf k = v := by simp [Inner.versionOf, he, htv]
          exact ht.tomb k v htv (hve ▸ hv)
      | none =>
          have hve : s.inner.versionOf k = 0 := by simp [Inner.versionOf, he, htv]
          rw [hve] at hv
          exact absurd hv (Nat.not_lt_zero _)

omit [Codec] in
theorem Inv.refused (h : Inv s) {ops : List BatchOp} {txn watch : List Mark} (ht : ∀ m ∈ txn, m ∈ s.marks)
    (hw : ∀ m ∈ watch, m ∈ s.marks) (now : Int64) (ho : s.Overtaken ops txn watch) :
    (∃ b ∈ beginSeq txn, b < s.inner.resetSeq ∨ ∃ op ∈ ops, b < s.inner.versionOf op.key) ∨
      ∃ w ∈ watchedKeys watch, w.Changed s.inner now := by
  rcases ho with ⟨m, hm, op, hop, htold⟩ | ⟨m, hm, w, hwm, htold⟩
  · have hnone : m.watched = none := by simpa using List.find?_some hm
    have hmem := ht m (List.mem_of_find?_eq_some hm)
    refine .inl ⟨m.start.seq, by rw [beginSeq, Option.mem_def.mp hm]; rfl, ?_⟩
    rcases (h.traces m hmem).known op.key htold with hv | hr | ⟨hb, -⟩
    · exact .inr ⟨op, hop, hv⟩
    · exact .inl hr
    · simp [Mark.blind, hnone] at hb
  · have hmem := hw m hm
    have hsome : m.watched = some w := hwm
    have hsince := (h.traces m hmem).since w hwm
    refine .inr ⟨w, List.mem_filterMap.mpr ⟨m, hm, hsome⟩, ?_⟩
    rcases (h.traces m hmem).known w.key htold with hv | hr | ⟨hb, hn⟩
    · exact .inl (hsince ▸ hv)
    · exact .inr (.inl (hsince ▸ hr))
    · refine .inr (.inr ⟨by simpa [Mark.blind, hsome] using hb, ?_⟩)
      rw [Inner.at?, hn]
      rfl

omit [Codec] in
theorem Inv.disturbed (h : Inv s) {ops : List BatchOp} {txn watch : List Mark} (ht : ∀ m ∈ txn, m ∈ s.marks)
    (hw : ∀ m ∈ watch, m ∈ s.marks) {now : Int64}
    (hr : (∃ b ∈ beginSeq txn, b < s.inner.resetSeq ∨ ∃ op ∈ ops, b < s.inner.versionOf op.key) ∨
      ∃ w ∈ watchedKeys watch, w.Changed s.inner now) : s.Disturbed ops txn watch now := by
  rcases hr with ⟨b, hb, hcase⟩ | ⟨w, hwk, hch⟩
  · obtain ⟨m, hm, rfl⟩ := Option.map_eq_some_iff.mp hb
    have hmem := ht m (List.mem_of_find?_eq_some hm)
    refine .inl ⟨m, hm, ?_⟩
    rcases hcase with hres | ⟨op, hop, hv⟩
    · exact .inl ((h.traces m hmem).reset hres)
    · exact .inr ⟨op, hop, h.told_of_version hmem hv⟩
  · obtain ⟨m, hm, hwm⟩ := List.mem_filterMap.mp hwk
    have hmem := hw m hm
    have htr := h.traces m hmem
    have hsince := htr.since w hwm
    refine .inr ⟨m, hm, w, hwm, ?_⟩
    rcases hch with hv | hres | ⟨hex, hat⟩
    · exact .inl (h.told_of_version hmem (hsince ▸ hv))
    · exact .inl ⟨_, htr.reset (hsince ▸ hres), rfl⟩
    · rcases htr.found w hwm hex with htold | ⟨e, he, ⟨v, hd⟩ | hx⟩
      · exact .inl htold
      · obtain ⟨e', he', hv'⟩ := Option.map_eq_some_iff.mp hd
        obtain ⟨-, hxe⟩ := Prod.mk.inj hv'
        have hexp : e'.isExpired now = true := by
          rw [Inner.at?, he', Option.filter_eq_none_iff] at hat
          simpa using hat e' rfl
        refine .inr ⟨hex, e, he, Entry.isExpired_mono (State.le_latest s now s.inner) ?_⟩
        simp only [Entry.isExpired] at hexp ⊢
        rw [← hxe]
        exact hexp
      · exact .inr ⟨hex, e, he, Entry.isExpired_mono (State.latest_le s now s.inner) hx⟩

/-- As long as no step makes the engine forget a change that something open has
still to be told of, a batch is refused as a conflict whenever it has been
overtaken, and never when nothing has disturbed it. -/
theorem State.overtaken_batch_conflicts (hcodec : CodecUnrelated) {i : Inner} (hi : i.Dated) (ha : i.activeTxns = 0)
    (latest : Int64) (events : List Event) (hrun : Lib.Runs.run State.step (State.idle i latest) events = some s)
    (hclean : Lib.Runs.Along State.step State.Clean (State.idle i latest) events) (ops : List BatchOp)
    (m n : Option Nat) (txn watch : List Mark) (hm : s.pick m = some txn) (hn : s.pick n = some watch) (clock : Clock)
    (draws : Nat → Draw) :
    let call := applyBatchWatched ops (beginSeq txn) (n.map fun _ => watchedKeys watch) clock draws s.inner
    (s.Overtaken ops txn watch → ∃ msg i', call = .error (.conflict msg) i') ∧
      ((∃ msg i', call = .error (.conflict msg) i') → s.Disturbed ops txn watch (clock.now 0)) := by
  have hinv := Lib.Runs.invariant (fun h hc hs => Inv.step h hc hs) (Inv.idle hi ha latest) hclean hrun
  have hiff := conflict_iff hcodec s.inner ops (beginSeq txn) (n.map fun _ => watchedKeys watch) clock draws
  have ht (x : Mark) (hx : x ∈ txn) : x ∈ s.marks := State.mem_marks_of_pick hm hx
  have hw (x : Mark) (hx : x ∈ watch) : x ∈ s.marks := State.mem_marks_of_pick hn hx
  refine ⟨fun ho => hiff.mpr ?_, fun hc => hinv.disturbed ht hw ?_⟩
  · rcases hinv.refused ht hw (clock.now 0) ho with hb | ⟨w, hwk, hch⟩
    · exact .inr hb
    · cases n with
      | none =>
          obtain rfl := Option.some.inj hn
          simp [watchedKeys] at hwk
      | some n => exact .inl ⟨_, rfl, w, hwk, hch⟩
  · rcases hiff.mp hc with ⟨ws, hws, w, hwk, hch⟩ | hb
    · obtain ⟨-, -, rfl⟩ := Option.map_eq_some_iff.mp hws
      exact .inr ⟨w, hwk, hch⟩
    · exact .inl hb

end

end Txn

section

open Log Format

variable [External]

/-- Versions are given out in order. -/
def Numbered (s : Index × Nat) : Prop := ∀ (k : String) (e : Entry), s.1[k]? = some e → e.version ≤ s.2

omit [External] in
theorem Numbered.insert {s : Index × Nat} (h : Numbered s) (k : String) (e : Entry) :
    Numbered (s.1.insert k { e with version := s.2 + 1 }, s.2 + 1) := by
  intro k' e' he
  rw [Table.getElem?_insert] at he
  split at he
  · obtain rfl := Option.some.inj he
    exact Nat.le_refl _
  · exact Nat.le_succ_of_le (h k' e' he)

omit [External] in
theorem Numbered.applyChange {s : Index × Nat} (h : Numbered s) (c : Change) : Numbered (applyChange s c) := by
  unfold Log.applyChange
  split
  · exact h.insert c.key _
  · intro k e he
    rw [Table.getElem?_erase] at he
    split at he
    · exact absurd he (by simp)
    · exact Nat.le_succ_of_le (h k e he)

omit [External] in
theorem Numbered.foldl {α : Type} {f : Index × Nat → α → Index × Nat} (hf : ∀ s a, Numbered s → Numbered (f s a))
    (l : List α) {s : Index × Nat} (h : Numbered s) : Numbered (l.foldl f s) := by
  induction l generalizing s with
  | nil => exact h
  | cons a l ih => exact ih (hf s a h)

theorem numbered_loadHint (opts : EngineOptions) (fileId : UInt64) (fileLen : Nat) (hint : Option Bytes) :
    Numbered (loadHint opts fileId fileLen hint).1 := by
  have hempty : Numbered (∅, 0) := by
    intro k e he
    rw [Std.ExtTreeMap.getElem?_empty] at he
    exact absurd he (by simp)
  unfold loadHint
  split
  · split
    · exact Numbered.foldl (fun s p h => h.insert p.1 p.2) _ hempty
    · exact hempty
  · exact hempty

theorem numbered_scanLog {file : Bytes} {start seq : Nat} {index : Index} {keys : Option Keys} {req : Bool}
    {o : ScanOutcome} (hs : Numbered (index, seq)) (h : scanLog file start index seq keys req = .ok o) :
    Numbered (o.index, o.seq) := by
  obtain ⟨r, hr, h⟩ := except_bind_ok.mp h
  obtain rfl := Except.ok.inj h
  have honto : Scan.start start (index, seq) = Scan.onto Log.applyChange (index, seq) (Scan.start start []) := rfl
  rw [replay, honto, scanFrom_onto] at hr
  cases hn : scanFrom note keys req file.length (Scan.start start []) (file.drop start) with
  | error e =>
      rw [hn] at hr
      exact absurd hr (by simp [Except.map])
  | ok r₀ =>
      rw [hn] at hr
      obtain rfl := Except.ok.inj hr
      exact Numbered.foldl (fun s c h => h.applyChange c) r₀.acc hs

variable [Chrono] [Vectors]

/-- An engine that has just been opened: nothing is open on it, and no version is
ahead of its sequence number. -/
theorem openFile_dated {opts : EngineOptions} {file : Bytes} {hint : Option Bytes} {newId : Except String UInt64}
    {now : Int64} {i : Inner} (h : openFile opts file hint newId now = .ok i) : i.Dated ∧ i.activeTxns = 0 := by
  have hopened (file : Bytes) (fileId : UInt64) (format : UInt32) {ix : Index} {seq : Nat} (hn : Numbered (ix, seq)) :
      (Inner.opened opts file fileId format ix seq).Dated := by
    refine ⟨hn, fun k v hv => ?_, Nat.zero_le _⟩
    have hnone : (Inner.opened opts file fileId format ix seq).tombVersions[k]? = none := Std.ExtTreeMap.getElem?_empty
    rw [hnone] at hv
    exact absurd hv (by simp)
  unfold openFile at h
  split at h
  · cases newId with
    | error why => simp at h
    | ok id =>
        obtain rfl := Except.ok.inj h
        refine ⟨hopened _ _ _ fun k e he => ?_, rfl⟩
        rw [Std.ExtTreeMap.getElem?_empty] at he
        exact absurd he (by simp)
  · obtain ⟨hd, -, h⟩ := except_bind_ok.mp h
    obtain ⟨o, ho, h⟩ := except_bind_ok.mp h
    obtain ⟨_, -, h⟩ := except_bind_ok.mp h
    obtain rfl := Except.ok.inj h
    refine ⟨hopened _ _ _ fun k e he => ?_, rfl⟩
    have hsc := numbered_scanLog (numbered_loadHint opts hd.1 file.length hint) ho
    rw [Std.ExtTreeMap.getElem?_filter'] at he
    exact hsc k e (Option.filter_eq_some_iff.mp he).1

end

namespace Txn

section

variable [External] [Chrono] [Codec] [Vectors]

instance (s : State) (t : Int64) (k : String) : Decidable (s.Spares t k) :=
  inferInstanceAs (Decidable (∀ e ∈ s.inner.index[k]?, e.isExpired t = true →
    ∀ m ∈ s.marks, m.blind k = true → e.version ≤ m.start.seq))

instance (s : State) (t : Int64) : Decidable (s.SparesAll t) :=
  inferInstanceAs (Decidable (∀ p ∈ s.inner.index.toList, s.Spares t p.1))

instance (s : State) (k : String) : Decidable (s.Bears k) :=
  inferInstanceAs (Decidable (∀ e ∈ s.inner.index[k]?, ∀ m ∈ s.marks,
    (m.blind k = true → e.version ≤ m.start.seq) ∧ (m.found k = true → m.start.seq < e.version)))

instance (s : State) : (e : Event) → Decidable (s.Clean e)
  | .watch keys now => inferInstanceAs (Decidable (∀ k ∈ keys, s.Spares now k))
  | .live key now => inferInstanceAs (Decidable (s.Spares now key))
  | .put key _ _ _ clock _ => inferInstanceAs (Decidable (s.Spares (clock.now 4) key))
  | .updateWith key _ clock _ => inferInstanceAs (Decidable (s.Spares (clock.now 5) key))
  | .delete key clock _ => inferInstanceAs (Decidable (s.Spares (clock.now 0) key))
  | .applyBatch ops _ n clock _ =>
      inferInstanceAs (Decidable ((∀ op ∈ ops, s.Spares (clock.now 2) op.key) ∧
        ∀ ms ∈ s.pick n, ∀ w ∈ watchedKeys ms, s.Spares (clock.now 2) w.key))
  | .purgeExpired now => inferInstanceAs (Decidable (s.SparesAll now))
  | .check repair _ clock _ =>
      inferInstanceAs (Decidable (s.SparesAll (clock.now 0) ∧
        (repair = true → ∀ k ∈ (left (purgeAllExpired (clock.now 0)) s.inner).corruptedKeys, ∀ m ∈ s.marks,
          m.blind k = false)))
  | .freeze _ _ now => inferInstanceAs (Decidable (s.SparesAll now))
  | .swap _ => inferInstanceAs (Decidable (∀ c ∈ s.copying, ∀ k ∈ c.lost s.inner.index, s.Bears k))
  | .txnBegin | .watchMore _ _ | .txnEnd _ | .reset _ | .copy _ | .rot _ => isTrue trivial

end

open Reference

local instance conflictCodec : Codec := codec []

theorem codecUnrelated : CodecUnrelated := by
  intro v msgpack
  cases v <;> cases msgpack <;> first | exact .ok _ | exact .error rfl

def idleEngine : State := State.idle (fresh none) 0

theorem fresh_dated : (fresh none : Inner).Dated := by
  refine ⟨fun k e he => ?_, fun k v hv => ?_, Nat.le_refl 0⟩
  · have hn : (fresh none : Inner).index[k]? = none := Std.ExtTreeMap.getElem?_empty
    rw [hn] at he
    exact absurd he (by simp)
  · have hn : (fresh none : Inner).tombVersions[k]? = none := Std.ExtTreeMap.getElem?_empty
    rw [hn] at hv
    exact absurd hv (by simp)

/-- A key is written after a transaction has begun and while it is watched. -/
def seenRun : List Event :=
  [.txnBegin, .watch ["a"] 10, .put "a" (.str "x") 0 false (.still 20) (.error ""), .delete "a" (.still 30) (.error "")]

theorem seenRun_runs : (Lib.Runs.run State.step idleEngine seenRun).isSome := by decide

def seenEnd : State := (Lib.Runs.run State.step idleEngine seenRun).get seenRun_runs

/-- A put of the key "a" by a transaction. -/
def lateOps : List BatchOp := [.put "a" (.str "y") 0 false]

theorem overtaken_of_any {s : State} {ops : List BatchOp} {txn watch : List Mark}
    (h : ((txn.find? (·.watched.isNone)).any fun m => ops.any fun op => (news m.start s.inner).any (·.touches op.key)) = true) :
    s.Overtaken ops txn watch := by
  cases hm : txn.find? (·.watched.isNone) with
  | none => simp [hm] at h
  | some m =>
      rw [hm, Option.any_some] at h
      obtain ⟨op, hop, h⟩ := List.any_eq_true.mp h
      exact .inl ⟨m, hm, op, hop, List.any_eq_true.mp h⟩

theorem seenEnd_picks : (seenEnd.pick (some 0)).isSome ∧ (seenEnd.pick (some 1)).isSome := by decide

theorem overtaken_batch_conflicts_sample :
    ∃ s txn watch, Lib.Runs.run State.step idleEngine seenRun = some s ∧ s.pick (some 0) = some txn ∧
      s.pick (some 1) = some watch ∧ s.Overtaken lateOps txn watch ∧
      ∃ msg i', applyBatchWatched lateOps (beginSeq txn) (some (watchedKeys watch)) (.still 40) (fun _ => .error "")
        s.inner = .error (.conflict msg) i' := by
  have hrun : Lib.Runs.run State.step idleEngine seenRun = some seenEnd := (Option.some_get seenRun_runs).symm
  have hover : seenEnd.Overtaken lateOps ((seenEnd.pick (some 0)).get seenEnd_picks.1)
      ((seenEnd.pick (some 1)).get seenEnd_picks.2) := overtaken_of_any (by decide)
  have hcall := (State.overtaken_batch_conflicts codecUnrelated fresh_dated rfl 0 seenRun hrun (by decide) lateOps
    (some 0) (some 1) _ _ (Option.some_get seenEnd_picks.1).symm (Option.some_get seenEnd_picks.2).symm (.still 40)
    (fun _ => .error "")).1 hover
  exact ⟨_, _, _, hrun, (Option.some_get seenEnd_picks.1).symm, (Option.some_get seenEnd_picks.2).symm, hover, hcall⟩

/-- A key is written after a transaction has begun, with a deadline that passes
before the transaction commits. -/
def lateRun : List Event :=
  [.txnBegin, .put "a" (.str "x") 1000 false (.still 500) (.error ""), .live "a" 2000]

theorem lateRun_runs : (Lib.Runs.run State.step idleEngine lateRun).isSome := by decide

def lateEnd : State := (Lib.Runs.run State.step idleEngine lateRun).get lateRun_runs

theorem lateEnd_txn : (lateEnd.pick (some 0)).isSome := by decide

theorem expired_write_is_overwritten :
    ∃ s txn, Lib.Runs.run State.step idleEngine lateRun = some s ∧ s.pick (some 0) = some txn ∧
      s.Overtaken lateOps txn [] ∧
      ¬ ∃ msg i', applyBatchWatched lateOps (beginSeq txn) none (.still 3000) (fun _ => .error "") s.inner =
        .error (.conflict msg) i' := by
  refine ⟨_, _, (Option.some_get lateRun_runs).symm, (Option.some_get lateEnd_txn).symm, ?_, ?_⟩
  · exact overtaken_of_any (by decide)
  · rintro ⟨msg, i', he⟩
    have hok : Lib.Fallible.succeeds (applyBatchWatched lateOps (beginSeq ((lateEnd.pick (some 0)).get lateEnd_txn)) none
        (.still 3000) (fun _ => .error "")) lateEnd.inner = true := by decide
    simp only [Lib.Fallible.succeeds] at hok
    rw [show applyBatchWatched lateOps (beginSeq ((lateEnd.pick (some 0)).get lateEnd_txn)) none (.still 3000)
      (fun _ => .error "") lateEnd.inner = .error (.conflict msg) i' from he] at hok
    exact absurd hok (by simp)

end Txn

end KivaDb
