import KivaDb.Txn.Traces

namespace KivaDb

open Lib.LittleEndian Lib.Fallible Crypt Relation

section

variable [External] [Chrono] [Vectors]

namespace Inner

theorem Dated.congr {i i' : Inner} (h : i.Dated) (hix : i'.index = i.index) (htomb : i'.tombVersions = i.tombVersions)
    (hreset : i'.resetSeq = i.resetSeq) (hseq : i'.seq = i.seq) : i'.Dated where
  entry k e he := by
    rw [hseq]
    exact h.entry k e (hix ▸ he)
  tomb k v hv := by
    rw [hseq]
    exact h.tomb k v (htomb ▸ hv)
  reset := by
    rw [hreset, hseq]
    exact h.reset

theorem Dated.drops {K : String → Prop} {t : Int64} {i i' : Inner} (h : i.Dated)
    (hd : ReflTransGen (DropOf K t) i i') : i'.Dated where
  entry k e he := by
    rw [DropOf.frame_star hd]
    rcases DropOf.index_star hd k with hk | hk
    · exact h.entry k e (hk ▸ he)
    · rw [hk.1] at he
      exact absurd he (by simp)
  tomb k v hv := by
    rw [DropOf.frame_star hd] at hv ⊢
    exact h.tomb k v hv
  reset := by
    rw [DropOf.frame_star hd]
    exact h.reset

end Inner

namespace Txn

variable {latest latest' t : Int64} {i i' : Inner} {m : Mark}

/-- Nothing that matters to a mark changes. -/
theorem Traces.congr (h : Traces latest i m) (hlat : latest ≤ latest') (hix : i'.index = i.index)
    (htomb : i'.tombVersions = i.tombVersions) (hreset : i'.resetSeq = i.resetSeq) (hseq : i'.seq = i.seq)
    (hem : i'.emitted = i.emitted) : Traces latest' i' m := by
  refine h.advance hlat (by rw [hem, List.append_nil]) hseq.ge (.inl hreset) fun k => ?_
  exact .same (by simp) (by rw [Inner.dated, Inner.dated, hix]) (by rw [htomb])

theorem Traces.drops {K : String → Prop} (h : Traces latest i m) (hlat : latest ≤ latest') (ht : t ≤ latest')
    (hd : ReflTransGen (DropOf K t) i i')
    (hk : ∀ k, K k → ∀ e ∈ i.index[k]?, e.isExpired t = true → m.blind k = true → e.version ≤ m.start.seq) :
    Traces latest' i' m := by
  have hfr := DropOf.frame_star hd
  refine h.advance hlat (by rw [hfr, List.append_nil]) (by rw [hfr]) (.inl (by rw [hfr])) fun k => ?_
  have htomb : i'.tombVersions[k]? = i.tombVersions[k]? := by rw [hfr]
  rcases DropOf.index_star hd k with hs | ⟨hn, hKk, e, he, hx⟩
  · exact .same (by simp) (by rw [Inner.dated, Inner.dated, hs]) htomb
  · exact .gone (by simp) he hn htomb (hk k hKk e he hx) fun _ => .inr (Entry.isExpired_mono ht hx)

end Txn

end

section

variable [External] [Chrono] [Vectors] [Codec]

namespace Inner

theorem tomb_applyStaged (i : Inner) (offset : Nat) (s : Staged) (k : String) :
    (i.applyStaged offset s).tombVersions[k]? =
      if s.key = k ∧ s.entry = none ∧ 0 < i.activeTxns then some (i.seq + 1) else i.tombVersions[k]? := by
  cases s with
  | put key e raw doc ty created => simp [Staged.entry]; rfl
  | del key =>
      simp only [applyStaged, Staged.key, Staged.entry, true_and]
      rw [idxRemove_frame]
      dsimp only [emit]
      split
      · rename_i ha
        simp only [Std.ExtTreeMap.getElem?_insert, Std.compare_eq_iff_eq, ha, and_true]
      · rename_i ha
        simp [ha]

theorem Dated.applyStaged {i : Inner} (h : i.Dated) (offset : Nat) (s : Staged) : (i.applyStaged offset s).Dated where
  entry k e he := by
    have hseq : (i.applyStaged offset s).seq = i.seq + 1 := by rw [applyStaged_frame]
    rw [hseq]
    rw [getElem?_applyStaged] at he
    split at he
    · obtain ⟨e', -, rfl⟩ := Option.map_eq_some_iff.mp he
      exact Nat.le_refl _
    · exact Nat.le_succ_of_le (h.entry k e he)
  tomb k v hv := by
    have hseq : (i.applyStaged offset s).seq = i.seq + 1 := by rw [applyStaged_frame]
    rw [hseq]
    rw [tomb_applyStaged] at hv
    split at hv
    · obtain rfl := Option.some.inj hv
      exact Nat.le_refl _
    · exact Nat.le_succ_of_le (h.tomb k v hv)
  reset := by
    rw [applyStaged_frame]
    exact Nat.le_succ_of_le h.reset

theorem Dated.commit {i : Inner} (h : i.Dated) (recs : List (Staged × Bytes)) : (i.commit recs).Dated := by
  have hall (recs : List (Staged × Bytes)) (j : Inner) (base : Nat) (hj : j.Dated) :
      (j.applyAllStaged base recs).Dated := by
    induction recs generalizing j base with
    | nil => exact hj
    | cons p recs ih => exact ih _ _ (hj.applyStaged base p.1)
  refine hall recs _ _ ?_
  rw [extend, raiseFormat_eq]
  exact h.congr rfl rfl rfl rfl

end Inner

namespace Txn

variable {latest : Int64} {i : Inner} {m : Mark}

omit [External] [Vectors] [Codec] in
theorem touches_op (s : Staged) (k : String) : s.op.touches k = (s.key == k) := by
  cases s <;> rfl

/-- A write is told, and the version of its key says so. -/
theorem Traces.applyStaged (h : Traces latest i m) (ha : 0 < i.activeTxns) (offset : Nat) (s : Staged) :
    Traces latest (i.applyStaged offset s) m := by
  have hfr := Inner.applyStaged_frame i offset s
  refine h.advance (Int64.le_refl _) (by rw [hfr]) (by rw [hfr]; exact Nat.le_succ _)
    (.inl (by rw [hfr])) fun k => ?_
  have hix := Inner.getElem?_applyStaged i offset s k
  have htomb := Inner.tomb_applyStaged i offset s k
  by_cases hk : s.key = k
  · refine .told List.mem_cons_self (by simp [touches_op, hk]) (.inl ?_)
    rw [if_pos hk] at hix
    have hv : (i.applyStaged offset s).versionOf k = i.seq + 1 := by
      cases he : s.entry with
      | some e =>
          rw [he] at hix
          exact Inner.versionOf_of_index hix
      | none =>
          rw [he] at hix htomb
          rw [if_pos ⟨hk, rfl, ha⟩] at htomb
          simp [Inner.versionOf, hix, htomb]
    rw [hv]
    exact Nat.lt_succ_of_le h.seq
  · refine .same (by simp [touches_op, hk]) ?_ ?_
    · rw [Inner.dated, Inner.dated, hix, if_neg hk]
    · rw [htomb, if_neg fun hc => hk hc.1]

theorem Traces.commit (h : Traces latest i m) (ha : 0 < i.activeTxns) (recs : List (Staged × Bytes)) :
    Traces latest (i.commit recs) m := by
  have hall (recs : List (Staged × Bytes)) (j : Inner) (base : Nat) (hj : Traces latest j m) (ha : 0 < j.activeTxns) :
      Traces latest (j.applyAllStaged base recs) m := by
    induction recs generalizing j base with
    | nil => exact hj
    | cons p recs ih =>
        refine ih _ _ (hj.applyStaged ha base p.1) ?_
        rw [Inner.applyStaged_frame]
        exact ha
  refine hall recs _ _ ?_ ?_
  · rw [Inner.extend, Inner.raiseFormat_eq]
    exact h.congr (Int64.le_refl _) rfl rfl rfl rfl rfl
  · rw [Inner.extend, Inner.raiseFormat_eq]
    exact ha

omit [Codec] in
/-- A repair is told, but no version says so. -/
theorem Traces.repaired (h : Traces latest i m) {key : String} (hb : m.blind key = false) :
    Traces latest (i.repaired key) m := by
  have hix (k : String) : (i.repaired key).index[k]? = if key = k then none else i.index[k]? :=
    Inner.getElem?_idxRemove { i with seq := i.seq + 1 } key k
  have hfr := Inner.idxRemove_frame { i with seq := i.seq + 1 } key
  have hem : (i.repaired key).emitted = i.emitted ++ [.del key] := by rw [Inner.repaired, Inner.emit, hfr]
  refine h.advance (Int64.le_refl _) hem ?_ (.inl ?_) fun k => ?_
  · rw [Inner.repaired, Inner.emit, hfr]
    exact Nat.le_succ _
  · rw [Inner.repaired, Inner.emit, hfr]
  · have hk := hix k
    split at hk
    · rename_i hkk
      exact .told List.mem_cons_self (by simp [Op.touches, hkk]) (.inr (.inr ⟨hkk ▸ hb, hk⟩))
    · rename_i hkk
      refine .same (by simp [Op.touches, hkk]) (by rw [Inner.dated, Inner.dated, hk]) ?_
      rw [Inner.repaired, Inner.emit, hfr]

omit [Codec] in
theorem Traces.wiped (h : Traces latest i m) (fileId : UInt64) (hi : i.Dated) : Traces latest (i.wiped fileId) m := by
  have hle : i.resetSeq ≤ (i.wiped fileId).resetSeq := Nat.le_succ_of_le hi.reset
  refine h.advance (Int64.le_refl _) rfl (Nat.le_succ _) (.inr ⟨List.mem_cons_self, hle⟩) fun k => ?_
  exact .told List.mem_cons_self rfl (.inr (.inl (Nat.lt_succ_of_le h.seq)))

end Txn

namespace Inner

omit [Codec] in
theorem Dated.repaired {i : Inner} (h : i.Dated) (key : String) : (i.repaired key).Dated := by
  have hfr := idxRemove_frame { i with seq := i.seq + 1 } key
  constructor
  · intro k e he
    have hix := getElem?_idxRemove { i with seq := i.seq + 1 } key k
    have hs : (i.repaired key).seq = i.seq + 1 := by rw [Inner.repaired, emit, hfr]
    rw [hs]
    rw [show (i.repaired key).index[k]? = if key = k then none else i.index[k]? from hix] at he
    split at he
    · simp at he
    · exact Nat.le_succ_of_le (h.entry k e he)
  · intro k v hv
    rw [Inner.repaired, emit, hfr] at hv ⊢
    exact Nat.le_succ_of_le (h.tomb k v hv)
  · rw [Inner.repaired, emit, hfr]
    exact Nat.le_succ_of_le h.reset

omit [Codec] in
theorem Dated.wiped (i : Inner) (fileId : UInt64) : (i.wiped fileId).Dated where
  entry k e he := by
    have hn : (i.wiped fileId).index[k]? = none := Std.ExtTreeMap.getElem?_empty
    rw [hn] at he
    exact absurd he (by simp)
  tomb k v hv := by
    have hn : (i.wiped fileId).tombVersions[k]? = none := Std.ExtTreeMap.getElem?_empty
    rw [hn] at hv
    exact absurd hv (by simp)
  reset := Nat.le_refl _

end Inner

section

omit [Codec]

theorem repairKey_left (key : String) (ts : Int64) (nonce : Draw) (i : Inner) :
    left (repairKey key ts nonce) i = i ∨ ∃ rec, left (repairKey key ts nonce) i = (i.extend rec).repaired key := by
  cases h : repairKey key ts nonce i with
  | ok u i' =>
      rw [left_of_ok h]
      obtain ⟨j, _, hg, h⟩ := bind_ok.mp h
      obtain ⟨rfl, rfl⟩ := get_ok.mp hg
      obtain ⟨rec, _, ha, h⟩ := bind_ok.mp h
      obtain ⟨-, rfl⟩ := attempt_ok.mp ha
      obtain ⟨base, j, hap, h⟩ := bind_ok.mp h
      obtain ⟨-, rfl, -⟩ := append_ok hap
      exact .inr ⟨rec, (modify_ok.mp h).symm⟩
  | error err i' =>
      rw [left_of_error h]
      rcases bind_error.mp h with h | ⟨j, _, hg, h⟩
      · simp at h
      · obtain ⟨rfl, rfl⟩ := get_ok.mp hg
        rcases bind_error.mp h with h | ⟨rec, _, ha, h⟩
        · exact .inl (attempt_error.mp h).2.symm
        · obtain ⟨-, rfl⟩ := attempt_ok.mp ha
          rcases bind_error.mp h with h | ⟨_, _, -, h⟩
          · exact .inl (append_error h)
          · simp at h

/-- What a repair of each key keeps, repairing them all keeps. -/
theorem repairAll_keeps {P : Inner → Prop} {clock : Clock} {draws : Nat → Draw} {n : Nat} {ks : List String} {i : Inner}
    (hP : ∀ j k rec, k ∈ ks → P j → P ((j.extend rec).repaired k)) (h : P i) :
    P (left (repairAll clock draws n ks) i) := by
  induction ks generalizing n i with
  | nil => exact h
  | cons k ks ih =>
      have ih' (j : Inner) (hj : P j) : P (left (repairAll clock draws (n + 1) ks) j) :=
        ih (fun j k' rec hk' => hP j k' rec (List.mem_cons_of_mem k hk')) hj
      have hk : P (left (repairKey k (clock.secs (2 * n + 1)) (draws n)) i) := by
        rcases repairKey_left k (clock.secs (2 * n + 1)) (draws n) i with he | ⟨rec, he⟩
        · rw [he]
          exact h
        · rw [he]
          exact hP i k rec List.mem_cons_self h
      cases hr : repairKey k (clock.secs (2 * n + 1)) (draws n) i with
      | ok u j =>
          rw [left_of_ok hr] at hk
          have hl : left (repairAll clock draws n (k :: ks)) i = left (repairAll clock draws (n + 1) ks) j :=
            left_bind_ok hr
          rw [hl]
          exact ih' j hk
      | error e j =>
          rw [left_of_error hr] at hk
          have hl : left (repairAll clock draws n (k :: ks)) i = j := left_bind_error hr
          rw [hl]
          exact hk

theorem reset_left (fileId : Except String UInt64) (i : Inner) :
    left (reset fileId) i = i ∨ i.compacting = false ∧ ∃ id, left (reset fileId) i = i.wiped id := by
  have hreset (wipe : M Unit) (h : reset fileId i = (if i.compacting then throw (.other "a compaction or a backup is running: try again when it ends")
      else if i.closed then throw (.other "database is closed") else wipe : M Unit) i) :
      left (reset fileId) i = i ∨ i.compacting = false ∧ left (reset fileId) i = left wipe i := by
    rw [left, h]
    cases hc : i.compacting with
    | true => exact .inl rfl
    | false =>
        cases hcl : i.closed with
        | true => exact .inl rfl
        | false => exact .inr ⟨rfl, rfl⟩
  cases fileId with
  | error why =>
      obtain h | ⟨-, h⟩ := hreset (throw (randomFailed why)) rfl
      · exact .inl h
      · exact .inl h
  | ok id => exact (hreset (set (i.wiped id)) rfl).imp_right fun h => ⟨h.1, id, h.2⟩

end

theorem check_left (repair : Bool) (copied : Except String Unit) (clock : Clock) (draws : Nat → Draw) (i : Inner) :
    left (check repair copied clock draws) i = left (purgeAllExpired (clock.now 0)) i ∨
      repair = true ∧ left (check repair copied clock draws) i =
        left (repairAll clock draws 0 (left (purgeAllExpired (clock.now 0)) i).corruptedKeys)
          (left (purgeAllExpired (clock.now 0)) i) := by
  cases hp : purgeAllExpired (clock.now 0) i with
  | error e j =>
      rw [left_of_error hp]
      exact .inl (left_bind_error hp)
  | ok u j =>
      rw [left_of_ok hp]
      unfold check
      rw [left_bind_ok hp, left_bind_ok (get_ok.mpr ⟨rfl, rfl⟩)]
      dsimp only
      split
      · rename_i hr
        cases copied with
        | error why => exact .inl rfl
        | ok u =>
            exact .inr ⟨hr.1, left_bind_pure (repairAll clock draws 0 j.corruptedKeys) _ j⟩
      · exact .inl rfl

end

end KivaDb
