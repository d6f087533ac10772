import KivaDb.Txn.Effects

namespace KivaDb

open Lib.LittleEndian Lib.Fallible Format Crypt Relation

section

variable [External] [Chrono] [Vectors]

namespace Inner

theorem le_length_raiseFormat (i : Inner) (need : UInt32) : i.file.length ≤ (i.raiseFormat need).file.length := by
  unfold raiseFormat
  split
  · simp only [List.length_append, List.length_take, List.length_drop, length_le32]
    omega
  · exact Nat.le_refl _

theorem le_length_extend (i : Inner) (buf : Bytes) : i.file.length ≤ (i.extend buf).file.length := by
  have h := le_length_raiseFormat i (formatNeeded buf)
  simp only [extend, List.length_append]
  omega

theorem drop_frame (i : Inner) (dead : List String) :
    i.drop dead = { i with table := (i.drop dead).table, sec := (i.drop dead).sec, vecs := (i.drop dead).vecs } := by
  induction dead generalizing i with
  | nil => rfl
  | cons k dead ih =>
      have hk := idxRemove_frame i k
      have h := ih (i.idxRemove k)
      rw [show i.drop (k :: dead) = (i.idxRemove k).drop dead from rfl, h, hk]

end Inner

namespace Txn

/-- A compaction is at work: what it has copied, and what it is to copy, is what
the index lists, as long as it lists a record of the frozen view. -/
structure Copies (i : Inner) (c : Copying) : Prop where
  running : i.compacting = true
  len : c.snapLen ≤ i.file.length
  moved : ∀ (k : String) (p : Nat × Entry), c.moved[k]? = some p → ∀ cur : Entry, i.index[k]? = some cur →
    cur.offset = p.1 → cur.offset < c.snapLen → p.2.expiresAt = cur.expiresAt
  todo : ∀ p ∈ c.todo, ∀ cur : Entry, i.index[p.1]? = some cur →
    cur.offset = p.2.offset → cur.offset < c.snapLen → p.2.expiresAt = cur.expiresAt

variable {i i' : Inner} {c c' : Copying}

/-- Records are only added behind those there are. -/
theorem Copies.keeps (h : Copies i c) (hrun : i'.compacting = i.compacting) (hlen : i.file.length ≤ i'.file.length)
    (hix : ∀ (k : String) (e : Entry), i'.index[k]? = some e → i.index[k]? = some e ∨ i.file.length ≤ e.offset) :
    Copies i' c where
  running := hrun.trans h.running
  len := h.len.trans hlen
  moved k p hp cur hcur ho hlt := by
    rcases hix k cur hcur with hold | hnew
    · exact h.moved k p hp cur hold ho hlt
    · exact absurd (h.len.trans hnew) (Nat.not_le.mpr hlt)
  todo p hp cur hcur ho hlt := by
    rcases hix p.1 cur hcur with hold | hnew
    · exact h.todo p hp cur hold ho hlt
    · exact absurd (h.len.trans hnew) (Nat.not_le.mpr hlt)

theorem Copies.drops {K : String → Prop} {t : Int64} (h : Copies i c) (hd : ReflTransGen (DropOf K t) i i') :
    Copies i' c := by
  have hfr := DropOf.frame_star hd
  refine h.keeps (by rw [hfr]) (by rw [hfr]) fun k e he => ?_
  rcases DropOf.index_star hd k with hk | hk
  · exact .inl (hk ▸ he)
  · rw [hk.1] at he
    exact absurd he (by simp)

theorem Copies.repaired (h : Copies i c) (rec : Bytes) (key : String) : Copies ((i.extend rec).repaired key) c := by
  have hfr := Inner.idxRemove_frame { i.extend rec with seq := (i.extend rec).seq + 1 } key
  refine h.keeps ?_ ?_ fun k e he => .inl ?_
  · rw [Inner.repaired, Inner.emit, hfr, Inner.extend, Inner.raiseFormat_eq]
  · rw [Inner.repaired, Inner.emit, hfr]
    exact Inner.le_length_extend i rec
  · have hix := Inner.getElem?_idxRemove { i.extend rec with seq := (i.extend rec).seq + 1 } key k
    rw [show ((i.extend rec).repaired key).index[k]? = if key = k then none else (i.extend rec).index[k]? from hix] at he
    split at he
    · simp at he
    · rw [Inner.index_extend] at he
      exact he

theorem Copies.frame (h : Copies i c) (hix : i'.index = i.index) (hrun : i'.compacting = i.compacting)
    (hlen : i.file.length ≤ i'.file.length) : Copies i' c :=
  h.keeps hrun hlen fun _ _ he => .inl (hix ▸ he)

end Txn

omit [Chrono] [Vectors] in
theorem rewrite_expiresAt {c : Copying} {keys : Option Keys} {key : String} {e ne : Entry} {rec rec' : Bytes}
    {nonce : Draw} (h : c.rewrite keys key e rec nonce = .ok (some (rec', ne))) : ne.expiresAt = e.expiresAt := by
  unfold Copying.rewrite at h
  dsimp only at h
  split at h
  · split at h
    · simp at h
    · split at h
      · simp at h
      · obtain ⟨r, -, h⟩ := except_bind_ok.mp h
        simp only [Except.ok.injEq, Option.some.injEq, Prod.mk.injEq] at h
        rw [← h.2]
  · simp only [Except.ok.injEq, Option.some.injEq, Prod.mk.injEq] at h
    rw [← h.2]

namespace Txn

variable {i i' : Inner} {c c' : Copying}

/-- Copying a record: it is dropped, or moved with its deadline. -/
theorem next_cases {nonce : Draw} (h : c.next i nonce = .ok c') :
    c' = c ∨ ∃ key e todo, c.todo = (key, e) :: todo ∧
      (c' = { c with todo, dropped := c.dropped + 1 } ∨
        ∃ out ne, ne.expiresAt = e.expiresAt ∧ c' = { c with todo, out, moved := c.moved.insert key (e.offset, ne) }) := by
  unfold Copying.next at h
  split at h
  · exact .inl (Except.ok.inj h).symm
  · rename_i key e todo htodo
    refine .inr ⟨key, e, todo, htodo, ?_⟩
    dsimp only at h
    split at h
    · exact .inl (Except.ok.inj h).symm
    · split at h
      · obtain ⟨r, hr, h⟩ := except_bind_ok.mp h
        cases r with
        | none => exact .inl (Except.ok.inj h).symm
        | some p =>
            have hx := rewrite_expiresAt hr
            exact .inr ⟨c.out ++ p.1, { p.2 with offset := c.out.length }, hx, (Except.ok.inj h).symm⟩
      · exact .inl (Except.ok.inj h).symm

theorem Copies.next {nonce : Draw} (h : Copies i c) (hn : c.next i nonce = .ok c') : Copies i c' := by
  obtain rfl | ⟨key, e, todo, htodo, rfl | ⟨out, ne, hx, rfl⟩⟩ := next_cases hn
  · exact h
  · exact { h with todo := fun p hp => h.todo p (htodo ▸ List.mem_cons_of_mem _ hp) }
  · refine { h with moved := ?_, todo := fun p hp => h.todo p (htodo ▸ List.mem_cons_of_mem _ hp) }
    intro k p hp cur hcur ho hlt
    have hins : (c.moved.insert key (e.offset, ne))[k]? = if key = k then some (e.offset, ne) else c.moved[k]? := by
      rw [Std.ExtTreeMap.getElem?_insert]
      simp only [Std.compare_eq_iff_eq]
    rw [hins] at hp
    split at hp
    · rename_i hk
      obtain rfl := Option.some.inj hp
      exact hx.trans (h.todo (key, e) (htodo ▸ List.mem_cons_self) cur (hk ▸ hcur) ho hlt)
    · exact h.moved k p hp cur hcur ho hlt

/-- Where an entry is found in the new file, it is what it was. -/
theorem relocate_some {k : String} {cur e : Entry} (h : Copies i c) (hcur : i.index[k]? = some cur)
    (hr : c.relocate k cur = some e) : e.version = cur.version ∧ e.expiresAt = cur.expiresAt := by
  unfold Copying.relocate at hr
  split at hr
  · obtain rfl := Option.some.inj hr
    exact ⟨rfl, rfl⟩
  · rename_i hlt
    obtain ⟨p, hp, rfl⟩ := Option.map_eq_some_iff.mp hr
    obtain ⟨hm, ho⟩ := Option.filter_eq_some_iff.mp hp
    have hoff : p.1 = cur.offset := by simpa using ho
    exact ⟨rfl, h.moved k p hm cur hcur hoff.symm (Nat.not_le.mp hlt)⟩

omit [External] [Chrono] [Vectors] in
theorem mem_lost {ix : Index} {k : String} {cur : Entry} (hcur : ix[k]? = some cur) (hr : c.relocate k cur = none) :
    k ∈ c.lost ix := by
  refine List.mem_map.mpr ⟨(k, cur), List.mem_filter.mpr ⟨?_, by simp [hr]⟩, rfl⟩
  exact Std.ExtTreeMap.mem_toList_iff_getElem?_eq_some.mpr hcur

theorem index_replaced (i : Inner) (c : Copying) (k : String) :
    (i.replaced c).index[k]? = (i.index[k]?).bind (c.relocate k) := Std.ExtTreeMap.getElem?_filterMap'

/-- A key keeps its version and its deadline, or is lost. -/
theorem index_replaced_cases (h : Copies i c) (k : String) :
    (i.replaced c).dated k = i.dated k ∨
      (i.replaced c).index[k]? = none ∧ ∃ e, i.index[k]? = some e ∧ k ∈ c.lost i.index := by
  have hix := index_replaced i c k
  cases hcur : i.index[k]? with
  | none =>
      rw [hcur] at hix
      exact .inl ((Inner.dated_eq_none.mpr hix).trans (Inner.dated_eq_none.mpr hcur).symm)
  | some cur =>
      rw [hcur] at hix
      cases hr : c.relocate k cur with
      | none => exact .inr ⟨hix.trans hr, cur, rfl, mem_lost hcur hr⟩
      | some e =>
          obtain ⟨hv, hx⟩ := relocate_some h hcur hr
          rw [Inner.dated_of_index (hix.trans hr), Inner.dated_of_index hcur, hv, hx]
          exact .inl rfl

theorem replaced_frame (i : Inner) (c : Copying) :
    (i.replaced c).tombVersions = i.tombVersions ∧ (i.replaced c).resetSeq = i.resetSeq ∧
      (i.replaced c).seq = i.seq ∧ (i.replaced c).emitted = i.emitted ∧ (i.replaced c).activeTxns = i.activeTxns := by
  rw [Inner.replaced, Inner.drop_frame]
  exact ⟨rfl, rfl, rfl, rfl, rfl⟩

theorem dated_replaced (hi : i.Dated) (h : Copies i c) : (i.replaced c).Dated := by
  obtain ⟨htomb, hreset, hseq, -, -⟩ := replaced_frame i c
  constructor
  · intro k e he
    rw [hseq]
    rcases index_replaced_cases h k with hd | ⟨hn, -⟩
    · rw [Inner.dated_of_index he] at hd
      obtain ⟨e₀, he₀, hv⟩ := Option.map_eq_some_iff.mp hd.symm
      have hve : e₀.version = e.version := congrArg Prod.fst hv
      exact hve ▸ hi.entry k e₀ he₀
    · rw [hn] at he
      exact absurd he (by simp)
  · intro k v hv
    rw [hseq]
    exact hi.tomb k v (htomb ▸ hv)
  · rw [hreset, hseq]
    exact hi.reset

theorem Traces.replaced {latest : Int64} {m : Mark} (ht : Traces latest i m) (h : Copies i c)
    (hb : ∀ k ∈ c.lost i.index, ∀ e ∈ i.index[k]?,
      (m.blind k = true → e.version ≤ m.start.seq) ∧ (m.found k = true → m.start.seq < e.version)) :
    Traces latest (i.replaced c) m := by
  obtain ⟨htomb, hreset, hseq, hem, -⟩ := replaced_frame i c
  refine ht.advance (Int64.le_refl _) (by rw [hem, List.append_nil]) hseq.ge (.inl hreset) fun k => ?_
  rcases index_replaced_cases h k with hd | ⟨hn, e, he, hl⟩
  · exact .same (by simp) hd (by rw [htomb])
  · obtain ⟨hbl, hf⟩ := hb k hl e he
    exact .gone (by simp) he hn (by rw [htomb]) hbl fun hfk => .inl (hf hfk)

theorem swap_left (c : Copying) (written : Except String Unit) (i : Inner) :
    left (swap c written) i = { i with compacting := false } ∨ left (swap c written) i = i.replaced c := by
  unfold swap
  rw [left_bind_ok (get_ok.mpr ⟨rfl, rfl⟩)]
  split
  · exact .inl rfl
  · cases written with
    | error why => exact .inl rfl
    | ok u => exact .inr rfl

/-- Freezing the view drops what has expired and takes the index as it is
then. -/
theorem freeze_ok {recompress : Option Compression} {newId : Except String UInt64} {now : Int64}
    (h : freeze recompress newId now i = .ok c i') :
    i.compacting = false ∧ Copies i' c ∧ ∃ j comp, ReflTransGen (Drop now) i j ∧
      i' = { j with compression := comp, compacting := true } := by
  obtain ⟨i₀, _, hg, h⟩ := bind_ok.mp h
  obtain ⟨rfl, rfl⟩ := get_ok.mp hg
  split at h
  · simp at h
  · rename_i hrun
    split at h
    · simp at h
    · obtain ⟨_, j, hp, h⟩ := bind_ok.mp h
      obtain ⟨_, _, hm, h⟩ := bind_ok.mp h
      obtain rfl := modify_ok.mp hm
      cases newId with
      | error why => simp at h
      | ok id =>
          obtain ⟨_, _, hm, h⟩ := bind_ok.mp h
          obtain rfl := modify_ok.mp hm
          obtain ⟨i₁, _, hg, h⟩ := bind_ok.mp h
          obtain ⟨rfl, rfl⟩ := get_ok.mp hg
          obtain ⟨rfl, rfl⟩ := pure_ok.mp h
          refine ⟨by simpa using hrun, ⟨rfl, Nat.le_refl _, ?_, ?_⟩, j, _, (within_purgeAllExpired now).ok hp, rfl⟩
          · intro k p hp
            rw [Std.ExtTreeMap.getElem?_empty] at hp
            exact absurd hp (by simp)
          · intro p hp cur hcur _ _
            have hix := Std.ExtTreeMap.mem_toList_iff_getElem?_eq_some.mp hp
            obtain rfl := Option.some.inj (hix.symm.trans hcur)
            rfl

theorem freeze_error {recompress : Option Compression} {newId : Except String UInt64} {now : Int64} {err : KivaError}
    (h : freeze recompress newId now i = .error err i') :
    ∃ j comp, ReflTransGen (Drop now) i j ∧ i' = { j with compression := comp } := by
  rcases bind_error.mp h with h | ⟨i₀, _, hg, h⟩
  · simp at h
  · obtain ⟨rfl, rfl⟩ := get_ok.mp hg
    split at h
    · obtain ⟨-, rfl⟩ := throw_error.mp h
      exact ⟨i, i.compression, .refl, rfl⟩
    · split at h
      · obtain ⟨-, rfl⟩ := throw_error.mp h
        exact ⟨i, i.compression, .refl, rfl⟩
      · rcases bind_error.mp h with h | ⟨_, j, hp, h⟩
        · exact ⟨i', i'.compression, (within_purgeAllExpired now).error h, rfl⟩
        · have hd := (within_purgeAllExpired now).ok hp
          rcases bind_error.mp h with h | ⟨_, _, hm, h⟩
          · simp at h
          · obtain rfl := modify_ok.mp hm
            cases newId with
            | error why =>
                obtain ⟨-, rfl⟩ := throw_error.mp h
                exact ⟨j, _, hd, rfl⟩
            | ok id =>
                rcases bind_error.mp h with h | ⟨_, _, -, h⟩
                · simp at h
                · rcases bind_error.mp h with h | ⟨_, _, -, h⟩
                  · simp at h
                  · simp at h

end Txn

end

section

variable [External] [Chrono] [Vectors] [Codec]

theorem Txn.Copies.commit {i : Inner} {c : Copying} (h : Copies i c) (recs : List (Staged × Bytes)) :
    Copies (i.commit recs) c := by
  have hfile : (i.commit recs).file = (i.extend (recs.flatMap Prod.snd)).file := by
    rw [Inner.commit, Inner.applyAllStaged_frame]
  refine h.keeps (by rw [Inner.commit_frame]) ?_ fun k e he => ?_
  · rw [hfile]
    exact Inner.le_length_extend i _
  · rcases Inner.index_commit he with he | ⟨pre, p, post, e', -, -, -, rfl⟩
    · exact .inl he
    · have hle := Inner.le_length_raiseFormat i (formatNeeded (recs.flatMap Prod.snd))
      exact .inr (hle.trans (Nat.le_add_right _ _))

end

end KivaDb
