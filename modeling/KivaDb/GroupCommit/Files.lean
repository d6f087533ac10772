import KivaDb.GroupCommit.Syncs
import KivaDb.Lib.Runs

namespace KivaDb.GroupCommit

open Format

theorem Rec.len_pos (r : Rec) : 0 < r.len := by
  simp [Rec.len, recHeaderLen]

theorem mem_copyOut {sizes : String → Option Nat} {pos : Nat} {l : List (String × Nat × Rec)} {m : Moved}
    (h : m ∈ (copyOut sizes pos l).1) :
    ∃ r body, (m.key, m.old, r) ∈ l ∧ sizes m.key = some body ∧ m.copy = { r with body } := by
  induction l generalizing pos with
  | nil => cases h
  | cons p l ih =>
      obtain ⟨key, old, r⟩ := p
      rw [copyOut] at h
      split at h
      · obtain ⟨q, body, hmem, hrest⟩ := ih h
        exact ⟨q, body, List.mem_cons_of_mem _ hmem, hrest⟩
      · rename_i body hsize
        rcases List.mem_cons.mp h with rfl | h
        · exact ⟨r, body, List.mem_cons_self, hsize, rfl⟩
        · obtain ⟨q, body', hmem, hrest⟩ := ih h
          exact ⟨q, body', List.mem_cons_of_mem _ hmem, hrest⟩

theorem copyOut_mem {sizes : String → Option Nat} {pos : Nat} {l : List (String × Nat × Rec)} {key : String} {old : Nat}
    {r : Rec} {body : Nat} (h : (key, old, r) ∈ l) (hs : sizes key = some body) :
    ∃ new, ⟨key, old, new, { r with body }⟩ ∈ (copyOut sizes pos l).1 := by
  induction l generalizing pos with
  | nil => cases h
  | cons p l ih =>
      obtain ⟨key', old', r'⟩ := p
      rw [copyOut]
      rcases List.mem_cons.mp h with heq | h
      · cases heq
        rw [hs]
        exact ⟨pos, List.mem_cons_self⟩
      · split
        · exact ih h
        · obtain ⟨new, hmem⟩ := ih h
          exact ⟨new, List.mem_cons_of_mem _ hmem⟩

theorem copyOut_bounds {sizes : String → Option Nat} {pos : Nat} {l : List (String × Nat × Rec)} :
    pos ≤ (copyOut sizes pos l).2 ∧ ∀ m ∈ (copyOut sizes pos l).1, m.new + m.copy.len ≤ (copyOut sizes pos l).2 := by
  induction l generalizing pos with
  | nil => exact ⟨le_rfl, by simp [copyOut]⟩
  | cons p l ih =>
      obtain ⟨key, old, r⟩ := p
      rw [copyOut]
      split
      · exact ih
      · rename_i body hsize
        obtain ⟨hle, hall⟩ := @ih (pos + Rec.len { r with body })
        refine ⟨by simp only; omega, fun m hm => ?_⟩
        rcases List.mem_cons.mp hm with rfl | hm
        · exact hle
        · exact hall m hm

theorem getElem?_indexed (index : Index) (p : Nat × Rec) (k : String) :
    (indexed index p)[k]? = if p.2.key = k then (if p.2.tombstone then none else some p) else index[k]? := by
  rw [indexed]
  split
  · rw [Std.ExtTreeMap.getElem?_erase]
    simp only [Std.compare_eq_iff_eq]
  · rw [Std.ExtTreeMap.getElem?_insert]
    simp only [Std.compare_eq_iff_eq]

/-- The index names, of the keys it has, the last record. -/
structure Sound (recs : Recs) (len stamps : Nat) (index : Index) : Prop where
  within : ∀ p ∈ recs, p.1 + p.2.len ≤ len ∧ p.2.stamp < stamps
  entry : ∀ (k : String) (p : Nat × Rec), index[k]? = some p → p ∈ recs ∧ p.2.key = k ∧ ∀ q ∈ recs, q.2.key = k → q.2.stamp ≤ p.2.stamp

/-- What a view tells of the file it was frozen on, however much was appended
since. -/
structure Seen (v : View) (recs : Recs) (len : Nat) (index : Index) : Prop where
  bound : v.snapLen ≤ len
  entry : ∀ (k : String) (p : Nat × Rec), v.index[k]? = some p → p ∈ recs ∧ p.1 < v.snapLen ∧ p.2.key = k ∧
    ∀ q ∈ recs, q.2.key = k → q.1 < v.snapLen → q.2.stamp ≤ p.2.stamp
  kept : ∀ (k : String) (p : Nat × Rec), index[k]? = some p → p.1 < v.snapLen → v.index[k]? = some p
  later : ∀ p ∈ recs, ∀ q ∈ recs, p.1 < v.snapLen → v.snapLen ≤ q.1 → p.2.stamp < q.2.stamp

section

variable {recs : Recs} {len stamps : Nat} {index : Index} {v : View}

theorem Sound.push (h : Sound recs len stamps index) {r : Rec} (hr : r.stamp = stamps) :
    Sound (recs ++ [(len, r)]) (len + r.len) (stamps + 1) (indexed index (len, r)) := by
  refine ⟨fun p hp => ?_, fun k p hk => ?_⟩
  · rcases List.mem_append.mp hp with hp | hp
    · have := h.within p hp
      omega
    · obtain rfl := List.mem_singleton.mp hp
      simp only
      omega
  · rw [getElem?_indexed] at hk
    by_cases hkey : r.key = k
    · rw [if_pos hkey] at hk
      split at hk
      · cases hk
      · cases hk
        refine ⟨by simp, hkey, fun q hq _ => ?_⟩
        rcases List.mem_append.mp hq with hq | hq
        · have := (h.within q hq).2
          simp only
          omega
        · obtain rfl := List.mem_singleton.mp hq
          rfl
    · rw [if_neg hkey] at hk
      obtain ⟨hp, hpk, hlast⟩ := h.entry k p hk
      refine ⟨List.mem_append_left _ hp, hpk, fun q hq hqk => ?_⟩
      rcases List.mem_append.mp hq with hq | hq
      · exact hlast q hq hqk
      · obtain rfl := List.mem_singleton.mp hq
        exact absurd hqk hkey

theorem Seen.push (h : Seen v recs len index) (hs : Sound recs len stamps index) {r : Rec} (hr : r.stamp = stamps) :
    Seen v (recs ++ [(len, r)]) (len + r.len) (indexed index (len, r)) := by
  have hb := h.bound
  refine ⟨by omega, fun k p hk => ?_, fun k p hk hp => ?_, fun p hp q hq hlt hle => ?_⟩
  · obtain ⟨hp, hlt, hkey, hlast⟩ := h.entry k p hk
    refine ⟨List.mem_append_left _ hp, hlt, hkey, fun q hq hqk hql => ?_⟩
    rcases List.mem_append.mp hq with hq | hq
    · exact hlast q hq hqk hql
    · obtain rfl := List.mem_singleton.mp hq
      simp only at hql
      omega
  · rw [getElem?_indexed] at hk
    split at hk
    · split at hk
      · cases hk
      · cases hk
        simp only at hp
        omega
    · exact h.kept k p hk hp
  · rcases List.mem_append.mp hp with hp | hp
    · rcases List.mem_append.mp hq with hq | hq
      · exact h.later p hp q hq hlt hle
      · obtain rfl := List.mem_singleton.mp hq
        have := (hs.within p hp).2
        simp only
        omega
    · obtain rfl := List.mem_singleton.mp hp
      simp only at hlt
      omega

theorem lengthOf_cons (p : Nat × Rec) (recs : Recs) : lengthOf (p :: recs) = p.2.len + lengthOf recs := by
  simp [lengthOf]

/-- A write leaves the index right. -/
theorem Sound.append (h : Sound recs len stamps index) (ops : List (String × Bool × Nat)) :
    Sound (recs ++ place len stamps ops) (len + lengthOf (place len stamps ops)) (stamps + ops.length)
      ((place len stamps ops).foldl indexed index) := by
  induction ops generalizing recs len stamps index with
  | nil => simpa [place, lengthOf] using h
  | cons op ops ih =>
      obtain ⟨key, tombstone, body⟩ := op
      have hnext := ih (h.push (r := ⟨key, stamps, tombstone, body⟩) rfl)
      rw [place, lengthOf_cons, List.foldl_cons, List.length_cons, ← Nat.add_assoc, Nat.add_comm ops.length,
        ← Nat.add_assoc]
      rw [List.append_assoc, List.singleton_append] at hnext
      exact hnext

theorem Seen.append (h : Seen v recs len index) (hs : Sound recs len stamps index) (ops : List (String × Bool × Nat)) :
    Seen v (recs ++ place len stamps ops) (len + lengthOf (place len stamps ops))
      ((place len stamps ops).foldl indexed index) := by
  induction ops generalizing recs len stamps index with
  | nil => simpa [place, lengthOf] using h
  | cons op ops ih =>
      obtain ⟨key, tombstone, body⟩ := op
      have hnext := ih (h.push hs (r := ⟨key, stamps, tombstone, body⟩) rfl) (hs.push rfl)
      rw [place, lengthOf_cons, List.foldl_cons, ← Nat.add_assoc]
      rw [List.append_assoc, List.singleton_append] at hnext
      exact hnext

theorem getElem?_of_erase {k key : String} {p : Nat × Rec} (h : (index.erase key)[k]? = some p) : index[k]? = some p := by
  rw [Std.ExtTreeMap.getElem?_erase] at h
  split at h
  · cases h
  · exact h

theorem getElem?_of_eraseAll {keys : List String} {k : String} {p : Nat × Rec}
    (h : (keys.foldl (fun i k => i.erase k) index)[k]? = some p) : index[k]? = some p := by
  induction keys generalizing index with
  | nil => exact h
  | cons key keys ih => exact getElem?_of_erase (ih h)

/-- An index that names less. -/
theorem Sound.fewer (h : Sound recs len stamps index) {index' : Index}
    (hsub : ∀ (k : String) (p : Nat × Rec), index'[k]? = some p → index[k]? = some p) : Sound recs len stamps index' :=
  ⟨h.within, fun k p hk => h.entry k p (hsub k p hk)⟩

theorem Seen.fewer (h : Seen v recs len index) {index' : Index}
    (hsub : ∀ (k : String) (p : Nat × Rec), index'[k]? = some p → index[k]? = some p) : Seen v recs len index' :=
  ⟨h.bound, h.entry, fun k p hk => h.kept k p (hsub k p hk), h.later⟩

/-- A view is frozen. -/
theorem Sound.freeze (h : Sound recs len stamps index) (oldId : Nat) (synced : Bool) :
    Seen ⟨index, len, oldId, synced⟩ recs len index := by
  have hall : ∀ p ∈ recs, p.1 < len := by
    intro p hp
    have := (h.within p hp).1
    have := p.2.len_pos
    omega
  refine ⟨le_rfl, fun k p hk => ?_, fun k p hk _ => hk, fun p _ q hq _ hle => ?_⟩
  · obtain ⟨hp, hkey, hlast⟩ := h.entry k p hk
    exact ⟨hp, hall p hp, hkey, fun q hq hqk _ => hlast q hq hqk⟩
  · exact absurd (hall q hq) (Nat.not_lt.mpr hle)

end

/-- The record was appended after the view, or the view named it and it could be
read. -/
def Copy.holds (c : Copy) (p : Nat × Rec) : Prop :=
  c.view.snapLen ≤ p.1 ∨ c.view.index[p.2.key]? = some p ∧ (c.sizes p.2.key).isSome

/-- What a new file has of a record of the file it replaced: the record, or else
no older record of its key. -/
structure Swap.Keeps (x : Swap) (p : Nat × Rec) : Prop where
  held : x.copy.holds p → ∃ q ∈ x.new, q.2.key = p.2.key ∧ q.2.stamp = p.2.stamp
  older : ¬ x.copy.holds p → ∀ q ∈ x.new, q.2.key = p.2.key → p.2.stamp ≤ q.2.stamp

/-- The copies are those of the view. -/
def Copy.Made (c : Copy) : Prop := copyOut c.sizes fileHeaderLen c.view.index.toList = (c.moved, c.pos)

section

variable {recs : Recs} {len stamps : Nat} {index : Index} {c : Copy}

theorem Copy.Made.mem_moved (h : c.Made) {m : Moved} (hm : m ∈ c.moved) :
    ∃ r body, c.view.index[m.key]? = some (m.old, r) ∧ c.sizes m.key = some body ∧ m.copy = { r with body } := by
  have hmem : m ∈ (copyOut c.sizes fileHeaderLen c.view.index.toList).1 := by
    rw [h]
    exact hm
  obtain ⟨r, body, hl, hs, hc⟩ := mem_copyOut hmem
  exact ⟨r, body, Std.ExtTreeMap.mem_toList_iff_getElem?_eq_some.mp hl, hs, hc⟩

theorem mem_tail {q : Nat × Rec} :
    q ∈ c.tail recs ↔ ∃ o, (o, q.2) ∈ recs ∧ c.view.snapLen ≤ o ∧ q.1 = o - c.view.snapLen + c.pos := by
  simp only [Copy.tail, List.mem_map, List.mem_filter, decide_eq_true_eq]
  constructor
  · rintro ⟨⟨o, r⟩, ⟨hmem, hle⟩, rfl⟩
    exact ⟨o, hmem, hle, rfl⟩
  · rintro ⟨o, hmem, hle, heq⟩
    exact ⟨(o, q.2), ⟨hmem, hle⟩, Prod.ext heq.symm rfl⟩

/-- Every record of the new file comes from one of the old file. -/
theorem Seen.from_old (h : Seen c.view recs len index) (hc : c.Made) {q : Nat × Rec} (hq : q ∈ c.records recs) :
    ∃ p ∈ recs, p.2.key = q.2.key ∧ p.2.stamp = q.2.stamp ∧
      (c.view.snapLen ≤ p.1 ∨ c.view.index[q.2.key]? = some p) := by
  rcases List.mem_append.mp hq with hq | hq
  · obtain ⟨m, hm, rfl⟩ := List.mem_map.mp hq
    obtain ⟨r, body, hview, -, hcopy⟩ := hc.mem_moved hm
    obtain ⟨hmem, -, hkey, -⟩ := h.entry m.key (m.old, r) hview
    have hkey' : m.copy.key = m.key := by rw [hcopy, ← hkey]
    refine ⟨(m.old, r), hmem, ?_, ?_, .inr ?_⟩
    · simp only [hcopy]
    · simp only [hcopy]
    · simp only [hkey']
      exact hview
  · obtain ⟨o, hmem, hle, -⟩ := mem_tail.mp hq
    exact ⟨(o, q.2), hmem, rfl, rfl, .inl hle⟩

theorem Seen.keeps (h : Seen c.view recs len index) (hc : c.Made) {newLen : Nat} {p : Nat × Rec} (hp : p ∈ recs) :
    Swap.Keeps ⟨c, recs, c.records recs, newLen⟩ p := by
  refine ⟨fun hheld => ?_, fun hnot q hq hkey => ?_⟩
  · rcases hheld with hle | ⟨hview, hsome⟩
    · refine ⟨(p.1 - c.view.snapLen + c.pos, p.2), List.mem_append_right _ (mem_tail.mpr ⟨p.1, hp, hle, rfl⟩), rfl, rfl⟩
    · obtain ⟨body, hbody⟩ := Option.isSome_iff_exists.mp hsome
      obtain ⟨new, hmem⟩ := copyOut_mem (r := p.2)
        (Std.ExtTreeMap.mem_toList_iff_getElem?_eq_some.mpr hview) hbody
      rw [hc] at hmem
      exact ⟨_, List.mem_append_left _ (List.mem_map.mpr ⟨_, hmem, rfl⟩), rfl, rfl⟩
  · have hlt : p.1 < c.view.snapLen := by
      by_contra hle
      exact hnot (.inl (Nat.not_lt.mp hle))
    obtain ⟨p', hp', hkey', hstamp, hwhere⟩ := h.from_old hc hq
    rw [← hstamp]
    rcases hwhere with hle | hview
    · exact (h.later p hp p' hp' hlt hle).le
    · exact (h.entry _ p' hview).2.2.2 p hp hkey.symm hlt

theorem Sound.swap (hs : Sound recs len stamps index) (h : Seen c.view recs len index) (hc : c.Made) :
    Sound (c.records recs) (c.pos + (len - c.view.snapLen)) stamps (index.filterMap c.reindex) := by
  have hlast : ∀ (k : String) (p : Nat × Rec), index[k]? = some p → ∀ q ∈ c.records recs, q.2.key = k →
      q.2.stamp ≤ p.2.stamp := by
    intro k p hk q hq hqk
    obtain ⟨p', hp', hkey, hstamp, -⟩ := h.from_old hc hq
    rw [← hstamp]
    exact (hs.entry k p hk).2.2 p' hp' (hkey.trans hqk)
  refine ⟨fun q hq => ⟨?_, ?_⟩, fun k q hk => ?_⟩
  · rcases List.mem_append.mp hq with hq | hq
    · obtain ⟨m, hm, rfl⟩ := List.mem_map.mp hq
      have hle : m.new + m.copy.len ≤ c.pos := by
        have hmem : m ∈ (copyOut c.sizes fileHeaderLen c.view.index.toList).1 := by
          rw [hc]
          exact hm
        have hbound := copyOut_bounds.2 m hmem
        rw [hc] at hbound
        exact hbound
      simp only
      omega
    · obtain ⟨o, hmem, hle, heq⟩ := mem_tail.mp hq
      have hin : o + q.2.len ≤ len := (hs.within _ hmem).1
      omega
  · obtain ⟨p', hp', -, hstamp, -⟩ := h.from_old hc hq
    rw [← hstamp]
    exact (hs.within p' hp').2
  · rw [Std.ExtTreeMap.getElem?_filterMap', Option.bind_eq_some_iff] at hk
    obtain ⟨p, hp, hre⟩ := hk
    rw [Copy.reindex] at hre
    split at hre
    · rename_i hle
      cases hre
      refine ⟨List.mem_append_right _ (mem_tail.mpr ⟨p.1, (hs.entry k p hp).1, hle, rfl⟩), (hs.entry k p hp).2.1, ?_⟩
      exact hlast k p hp
    · rename_i hlt
      obtain ⟨m, hfind, rfl⟩ := Option.map_eq_some_iff.mp hre
      have hm := List.mem_of_find?_eq_some hfind
      have hprop := List.find?_some hfind
      simp only [Bool.and_eq_true, decide_eq_true_eq] at hprop
      obtain ⟨r, body, hview, -, hcopy⟩ := hc.mem_moved hm
      have hsame := h.kept k p hp (by omega)
      rw [hprop.1, hsame] at hview
      obtain rfl : p = (m.old, r) := Option.some.inj hview
      refine ⟨List.mem_append_left _ (List.mem_map.mpr ⟨m, hm, rfl⟩), ?_, fun q hq hqk => ?_⟩
      · simp only [hcopy]
        exact (hs.entry k _ hp).2.1
      · simp only [hcopy]
        exact hlast k _ hp q hq hqk

end

end KivaDb.GroupCommit
