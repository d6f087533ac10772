import KivaDb.Engine.Acts
import KivaDb.Txn.Opens

namespace KivaDb

open Lib.LittleEndian Lib.Fallible Crypt Relation

section

variable [External] [Chrono] [Vectors]

/-- Whether the mutation is one of `key`. -/
def Op.touches : Op → String → Bool
  | .set k _ _ _ _ _ _, key => k == key
  | .del k, key => k == key
  | .reset, _ => true

namespace Inner

/-- The version and the deadline of a key. -/
def dated (i : Inner) (key : String) : Option (Nat × Int64) := (i.index[key]?).map fun e => (e.version, e.expiresAt)

theorem dated_eq_none {i : Inner} {key : String} : i.dated key = none ↔ i.index[key]? = none := by
  simp [dated]

theorem dated_of_index {i : Inner} {key : String} {e : Entry} (he : i.index[key]? = some e) :
    i.dated key = some (e.version, e.expiresAt) := by
  rw [dated, he]
  rfl

theorem versionOf_eq (i : Inner) (key : String) :
    i.versionOf key = (((i.dated key).map Prod.fst).or i.tombVersions[key]?).getD 0 := by
  simp [versionOf, dated, Function.comp_def]

theorem versionOf_congr {i i' : Inner} {key : String} (hd : i'.dated key = i.dated key)
    (ht : i'.tombVersions[key]? = i.tombVersions[key]?) : i'.versionOf key = i.versionOf key := by
  rw [versionOf_eq, versionOf_eq, hd, ht]

theorem versionOf_of_index {i : Inner} {key : String} {e : Entry} (he : i.index[key]? = some e) :
    i.versionOf key = e.version := by
  simp [versionOf, he]

/-- Every version that is known has been given out. -/
structure Dated (i : Inner) : Prop where
  entry : ∀ (k : String) (e : Entry), i.index[k]? = some e → e.version ≤ i.seq
  tomb : ∀ (k : String) (v : Nat), i.tombVersions[k]? = some v → v ≤ i.seq
  reset : i.resetSeq ≤ i.seq

end Inner

namespace Txn

/-- What listeners were told since `start`. -/
def news (start i : Inner) : List Op := i.emitted.drop start.emitted.length

/-- A mutation of `key` was told since `start`. -/
def Told (start i : Inner) (key : String) : Prop := ∃ op ∈ news start i, op.touches key = true

theorem news_append {start i i' : Inner} {ops : List Op} (hp : start.emitted <+: i.emitted)
    (h : i'.emitted = i.emitted ++ ops) : news start i' = news start i ++ ops := by
  rw [news, news, h, List.drop_append_of_le_length hp.length_le]

/-- What is known of `key` gives a change of it away to the mark. -/
def Mark.Knows (m : Mark) (i : Inner) (key : String) : Prop :=
  m.start.seq < i.versionOf key ∨ m.start.seq < i.resetSeq ∨ m.blind key = false ∧ i.index[key]? = none

/-- What holds of a mark as long as it is open, `latest` being the last reading
of the clock. -/
structure Traces (latest : Int64) (i : Inner) (m : Mark) : Prop where
  since : ∀ w ∈ m.watched, w.since = m.start.seq
  told : m.start.emitted <+: i.emitted
  seq : m.start.seq ≤ i.seq
  entry : ∀ (k : String) (e : Entry), i.index[k]? = some e → m.start.seq < e.version → Told m.start i k
  tomb : ∀ (k : String) (v : Nat), i.tombVersions[k]? = some v → m.start.seq < v → Told m.start i k
  reset : m.start.seq < i.resetSeq → Op.reset ∈ news m.start i
  known : ∀ k : String, Told m.start i k → m.Knows i k
  found : ∀ w ∈ m.watched, w.existed = true → Told m.start i w.key ∨
    ∃ e, m.start.index[w.key]? = some e ∧
      ((∃ v, i.dated w.key = some (v, e.expiresAt)) ∨ e.isExpired latest = true)

/-- What a step that tells `ops` may do to a key under the eyes of the mark `m`:
a change is told and known, nothing happens to it, or its entry goes and the
mark neither misses a change nor sees one. -/
inductive Treated (m : Mark) (latest : Int64) (ops : List Op) (i i' : Inner) (k : String) : Prop
  | told {op : Op} (hop : op ∈ ops) (ht : op.touches k = true) (hk : m.Knows i' k)
  | same (hq : ∀ op ∈ ops, op.touches k = false) (hd : i'.dated k = i.dated k)
      (ht : i'.tombVersions[k]? = i.tombVersions[k]?)
  | gone {e : Entry} (hq : ∀ op ∈ ops, op.touches k = false) (he : i.index[k]? = some e) (hn : i'.index[k]? = none)
      (ht : i'.tombVersions[k]? = i.tombVersions[k]?) (hb : m.blind k = true → e.version ≤ m.start.seq)
      (hf : m.found k = true → m.start.seq < e.version ∨ e.isExpired latest = true)

theorem Mark.found_of {m : Mark} {w : WatchedKey} (hw : w ∈ m.watched) (he : w.existed = true) :
    m.found w.key = true := by
  obtain ⟨start, watched⟩ := m
  obtain rfl : watched = some w := hw
  simp [found, he]

/-- One step, key by key. -/
theorem Traces.advance {m : Mark} {latest latest' : Int64} {i i' : Inner} {ops : List Op} (h : Traces latest i m)
    (hlat : latest ≤ latest') (hem : i'.emitted = i.emitted ++ ops) (hseq : i.seq ≤ i'.seq)
    (hreset : i'.resetSeq = i.resetSeq ∨ Op.reset ∈ ops ∧ i.resetSeq ≤ i'.resetSeq)
    (hkeys : ∀ k, Treated m latest' ops i i' k) : Traces latest' i' m := by
  have hnews := news_append h.told hem
  have hmono {k : String} (ht : Told m.start i k) : Told m.start i' k := by
    obtain ⟨op, hop, ht⟩ := ht
    exact ⟨op, hnews ▸ List.mem_append_left _ hop, ht⟩
  have hnew {k : String} {op : Op} (hop : op ∈ ops) (ht : op.touches k = true) : Told m.start i' k :=
    ⟨op, hnews ▸ List.mem_append_right _ hop, ht⟩
  have hold {k : String} (hq : ∀ op ∈ ops, op.touches k = false) (ht : Told m.start i' k) : Told m.start i k := by
    obtain ⟨op, hop, ht⟩ := ht
    rcases List.mem_append.mp (hnews ▸ hop) with hop | hop
    · exact ⟨op, hop, ht⟩
    · rw [hq op hop] at ht
      exact absurd ht (by simp)
  have hrle : i.resetSeq ≤ i'.resetSeq := by
    rcases hreset with he | ⟨-, hle⟩
    · rw [he]
    · exact hle
  constructor
  case since => exact h.since
  case told => exact h.told.trans ⟨ops, hem.symm⟩
  case seq => exact h.seq.trans hseq
  case entry =>
      intro k e he hv
      cases hkeys k with
      | told hop ht hk => exact hnew hop ht
      | same hq hd ht =>
          obtain ⟨e₀, he₀, hv₀⟩ := Option.map_eq_some_iff.mp (hd.symm.trans (Inner.dated_of_index he))
          have hve : e₀.version = e.version := congrArg Prod.fst hv₀
          exact hmono (h.entry k e₀ he₀ (hve ▸ hv))
      | gone hq he₀ hn ht hb hf =>
          rw [hn] at he
          exact absurd he (by simp)
  case tomb =>
      intro k v hv hlt
      cases hkeys k with
      | told hop ht hk => exact hnew hop ht
      | same hq hd ht => exact hmono (h.tomb k v (ht ▸ hv) hlt)
      | gone hq he₀ hn ht hb hf => exact hmono (h.tomb k v (ht ▸ hv) hlt)
  case reset =>
      intro hlt
      rcases hreset with he | ⟨hop, -⟩
      · rw [hnews]
        exact List.mem_append_left _ (h.reset (he ▸ hlt))
      · rw [hnews]
        exact List.mem_append_right _ hop
  case known =>
      intro k ht'
      cases hkeys k with
      | told hop ht hk => exact hk
      | same hq hd ht =>
          rcases h.known k (hold hq ht') with hv | hr | ⟨hb, hn⟩
          · exact .inl (by rw [Inner.versionOf_congr hd ht]; exact hv)
          · exact .inr (.inl (hr.trans_le hrle))
          · exact .inr (.inr ⟨hb, Inner.dated_eq_none.mp (hd.trans (Inner.dated_eq_none.mpr hn))⟩)
      | gone hq he₀ hn ht hb hf =>
          rcases h.known k (hold hq ht') with hv | hr | ⟨hb', hn'⟩
          · refine .inr (.inr ⟨?_, hn⟩)
            rw [Inner.versionOf_of_index he₀] at hv
            exact Bool.eq_false_iff.mpr fun hbt => absurd (hb hbt) (Nat.not_le.mpr hv)
          · exact .inr (.inl (hr.trans_le hrle))
          · rw [hn'] at he₀
            exact absurd he₀ (by simp)
  case found =>
      intro w hw hex
      cases hkeys w.key with
      | told hop ht hk => exact .inl (hnew hop ht)
      | same hq hd ht =>
          rcases h.found w hw hex with hto | ⟨e, he, hcase⟩
          · exact .inl (hmono hto)
          · refine .inr ⟨e, he, ?_⟩
            rcases hcase with ⟨v, hv⟩ | hx
            · exact .inl ⟨v, hd.trans hv⟩
            · exact .inr (Entry.isExpired_mono hlat hx)
      | gone hq he₀ hn ht hb hf =>
          rcases h.found w hw hex with hto | ⟨e, he, hcase⟩
          · exact .inl (hmono hto)
          · rcases hcase with ⟨v, hv⟩ | hx
            · rcases hf (Mark.found_of hw hex) with hlt | hx
              · exact .inl (hmono (h.entry _ _ he₀ hlt))
              · refine .inr ⟨e, he, .inr ?_⟩
                obtain ⟨-, hxe⟩ := Prod.mk.inj (Option.some.inj ((Inner.dated_of_index he₀).symm.trans hv))
                simp only [Entry.isExpired] at hx ⊢
                rw [← hxe]
                exact hx
            · exact .inr ⟨e, he, .inr (Entry.isExpired_mono hlat hx)⟩

/-- A mark that has just been made. -/
theorem Traces.fresh {latest : Int64} {i : Inner} (hi : i.Dated) {watched : Option WatchedKey}
    (hs : ∀ w ∈ watched, w.since = i.seq)
    (hf : ∀ w ∈ watched, w.existed = true → ∃ e, i.index[w.key]? = some e) :
    Traces latest i ⟨i, watched⟩ := by
  have hnews : news i i = [] := by simp [news]
  constructor
  case since => exact hs
  case told => exact List.prefix_rfl
  case seq => exact Nat.le_refl _
  case entry => exact fun k e he hlt => absurd (hi.entry k e he) (Nat.not_le.mpr hlt)
  case tomb => exact fun k v hv hlt => absurd (hi.tomb k v hv) (Nat.not_le.mpr hlt)
  case reset => exact fun hlt => absurd hi.reset (Nat.not_le.mpr hlt)
  case known =>
      rintro k ⟨op, hop, -⟩
      rw [hnews] at hop
      simp at hop
  case found =>
      intro w hw hex
      obtain ⟨e, he⟩ := hf w hw hex
      exact .inr ⟨e, he, .inl ⟨e.version, Inner.dated_of_index he⟩⟩

end Txn

end

end KivaDb
