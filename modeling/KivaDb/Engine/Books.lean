import KivaDb.Engine.Maintain
import KivaDb.Engine.Views
import KivaDb.Lib.Tally

namespace KivaDb

open Std Lib.Tally Format Glob

theorem SKey.cmp_congr {a b c : SKey} (h : SKey.cmp a b = .eq) : SKey.cmp a c = .eq ↔ SKey.cmp b c = .eq := by
  rw [TransCmp.congr_left h]

namespace Postings

/-- The keys listed under a value. -/
def at_ (m : Postings) (sk : SKey) : KeySet := m[sk]?.getD ∅

theorem mem_add (m : Postings) (sk sk' : SKey) (key k : String) :
    k ∈ (m.add sk key).at_ sk' ↔ SKey.cmp sk sk' = .eq ∧ k = key ∨ k ∈ m.at_ sk' := by
  unfold add at_
  rw [ExtTreeMap.getElem?_insert]
  split
  · next h =>
      rw [ExtTreeMap.getElem?_congr h, Option.getD_some, ExtTreeSet.mem_insert, LawfulEqCmp.compare_eq_iff_eq]
      simp only [h, true_and, eq_comm]
  · next h => simp [h]

theorem mem_take (m : Postings) (sk sk' : SKey) (key k : String) :
    k ∈ (m.take sk key).at_ sk' ↔ ¬ (SKey.cmp sk sk' = .eq ∧ k = key) ∧ k ∈ m.at_ sk' := by
  unfold take at_
  rcases hset : m[sk]? with _ | set
  · by_cases h : SKey.cmp sk sk' = .eq
    · rw [← ExtTreeMap.getElem?_congr h, hset]
      simp
    · simp [h]
  · have hleft : k ∈ set.erase key ↔ k ≠ key ∧ k ∈ set := by
      rw [ExtTreeSet.mem_erase, ne_eq, LawfulEqCmp.compare_eq_iff_eq, eq_comm]
    dsimp only
    split
    · next hempty =>
        rw [ExtTreeMap.getElem?_erase]
        split
        · next h =>
            rw [← ExtTreeMap.getElem?_congr h, hset, Option.getD_some]
            have hnone : k ∉ set.erase key := by
              rw [ExtTreeSet.isEmpty_iff.mp hempty.2]
              simp
            rw [hleft] at hnone
            simp only [Option.getD_none, h, true_and]
            simpa using hnone
        · next h => simp [h]
    · rw [ExtTreeMap.getElem?_insert]
      split
      · next h =>
          rw [← ExtTreeMap.getElem?_congr h, hset, Option.getD_some, Option.getD_some, hleft]
          simp only [h, true_and, ne_eq]
      · next h => simp [h]

def Filled (m : Postings) : Prop := ∀ (sk : SKey) (set : KeySet), m[sk]? = some set → ∃ k, k ∈ set

theorem Filled.add {m : Postings} (h : m.Filled) (sk : SKey) (key : String) : (m.add sk key).Filled := by
  intro sk' set hset
  unfold Postings.add at hset
  rw [ExtTreeMap.getElem?_insert] at hset
  split at hset
  · obtain rfl := Option.some.inj hset
    exact ⟨key, ExtTreeSet.mem_insert.mpr (.inl ReflCmp.compare_self)⟩
  · exact h sk' set hset

theorem Filled.take {m : Postings} (h : m.Filled) (sk : SKey) (key : String) : (m.take sk key).Filled := by
  intro sk' set hset
  unfold Postings.take at hset
  rcases hold : m[sk]? with _ | old
  · rw [hold] at hset
    exact h sk' set hset
  · rw [hold] at hset
    dsimp only at hset
    split at hset
    · rw [ExtTreeMap.getElem?_erase] at hset
      split at hset
      · exact nomatch hset
      · exact h sk' set hset
    · next hkept =>
        rw [ExtTreeMap.getElem?_insert] at hset
        split at hset
        · obtain rfl := Option.some.inj hset
          obtain ⟨k, hk⟩ := h sk old hold
          by_cases hkey : key ∈ old
          · by_contra hnone
            refine hkept ⟨ExtTreeSet.contains_iff_mem.mpr hkey, ?_⟩
            rw [ExtTreeSet.isEmpty_iff]
            exact ExtTreeSet.ext_mem fun k => iff_of_false (fun hk => hnone ⟨k, hk⟩) (by simp)
          · refine ⟨k, ExtTreeSet.mem_erase.mpr ⟨fun heq => hkey ?_, hk⟩⟩
            rw [LawfulEqCmp.eq_of_compare heq]
            exact hk
        · exact h sk' set hset

end Postings

section

variable [Chrono] [Codec]

namespace SecIndex

/-- The index lists exactly the documents of its pattern under the values they
hold there, and its postings are the inverse of that list. -/
structure Exact (s : SecIndex) (held : String → Option DocView) : Prop where
  rev_iff : ∀ (k : String) (sk : SKey), (∃ a, s.rev[k]? = some a ∧ SKey.cmp a sk = .eq) ↔
    globMatch s.pattern k = true ∧ ∃ b, (held k).bind s.value = some b ∧ SKey.cmp b sk = .eq
  postings : ∀ (sk : SKey) (k : String), k ∈ s.map.at_ sk ↔ ∃ a, s.rev[k]? = some a ∧ SKey.cmp a sk = .eq
  filled : s.map.Filled

variable {s : SecIndex} {held held' : String → Option DocView}

theorem exact_clear (s : SecIndex) : s.clear.Exact fun _ => none where
  rev_iff k sk := by simp [clear]
  postings sk k := by simp [clear, Postings.at_]
  filled sk set h := by simp [clear] at h

theorem Exact.congr (h : s.Exact held) (hsame : ∀ k, held' k = held k) : s.Exact held' := by
  rw [funext hsame]
  exact h

omit [Chrono] [Codec] in
theorem rev_remove (s : SecIndex) (key k : String) :
    (s.remove key).rev[k]? = if k = key then none else s.rev[k]? := by
  unfold remove
  rcases hrev : s.rev[key]? with _ | sk
  · by_cases hk : k = key
    · rw [if_pos hk, hk]
      exact hrev
    · rw [if_neg hk]
  · dsimp only
    rw [ExtTreeMap.getElem?_erase]
    simp only [LawfulEqCmp.compare_eq_iff_eq, eq_comm (a := key)]

theorem remove_frame (s : SecIndex) (key : String) :
    (s.remove key).pattern = s.pattern ∧ (s.remove key).value = s.value := by
  unfold remove
  split
  · exact ⟨rfl, rfl⟩
  · exact ⟨rfl, rfl⟩

omit [Chrono] [Codec] in
theorem mem_remove (h : ∀ (sk : SKey) (k : String), k ∈ s.map.at_ sk ↔ ∃ a, s.rev[k]? = some a ∧ SKey.cmp a sk = .eq)
    (key : String) (sk : SKey) (k : String) :
    k ∈ (s.remove key).map.at_ sk ↔ ∃ a, (s.remove key).rev[k]? = some a ∧ SKey.cmp a sk = .eq := by
  rw [rev_remove]
  unfold remove
  rcases hrev : s.rev[key]? with _ | old
  · dsimp only
    rw [h]
    by_cases hk : k = key
    · simp [hk, hrev]
    · simp [hk]
  · dsimp only
    rw [Postings.mem_take, h]
    by_cases hk : k = key
    · subst hk
      simp [hrev]
    · simp [hk]

omit [Chrono] [Codec] in
theorem filled_remove (h : s.map.Filled) (key : String) : (s.remove key).map.Filled := by
  unfold remove
  split
  · exact h
  · exact h.take _ key

/-- The index forgets a key that is gone. -/
theorem Exact.remove (h : s.Exact held) {key : String} (hgone : held' key = none)
    (hsame : ∀ k, k ≠ key → held' k = held k) : (s.remove key).Exact held' where
  rev_iff k sk := by
    obtain ⟨hpattern, hvalue⟩ := s.remove_frame key
    rw [rev_remove, hpattern, hvalue]
    by_cases hk : k = key
    · subst hk
      simp [hgone]
    · rw [if_neg hk, hsame k hk]
      exact h.rev_iff k sk
  postings := mem_remove h.postings key
  filled := filled_remove h.filled key

theorem update_other (s : SecIndex) {key : String} (hp : globMatch s.pattern key = false) (doc : Option DocView) :
    s.update key doc = s := by
  simp [update, hp]

/-- The key listed anew. -/
def relisted (s : SecIndex) (key : String) : Option SKey → SecIndex
  | none => s.remove key
  | some sk => { s.remove key with map := (s.remove key).map.add sk key, rev := (s.remove key).rev.insert key sk }

theorem update_cases (s : SecIndex) {key : String} (hp : globMatch s.pattern key = true) (doc : Option DocView) :
    (s.update key doc = s ∧ ∀ sk : SKey, (∃ a, s.rev[key]? = some a ∧ SKey.cmp a sk = .eq) ↔
      ∃ b, doc.bind s.value = some b ∧ SKey.cmp b sk = .eq) ∨
    s.update key doc = s.relisted key (doc.bind s.value) := by
  unfold update
  rw [if_neg (by simp [hp])]
  rcases hold : s.rev[key]? with _ | a
  · rcases hnew : doc.bind s.value with _ | b
    · exact .inl ⟨rfl, fun sk => by simp⟩
    · exact .inr rfl
  · rcases hnew : doc.bind s.value with _ | b
    · exact .inr rfl
    · dsimp only
      by_cases hequal : SKey.cmp a b = .eq
      · left
        exact ⟨if_pos (by simpa using hequal), fun sk => by simp [SKey.cmp_congr hequal]⟩
      · right
        rw [if_neg (by simpa using hequal)]
        rfl

/-- The index follows a key that was written. -/
theorem Exact.update (h : s.Exact held) {key : String} {doc : Option DocView} (hdoc : held' key = doc)
    (hsame : ∀ k, k ≠ key → held' k = held k) : (s.update key doc).Exact held' := by
  by_cases hp : globMatch s.pattern key = true
  · have hremoved : (s.remove key).Exact fun k => if k = key then none else held k :=
      h.remove (by simp) fun k hk => by simp [hk]
    have hrev (t : SecIndex) (hpattern : t.pattern = s.pattern) (hvalue : t.value = s.value)
        (hkey : ∀ sk : SKey, (∃ a, t.rev[key]? = some a ∧ SKey.cmp a sk = .eq) ↔
          ∃ b, doc.bind s.value = some b ∧ SKey.cmp b sk = .eq)
        (hother : ∀ k, k ≠ key → t.rev[k]? = s.rev[k]?) (k : String) (sk : SKey) :
        (∃ a, t.rev[k]? = some a ∧ SKey.cmp a sk = .eq) ↔
          globMatch t.pattern k = true ∧ ∃ b, (held' k).bind t.value = some b ∧ SKey.cmp b sk = .eq := by
      rw [hpattern, hvalue]
      by_cases hk : k = key
      · subst hk
        rw [hkey, hdoc, and_iff_right hp]
      · rw [hother k hk, hsame k hk]
        exact h.rev_iff k sk
    obtain ⟨hpattern, hvalue⟩ := s.remove_frame key
    obtain ⟨hkept, hequal⟩ | hrelisted := s.update_cases hp doc
    · rw [hkept]
      exact ⟨hrev s rfl rfl hequal fun _ _ => rfl, h.postings, h.filled⟩
    · rw [hrelisted]
      rcases hnew : doc.bind s.value with _ | b
      · refine ⟨hrev (s.remove key) hpattern hvalue (fun sk => ?_) fun k hk => ?_, hremoved.postings, hremoved.filled⟩
        · rw [rev_remove, if_pos rfl, hnew]
        · rw [rev_remove, if_neg hk]
      · have hgot (k : String) : (s.relisted key (some b)).rev[k]? = if k = key then some b else s.rev[k]? := by
          rw [relisted, ExtTreeMap.getElem?_insert, rev_remove]
          simp only [LawfulEqCmp.compare_eq_iff_eq]
          by_cases hk : k = key
          · simp [hk]
          · simp [hk, Ne.symm hk]
        refine ⟨hrev _ hpattern hvalue (fun sk => ?_) fun k hk => ?_, fun sk k => ?_, hremoved.filled.add b key⟩
        · rw [hgot, if_pos rfl, hnew]
        · rw [hgot, if_neg hk]
        · rw [hgot, relisted, Postings.mem_add, hremoved.postings, rev_remove]
          by_cases hk : k = key
          · simp [hk]
          · simp [hk]
  · have hp : globMatch s.pattern key = false := by simpa using hp
    rw [s.update_other hp]
    refine ⟨fun k sk => ?_, h.postings, h.filled⟩
    by_cases hk : k = key
    · subst hk
      rw [h.rev_iff, hp]
      simp
    · rw [hsame k hk]
      exact h.rev_iff k sk

end SecIndex

/-- A subtraction of unsigned integers: the program stops below 0. -/
def less (a b : Nat) : Option Nat := if b ≤ a then some (a - b) else none

/-- What the engine keeps in memory beside the data file. -/
structure Books where
  table : Table
  liveBytes : Nat
  keyBytes : Nat
  sec : List SecIndex

namespace Books

def index (b : Books) : Index := b.table.index

def idxInsert (b : Books) (key : String) (e : Entry) (doc : Option DocView) : Option Books := do
  let (liveBytes, keyBytes) ← match b.index[key]? with
    | some old => (less (b.liveBytes + e.recLen) old.recLen).map (·, b.keyBytes)
    | none => some (b.liveBytes + e.recLen, b.keyBytes + Engine.keyCost key)
  return { table := b.table.insert key e, liveBytes, keyBytes, sec := b.sec.map (·.update key doc) }

def idxRemove (b : Books) (key : String) : Option Books :=
  match b.index[key]? with
  | none => some b
  | some old => do
      let keyBytes ← less b.keyBytes (Engine.keyCost key)
      let liveBytes ← less b.liveBytes old.recLen
      return { table := b.table.remove key, liveBytes, keyBytes, sec := b.sec.map (·.remove key) }

/-- Drops `key` if its TTL has elapsed. -/
def live (b : Books) (key : String) (now : Int64) : Option Books :=
  match b.index[key]? with
  | some e => if e.isExpired now then b.idxRemove key else some b
  | none => some b

def drop (b : Books) (dead : List String) : Option Books := dead.foldlM idxRemove b

def purgeExpired (b : Books) (now : Int64) : Option Books :=
  b.drop (((b.table.expiry.toList.takeWhile fun p => p.1 ≤ now).take purgeBatch).map Prod.snd)

def recount (b : Books) : Books :=
  { b with
    table := Table.ofIndex b.index
    liveBytes := fileHeaderLen + tally (fun _ e => e.recLen) b.index
    keyBytes := tally (fun k _ => Engine.keyCost k) b.index }

def reset (b : Books) : Books := { b with table := Table.empty, sec := b.sec.map SecIndex.clear }.recount

/-- The index of a new data file takes the place of the old one. -/
def compact (b : Books) (c : Copying) : Option Books := do
  let kept ← b.drop (c.lost b.index)
  return { kept with table := Table.ofIndex (c.newIndex b.index) }.recount

end Books

/-- What the engine does to its books. -/
inductive Entering
  | insert (key : String) (e : Entry) (doc : Option DocView)
  | remove (key : String)
  | live (key : String) (now : Int64)
  | purge (now : Int64)
  | recount
  | reset
  | compact (c : Copying)

namespace Books

def enter (b : Books) : Entering → Option Books
  | .insert key e doc => b.idxInsert key e doc
  | .remove key => b.idxRemove key
  | .live key now => b.live key now
  | .purge now => b.purgeExpired now
  | .recount => some b.recount
  | .reset => some b.reset
  | .compact c => b.compact c

/-- The documents last written under each key. -/
def written (docs : String → Option DocView) : Entering → String → Option DocView
  | .insert key _ doc => fun k => if k = key then doc else docs k
  | _ => docs

def held (b : Books) (docs : String → Option DocView) (k : String) : Option DocView :=
  if (b.index[k]?).isSome then docs k else none

/-- The counts are those of the index, and so are the secondary indexes. -/
structure Exact (b : Books) (docs : String → Option DocView) : Prop where
  live : b.liveBytes = fileHeaderLen + tally (fun _ e => e.recLen) b.index
  keys : b.keyBytes = tally (fun k _ => Engine.keyCost k) b.index
  sec : ∀ s ∈ b.sec, s.Exact (b.held docs)

variable {b b' : Books} {docs : String → Option DocView}

omit [Chrono] in
theorem less_of_add {a b c : Nat} (h : a = b + c) : less a b = some c := by
  rw [less, if_pos (by omega)]
  congr 1
  omega

omit [Codec] in
theorem getElem?_held (k : String) : b.held docs k = (b.index[k]?).bind fun _ => docs k := by
  unfold held
  cases b.index[k]? <;> rfl

/-- A key that is there is removed from all the books. -/
theorem idxRemove_exact (h : b.Exact docs) (key : String) :
    ∃ b', b.idxRemove key = some b' ∧ b'.Exact docs ∧ b'.index = b.index.erase key := by
  unfold idxRemove
  rcases hold : b.index[key]? with _ | old
  · exact ⟨b, rfl, h, (erase_absent hold).symm⟩
  · have hkeys := h.keys
    have hlive := h.live
    rw [tally_erase _ hold] at hkeys hlive
    have hlive' : b.liveBytes = old.recLen + (fileHeaderLen + tally (fun _ e => e.recLen) (b.index.erase key)) := by
      omega
    dsimp only
    rw [less_of_add hkeys, less_of_add hlive']
    refine ⟨_, rfl, ⟨rfl, rfl, fun t ht => ?_⟩, rfl⟩
    obtain ⟨s, hs, rfl⟩ := List.mem_map.mp ht
    refine (h.sec s hs).remove ?_ fun k hk => ?_
    · rw [getElem?_held]
      simp [index, Table.remove]
    · rw [getElem?_held, getElem?_held]
      simp [index, Table.remove, Table.getElem?_erase, Ne.symm hk]

/-- A key is written into all the books. -/
theorem idxInsert_exact (h : b.Exact docs) (key : String) (e : Entry) (doc : Option DocView) :
    ∃ b', b.idxInsert key e doc = some b' ∧ b'.Exact (written docs (.insert key e doc)) ∧
      b'.index = b.index.insert key e := by
  have hlive := h.live
  have hkeys := h.keys
  have hlive' := tally_insert (fun (_ : String) (e : Entry) => e.recLen) b.index key e
  have hkeys' := tally_insert (fun (k : String) (_ : Entry) => Engine.keyCost k) b.index key e
  have hsec (t : SecIndex) (ht : t ∈ b.sec.map (·.update key doc)) :
      t.Exact fun k => ((b.index.insert key e)[k]?).bind fun _ => written docs (.insert key e doc) k := by
    obtain ⟨s, hs, rfl⟩ := List.mem_map.mp ht
    refine ((h.sec s hs).update ?_ fun k hk => ?_)
    · simp [written]
    · rw [getElem?_held, Table.getElem?_insert, if_neg (Ne.symm hk)]
      simp [written, hk]
  have hheld (l n : Nat) :
      ({ table := b.table.insert key e, liveBytes := l, keyBytes := n, sec := b.sec.map (·.update key doc) } : Books).held
        (written docs (.insert key e doc)) =
          fun k => ((b.index.insert key e)[k]?).bind fun _ => written docs (.insert key e doc) k :=
    funext fun k => getElem?_held k
  unfold idxInsert
  rcases hold : b.index[key]? with _ | old
  · rw [erase_absent hold] at hlive' hkeys'
    refine ⟨_, rfl, ⟨?_, ?_, fun t ht => ?_⟩, rfl⟩
    · show b.liveBytes + e.recLen = fileHeaderLen + tally _ (b.index.insert key e)
      omega
    · show b.keyBytes + Engine.keyCost key = tally _ (b.index.insert key e)
      omega
    · rw [hheld]
      exact hsec t ht
  · rw [tally_erase _ hold] at hlive hkeys
    have hsum : b.liveBytes + e.recLen = old.recLen + (fileHeaderLen + tally (fun _ e => e.recLen) (b.index.insert key e)) := by
      omega
    dsimp only
    rw [less_of_add hsum]
    refine ⟨_, rfl, ⟨rfl, ?_, fun t ht => ?_⟩, rfl⟩
    · show b.keyBytes = tally _ (b.index.insert key e)
      omega
    · rw [hheld]
      exact hsec t ht

theorem live_exact (h : b.Exact docs) (key : String) (now : Int64) : ∃ b', b.live key now = some b' ∧ b'.Exact docs := by
  unfold live
  split
  · split
    · obtain ⟨b', hb', hexact, -⟩ := idxRemove_exact h key
      exact ⟨b', hb', hexact⟩
    · exact ⟨b, rfl, h⟩
  · exact ⟨b, rfl, h⟩

theorem drop_exact (h : b.Exact docs) (dead : List String) : ∃ b', b.drop dead = some b' ∧ b'.Exact docs ∧
    ∀ k, b'.index[k]? = if k ∈ dead then none else b.index[k]? := by
  induction dead generalizing b with
  | nil => exact ⟨b, rfl, h, fun k => by simp⟩
  | cons key dead ih =>
      obtain ⟨b₁, hb₁, h₁, hindex₁⟩ := idxRemove_exact h key
      obtain ⟨b', hb', h', hindex⟩ := ih h₁
      refine ⟨b', ?_, h', fun k => ?_⟩
      · rw [drop, List.foldlM_cons, hb₁]
        exact hb'
      · rw [hindex, hindex₁, Table.getElem?_erase]
        by_cases hk : k = key
        · simp [hk]
        · simp [hk, Ne.symm hk]

theorem recount_exact (h : ∀ s ∈ b.sec, s.Exact (b.held docs)) : b.recount.Exact docs := ⟨rfl, rfl, h⟩

theorem reset_exact (b : Books) (docs : String → Option DocView) : b.reset.Exact docs := by
  refine recount_exact fun t ht => ?_
  obtain ⟨s, hs, rfl⟩ := List.mem_map.mp ht
  refine s.exact_clear.congr fun k => ?_
  rw [getElem?_held]
  simp [index, Table.empty]

theorem compact_exact (h : b.Exact docs) (c : Copying) : ∃ b', b.compact c = some b' ∧ b'.Exact docs := by
  obtain ⟨kept, hkept, hexact, hindex⟩ := drop_exact h (c.lost b.index)
  unfold compact
  rw [hkept]
  refine ⟨_, rfl, recount_exact fun s hs => (hexact.sec s hs).congr fun k => ?_⟩
  have hnew : (c.newIndex b.index)[k]? = (b.index[k]?).bind (c.relocate k) := ExtTreeMap.getElem?_filterMap'
  rw [getElem?_held, getElem?_held, hindex]
  show ((c.newIndex b.index)[k]?).bind _ = _
  rw [hnew]
  have hlost : k ∈ c.lost b.index ↔ ∃ e, b.index[k]? = some e ∧ c.relocate k e = none := by
    unfold Copying.lost
    rw [List.mem_map]
    constructor
    · rintro ⟨⟨k', e⟩, hmem, rfl⟩
      obtain ⟨hmem, hnone⟩ := List.mem_filter.mp hmem
      exact ⟨e, ExtTreeMap.mem_toList_iff_getElem?_eq_some.mp hmem, by simpa using hnone⟩
    · rintro ⟨e, he, hnone⟩
      refine ⟨(k, e), List.mem_filter.mpr ⟨ExtTreeMap.mem_toList_iff_getElem?_eq_some.mpr he, ?_⟩, rfl⟩
      simp [hnone]
  rcases hold : b.index[k]? with _ | e
  · simp
  · rcases hmoved : c.relocate k e with _ | e'
    · rw [if_pos (hlost.mpr ⟨e, hold, hmoved⟩)]
      simp [hmoved]
    · rw [if_neg fun hin => ?_]
      · simp [hmoved]
      · obtain ⟨e₁, he₁, hnone⟩ := hlost.mp hin
        rw [hold] at he₁
        obtain rfl := Option.some.inj he₁
        rw [hmoved] at hnone
        exact nomatch hnone

theorem enter_exact (h : b.Exact docs) (op : Entering) : ∃ b', b.enter op = some b' ∧ b'.Exact (written docs op) := by
  cases op with
  | insert key e doc =>
      obtain ⟨b', hb', hexact, -⟩ := idxInsert_exact h key e doc
      exact ⟨b', hb', hexact⟩
  | remove key =>
      obtain ⟨b', hb', hexact, -⟩ := idxRemove_exact h key
      exact ⟨b', hb', hexact⟩
  | live key now => exact live_exact h key now
  | purge now =>
      obtain ⟨b', hb', hexact, -⟩ := drop_exact h _
      exact ⟨b', hb', hexact⟩
  | recount => exact ⟨_, rfl, recount_exact h.sec⟩
  | reset => exact ⟨_, rfl, reset_exact b docs⟩
  | compact c => exact compact_exact h c

/-- The books of an engine that holds no key. -/
def start (sec : List SecIndex) : Books := reset ⟨Table.empty, 0, 0, sec⟩

/-- The documents last written in a run. -/
def writtenAll (ops : List Entering) : String → Option DocView := ops.foldl written fun _ => none

theorem run_exact (ops : List Entering) (h : b.Exact docs) :
    ∃ b', ops.foldlM enter b = some b' ∧ b'.Exact (ops.foldl written docs) := by
  induction ops generalizing b docs with
  | nil => exact ⟨b, rfl, h⟩
  | cons op ops ih =>
      obtain ⟨b₁, hb₁, h₁⟩ := enter_exact h op
      obtain ⟨b', hb', h'⟩ := ih h₁
      refine ⟨b', ?_, h'⟩
      rw [List.foldlM_cons, hb₁]
      exact hb'

/-- Whatever is entered, no subtraction goes below 0 and the books are exact. -/
theorem books_exact (sec : List SecIndex) (ops : List Entering) :
    ∃ b : Books, ops.foldlM enter (start sec) = some b ∧
      b.liveBytes = fileHeaderLen + (b.index.toList.map fun p => p.2.recLen).sum ∧
      b.keyBytes = (b.index.toList.map fun p => Engine.keyCost p.1).sum ∧
      (∀ t k, (t, k) ∈ b.table.expiry ↔ 0 < t ∧ ∃ e, b.index[k]? = some e ∧ e.expiresAt = t) ∧
      ∀ s ∈ b.sec, s.Exact (b.held (writtenAll ops)) := by
  obtain ⟨b, hb, h⟩ := run_exact ops (reset_exact ⟨Table.empty, 0, 0, sec⟩ fun _ => none)
  exact ⟨b, hb, h.live, h.keys, b.table.expiry_exact, h.sec⟩

end Books

end

theorem Table.ofIndex_empty : Table.ofIndex ∅ = Table.empty := by
  unfold Table.ofIndex Table.empty
  congr 1

section

variable [External] [Chrono] [Codec] [Vectors]

/-- What the same does to the engine. -/
def Inner.enter (i : Inner) (fileId : UInt64) : Entering → Inner
  | .insert key e doc => i.idxInsert key e doc
  | .remove key => i.idxRemove key
  | .live key now => i.dropExpired key now
  | .purge now => i.drop (((i.table.expiry.toList.takeWhile fun p => p.1 ≤ now).take purgeBatch).map Prod.snd)
  | .recount => { i with table := Table.ofIndex i.index }
  | .reset => i.wiped fileId
  | .compact c => i.replaced c

namespace Books

variable {b b' : Books} {i : Inner}

/-- The books are those of an engine. -/
def Of (b : Books) (i : Inner) : Prop := b.table = i.table ∧ b.sec = i.sec

omit [Codec] in
theorem Of.index (h : b.Of i) : b.index = i.index := congrArg Table.index h.1

omit [Codec] in
theorem idxRemove_of (h : b.Of i) {key : String} (hb : b.idxRemove key = some b') : b'.Of (i.idxRemove key) := by
  unfold idxRemove at hb
  unfold Inner.idxRemove
  rw [h.index] at hb
  rcases hold : i.index[key]? with _ | old
  · rw [hold] at hb
    obtain rfl := Option.some.inj hb
    exact h
  · rw [hold] at hb
    obtain ⟨keyBytes, -, hb⟩ := Option.bind_eq_some_iff.mp hb
    obtain ⟨liveBytes, -, hb⟩ := Option.bind_eq_some_iff.mp hb
    obtain rfl := Option.some.inj hb
    exact ⟨congrArg (Table.remove · key) h.1, congrArg (List.map (SecIndex.remove · key)) h.2⟩

omit [Codec] in
theorem drop_of (dead : List String) (h : b.Of i) (hb : b.drop dead = some b') : b'.Of (i.drop dead) := by
  induction dead generalizing b i with
  | nil =>
      obtain rfl := Option.some.inj hb
      exact h
  | cons key dead ih =>
      rw [drop, List.foldlM_cons] at hb
      obtain ⟨b₁, hb₁, hb⟩ := Option.bind_eq_some_iff.mp hb
      exact ih (idxRemove_of h hb₁) hb

/-- The engine's index and secondary indexes change with the books. -/
theorem enter_of (h : b.Of i) (fileId : UInt64) {op : Entering} (hb : b.enter op = some b') :
    b'.Of (i.enter fileId op) := by
  cases op with
  | insert key e doc =>
      rw [enter, idxInsert] at hb
      split at hb
      all_goals
        obtain ⟨counts, -, hb⟩ := Option.bind_eq_some_iff.mp hb
        obtain rfl := Option.some.inj hb
        exact ⟨congrArg (Table.insert · key e) h.1, congrArg (List.map (SecIndex.update · key doc)) h.2⟩
  | remove key => exact idxRemove_of h hb
  | live key now =>
      simp only [enter, live, h.index] at hb
      simp only [Inner.enter, Inner.dropExpired]
      rcases hold : i.index[key]? with _ | e
      · rw [hold] at hb
        obtain rfl := Option.some.inj hb
        exact h
      · rw [hold] at hb
        dsimp only at hb ⊢
        split at hb
        · next hx =>
            rw [if_pos hx]
            exact idxRemove_of h hb
        · next hx =>
            rw [if_neg hx]
            obtain rfl := Option.some.inj hb
            exact h
  | purge now =>
      simp only [enter, purgeExpired, h.1] at hb
      exact drop_of _ h hb
  | recount =>
      obtain rfl := Option.some.inj hb
      exact ⟨congrArg Table.ofIndex h.index, h.2⟩
  | reset =>
      obtain rfl := Option.some.inj hb
      exact ⟨Table.ofIndex_empty, congrArg (List.map SecIndex.clear) h.2⟩
  | compact c =>
      rw [enter, compact] at hb
      obtain ⟨kept, hkept, hb⟩ := Option.bind_eq_some_iff.mp hb
      obtain rfl := Option.some.inj hb
      rw [h.index] at hkept
      exact ⟨congrArg (fun ix => Table.ofIndex (c.newIndex ix)) h.index, (drop_of _ h hkept).2⟩

end Books

end

end KivaDb
