import KivaDb.Log
import Std.Data.ExtTreeSet

namespace KivaDb

open Std

/-- By deadline, then by key. -/
def deadlineCmp : Int64 × String → Int64 × String → Ordering :=
  compareLex (compareOn Prod.fst) (compareOn Prod.snd)

instance : TransCmp deadlineCmp := inferInstanceAs (TransCmp (compareLex (compareOn Prod.fst) (compareOn Prod.snd)))

instance : LawfulEqCmp deadlineCmp where
  eq_of_compare := by
    intro a b h
    obtain ⟨h1, h2⟩ := compareLex_eq_eq.mp h
    exact Prod.ext (LawfulEqOrd.eq_of_compare h1) (LawfulEqOrd.eq_of_compare h2)

/-- Keys with a TTL, by deadline. -/
abbrev Expiry := ExtTreeSet (Int64 × String) deadlineCmp

/-- The index, with the deadlines of the keys that have one. -/
structure Table where
  index : Index
  expiry : Expiry
  expiry_exact : ∀ t k, (t, k) ∈ expiry ↔ 0 < t ∧ ∃ e, index[k]? = some e ∧ e.expiresAt = t

namespace Table

def empty : Table where
  index := ∅
  expiry := ∅
  expiry_exact := by simp

theorem getElem?_insert (ix : Index) (k k' : String) (e : Entry) :
    (ix.insert k e)[k']? = if k = k' then some e else ix[k']? := by
  rw [ExtTreeMap.getElem?_insert]
  simp only [Std.compare_eq_iff_eq]

theorem getElem?_erase (ix : Index) (k k' : String) :
    (ix.erase k)[k']? = if k = k' then none else ix[k']? := by
  rw [ExtTreeMap.getElem?_erase]
  simp only [Std.compare_eq_iff_eq]

/-- Forgets the deadline of the entry `old` of `key`. -/
def forget (ex : Expiry) (key : String) (old : Option Entry) : Expiry :=
  match old with
  | some o => if 0 < o.expiresAt then ex.erase (o.expiresAt, key) else ex
  | none => ex

theorem mem_forget (t : Table) (key : String) (d : Int64) (k : String) :
    (d, k) ∈ forget t.expiry key t.index[key]? ↔ k ≠ key ∧ (d, k) ∈ t.expiry := by
  have hx := t.expiry_exact d k
  unfold forget
  cases ho : t.index[key]? with
  | none =>
      refine ⟨fun h => ⟨?_, h⟩, And.right⟩
      rintro rfl
      obtain ⟨-, e, he, -⟩ := hx.mp h
      simp [ho] at he
  | some o =>
      dsimp only
      split
      · rename_i hp
        rw [ExtTreeSet.mem_erase]
        constructor
        · rintro ⟨hc, h⟩
          refine ⟨?_, h⟩
          rintro rfl
          obtain ⟨-, e, he, hd⟩ := hx.mp h
          rw [ho] at he
          obtain rfl := Option.some.inj he
          exact hc (by rw [hd]; exact ReflCmp.compare_self)
        · rintro ⟨hk, h⟩
          refine ⟨fun hc => hk ?_, h⟩
          exact (congrArg Prod.snd (LawfulEqCmp.eq_of_compare hc)).symm
      · rename_i hp
        refine ⟨fun h => ⟨?_, h⟩, And.right⟩
        rintro rfl
        obtain ⟨h0, e, he, hd⟩ := hx.mp h
        rw [ho] at he
        obtain rfl := Option.some.inj he
        exact hp (hd ▸ h0)

def insert (t : Table) (key : String) (e : Entry) : Table where
  index := t.index.insert key e
  expiry :=
    let kept := forget t.expiry key t.index[key]?
    if 0 < e.expiresAt then kept.insert (e.expiresAt, key) else kept
  expiry_exact := by
    intro d k
    have hm := mem_forget t key d k
    have hx := t.expiry_exact d k
    rw [getElem?_insert]
    by_cases hk : key = k
    · subst hk
      simp only [ne_eq, not_true_eq_false, false_and, iff_false] at hm
      rw [if_pos rfl]
      dsimp only
      split
      · rename_i hp
        rw [ExtTreeSet.mem_insert]
        constructor
        · rintro (h | h)
          · obtain ⟨rfl, -⟩ := Prod.mk.inj (LawfulEqCmp.eq_of_compare h)
            exact ⟨hp, e, rfl, rfl⟩
          · exact absurd h hm
        · rintro ⟨-, e', he, rfl⟩
          obtain rfl := Option.some.inj he
          exact .inl ReflCmp.compare_self
      · rename_i hp
        refine ⟨fun h => absurd h hm, ?_⟩
        rintro ⟨h0, e', he, rfl⟩
        obtain rfl := Option.some.inj he
        exact absurd h0 hp
    · have hm' : (d, k) ∈ forget t.expiry key t.index[key]? ↔ (d, k) ∈ t.expiry := by
        rw [hm]
        exact and_iff_right (fun h => hk h.symm)
      rw [if_neg hk, ← hx]
      dsimp only
      split
      · rw [ExtTreeSet.mem_insert, hm']
        refine ⟨fun h => h.resolve_left fun hc => hk ?_, .inr⟩
        exact congrArg Prod.snd (LawfulEqCmp.eq_of_compare hc)
      · exact hm'

def remove (t : Table) (key : String) : Table where
  index := t.index.erase key
  expiry := forget t.expiry key t.index[key]?
  expiry_exact := by
    intro d k
    rw [mem_forget, t.expiry_exact, getElem?_erase]
    by_cases hk : key = k
    · simp [hk]
    · rw [if_neg hk]
      exact and_iff_right (fun h => hk h.symm)

theorem mem_foldl_insert (l : List (String × Entry)) (s : Expiry) (x : Int64 × String) :
    x ∈ l.foldl (fun s p => s.insert (p.2.expiresAt, p.1)) s ↔ x ∈ s ∨ ∃ p ∈ l, (p.2.expiresAt, p.1) = x := by
  induction l generalizing s with
  | nil => simp
  | cons p l ih =>
      rw [List.foldl_cons, ih, ExtTreeSet.mem_insert, LawfulEqCmp.compare_eq_iff_eq, List.exists_mem_cons_iff]
      tauto

/-- The deadlines of an index, counted anew: `recount`. -/
def ofIndex (ix : Index) : Table where
  index := ix
  expiry := (ix.toList.filter fun p => 0 < p.2.expiresAt).foldl (fun s p => s.insert (p.2.expiresAt, p.1)) ∅
  expiry_exact := by
    intro d k
    rw [mem_foldl_insert]
    simp only [ExtTreeSet.not_mem_empty, false_or, List.mem_filter, decide_eq_true_eq]
    constructor
    · rintro ⟨⟨k', e⟩, ⟨hm, hp⟩, he⟩
      obtain ⟨rfl, rfl⟩ := Prod.mk.inj he
      exact ⟨hp, e, ExtTreeMap.mem_toList_iff_getElem?_eq_some.mp hm, rfl⟩
    · rintro ⟨hp, e, he, rfl⟩
      exact ⟨(k, e), ⟨ExtTreeMap.mem_toList_iff_getElem?_eq_some.mpr he, hp⟩, rfl⟩

end Table

end KivaDb
