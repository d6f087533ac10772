import Mathlib.Algebra.BigOperators.Group.List.Basic
import Mathlib.Algebra.GroupWithZero.Nat
import Std.Data.ExtTreeMap

namespace KivaDb.Lib.Tally

open Std

variable {α β : Type} {cmp : α → α → Ordering} [TransCmp cmp] [LawfulEqCmp cmp]

theorem get_insert [DecidableEq α] (m : ExtTreeMap α β cmp) (k : α) (v : β) (a : α) :
    (m.insert k v)[a]? = if k = a then some v else m[a]? := by
  rw [ExtTreeMap.getElem?_insert]
  by_cases hk : k = a
  · subst hk
    rw [if_pos ReflCmp.compare_self, if_pos rfl]
  · rw [if_neg fun heq => hk (LawfulEqCmp.eq_of_compare heq), if_neg hk]

theorem get_erase [DecidableEq α] (m : ExtTreeMap α β cmp) (k a : α) :
    (m.erase k)[a]? = if k = a then none else m[a]? := by
  rw [ExtTreeMap.getElem?_erase]
  by_cases hk : k = a
  · subst hk
    rw [if_pos ReflCmp.compare_self, if_pos rfl]
  · rw [if_neg fun heq => hk (LawfulEqCmp.eq_of_compare heq), if_neg hk]

/-- What the entries of a map come to. -/
def tally (f : α → β → Nat) (m : ExtTreeMap α β cmp) : Nat := (m.toList.map fun p => f p.1 p.2).sum

omit [LawfulEqCmp cmp] in
@[simp] theorem tally_empty (f : α → β → Nat) : tally f (∅ : ExtTreeMap α β cmp) = 0 := by
  rw [tally, ExtTreeMap.toList_eq_nil_iff.mpr rfl]
  rfl

omit [LawfulEqCmp cmp] in
theorem nodup_toList (m : ExtTreeMap α β cmp) : m.toList.Nodup := by
  refine (ExtTreeMap.distinct_keys_toList (t := m)).imp fun h heq => h ?_
  rw [heq]
  exact ReflCmp.compare_self

omit [LawfulEqCmp cmp] in
theorem nodup_keys (m : ExtTreeMap α β cmp) : (m.toList.map Prod.fst).Nodup := by
  refine List.pairwise_map.mpr ((ExtTreeMap.distinct_keys_toList (t := m)).imp fun h heq => h ?_)
  rw [heq]
  exact ReflCmp.compare_self

/-- An entry and the others. -/
theorem toList_erase_perm {m : ExtTreeMap α β cmp} {k : α} {v : β} (h : m[k]? = some v) :
    m.toList.Perm ((k, v) :: (m.erase k).toList) := by
  have hmem (k' : α) (v' : β) : (k', v') ∈ (m.erase k).toList ↔ k' ≠ k ∧ (k', v') ∈ m.toList := by
    rw [ExtTreeMap.mem_toList_iff_getElem?_eq_some, ExtTreeMap.mem_toList_iff_getElem?_eq_some,
      ExtTreeMap.getElem?_erase]
    by_cases hk : k = k'
    · subst hk
      rw [if_pos ReflCmp.compare_self]
      simp
    · rw [if_neg fun heq => hk (LawfulEqCmp.eq_of_compare heq)]
      exact (and_iff_right (Ne.symm hk)).symm
  refine (List.perm_ext_iff_of_nodup (nodup_toList m) ?_).mpr fun (k', v') => ?_
  · exact List.nodup_cons.mpr ⟨fun hin => ((hmem k v).mp hin).1 rfl, nodup_toList _⟩
  · rw [List.mem_cons, hmem, Prod.mk.injEq]
    constructor
    · intro hin
      by_cases hk : k' = k
      · subst hk
        have hv := ExtTreeMap.mem_toList_iff_getElem?_eq_some.mp hin
        rw [h] at hv
        exact .inl ⟨rfl, (Option.some.inj hv).symm⟩
      · exact .inr ⟨hk, hin⟩
    · rintro (⟨rfl, rfl⟩ | ⟨-, hin⟩)
      · exact ExtTreeMap.mem_toList_iff_getElem?_eq_some.mpr h
      · exact hin

theorem tally_erase (f : α → β → Nat) {m : ExtTreeMap α β cmp} {k : α} {v : β} (h : m[k]? = some v) :
    tally f m = f k v + tally f (m.erase k) := by
  rw [tally, ((toList_erase_perm h).map _).sum_eq, List.map_cons, List.sum_cons]
  rfl

theorem erase_absent {m : ExtTreeMap α β cmp} {k : α} (h : m[k]? = none) : m.erase k = m := by
  refine ExtTreeMap.ext_getElem? fun k' => ?_
  rw [ExtTreeMap.getElem?_erase]
  split
  · next hk => rw [← LawfulEqCmp.eq_of_compare hk, h]
  · rfl

theorem erase_insert (m : ExtTreeMap α β cmp) (k : α) (v : β) : (m.insert k v).erase k = m.erase k := by
  refine ExtTreeMap.ext_getElem? fun k' => ?_
  rw [ExtTreeMap.getElem?_erase, ExtTreeMap.getElem?_erase, ExtTreeMap.getElem?_insert]
  split <;> rfl

theorem tally_insert (f : α → β → Nat) (m : ExtTreeMap α β cmp) (k : α) (v : β) :
    tally f (m.insert k v) = f k v + tally f (m.erase k) := by
  rw [tally_erase f (ExtTreeMap.getElem?_insert_self), erase_insert]

/-- Entries that count for nothing. -/
theorem tally_eq_zero {f : α → β → Nat} {m : ExtTreeMap α β cmp} (h : ∀ k v, m[k]? = some v → f k v = 0) : tally f m = 0 := by
  refine List.sum_eq_zero_iff_forall_eq_nat.mpr fun n hn => ?_
  obtain ⟨p, hp, rfl⟩ := List.mem_map.mp hn
  exact h p.1 p.2 (ExtTreeMap.mem_toList_iff_getElem?_eq_some.mp hp)

omit [LawfulEqCmp cmp] in
theorem tally_filter (f : α → β → Nat) (m : ExtTreeMap α β cmp) (p : α → β → Bool) :
    tally f (m.filter p) = tally (fun k v => if p k v then f k v else 0) m := by
  rw [tally, tally, ExtTreeMap.toList_filter]
  induction m.toList with
  | nil => rfl
  | cons a l ih =>
      rw [List.filter_cons, List.map_cons, List.sum_cons, ← ih]
      split
      · rw [List.map_cons, List.sum_cons]
      · rw [Nat.zero_add]

end KivaDb.Lib.Tally
