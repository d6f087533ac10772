import KivaDb.Semantic.Space

namespace KivaDb.Semantic

open Std Glob Lib.Tally

namespace Deps

def Full (m : Deps) : Prop := ∀ (p : String) (ids : Finset String), m[p]? = some ids → ids ≠ ∅

variable {m : Deps}

theorem full_empty : Full ∅ := by
  intro p ids h
  simp at h

theorem at_empty (p : String) : at_ ∅ p = ∅ := by simp [at_]

theorem at_insert (m : Deps) (p : String) (ids : Finset String) (q : String) :
    at_ (m.insert p ids) q = if p = q then ids else at_ m q := by
  rw [at_, get_insert]
  split <;> rfl

theorem at_add (m : Deps) (p id q : String) : (m.add p id).at_ q = if p = q then insert id (m.at_ p) else m.at_ q :=
  at_insert m p _ q

theorem full_insert (h : m.Full) {p : String} {ids : Finset String} (hids : ids ≠ ∅) : Full (m.insert p ids) := by
  intro q js hq
  rw [get_insert] at hq
  split at hq
  · rwa [← Option.some.inj hq]
  · exact h q js hq

theorem full_add (h : m.Full) (p id : String) : (m.add p id).Full := full_insert h (Finset.insert_ne_empty _ _)

theorem at_drop (m : Deps) (p id q : String) :
    (m.drop p id).at_ q = if p = q then (m.at_ p).erase id else m.at_ q := by
  unfold drop
  split
  · next hnone =>
      split
      · next hpq => rw [← hpq, at_, hnone, Option.getD_none, Finset.erase_empty]
      · rfl
  · next ids hids =>
      have hat : m.at_ p = ids := by rw [at_, hids, Option.getD_some]
      split
      · next hempty =>
          rw [at_, get_erase, hat]
          split
          · rw [hempty, Option.getD_none]
          · rfl
      · rw [at_insert, hat]

theorem full_drop (h : m.Full) (p id : String) : (m.drop p id).Full := by
  unfold drop
  split
  · exact h
  · split
    · intro q js hq
      rw [get_erase] at hq
      split at hq
      · exact nomatch hq
      · exact h q js hq
    · next hne => exact full_insert h hne

theorem isEmpty_iff (h : m.Full) : m.isEmpty = true ↔ ∀ p, m.at_ p = ∅ := by
  constructor
  · intro hempty p
    rw [ExtTreeMap.isEmpty_iff.mp hempty, at_empty]
  · intro hall
    refine ExtTreeMap.isEmpty_iff.mpr (ExtTreeMap.ext_getElem? fun p => ?_)
    rcases hp : m[p]? with _ | ids
    · simp
    · have := hall p
      rw [at_, hp, Option.getD_some] at this
      exact absurd this (h p ids hp)

end Deps

/-- A count as the map of lengths holds it. -/
def counted : Nat → Option Nat
  | 0 => none
  | n + 1 => some (n + 1)

namespace Space

variable [Ground] {s : Space} {w : String → String → Prop}

def group (s : Space) (lit : String) : Deps := s.patterns[lit]?.getD ∅

/-- How many groups have a text of this length. -/
def groups (s : Space) (n : Nat) : Nat := tally (fun lit _ => if len lit = n then 1 else 0) s.patterns

/-- The indexes hold id `i` under `p` exactly when `w p i`, and nothing else. -/
structure Indexed (s : Space) (w : String → String → Prop) : Prop where
  keys_full : s.keys.Full
  keys_iff : ∀ p id, id ∈ s.keys.at_ p ↔ literal p = none ∧ w p id
  group_full : ∀ (lit : String) (g : Deps), s.patterns[lit]? = some g → g.Full ∧ g.isEmpty = false
  group_iff : ∀ lit p id, id ∈ (s.group lit).at_ p ↔ literal p = some lit ∧ w p id
  lens : ∀ n : Nat, s.literalLens[n]? = counted (s.groups n)
  unbroken : s.broken = false

theorem Indexed.congr {w' : String → String → Prop} (h : s.Indexed w) (hw : ∀ p id, w p id ↔ w' p id) : s.Indexed w' := by
  have : w = w' := funext fun p => funext fun id => propext (hw p id)
  rwa [← this]

omit [Ground] in
theorem counted_getD (n : Nat) : (counted n).getD 0 = n := by
  cases n with
  | zero => rfl
  | succ n => rfl

theorem group_insert {s' : Space} {lit : String} {g : Deps} (h : s'.patterns = s.patterns.insert lit g) (l : String) :
    s'.group l = if lit = l then g else s.group l := by
  rw [group, h, get_insert]
  split <;> rfl

theorem group_erase {s' : Space} {lit : String} (h : s'.patterns = s.patterns.erase lit) (l : String) :
    s'.group l = if lit = l then ∅ else s.group l := by
  rw [group, h, get_erase]
  split <;> rfl

/-- Only what stands under `p` may have changed in the group of `p`. -/
theorem Indexed.grouped {w' : String → String → Prop} {s' : Space} {p lit : String} {g : Deps} (h : s.Indexed w)
    (hlit : literal p = some lit) (hw : ∀ q i, q ≠ p → (w q i ↔ w' q i))
    (hgroup : ∀ l, s'.group l = if lit = l then g else s.group l)
    (hg : ∀ q i, i ∈ g.at_ q ↔ if p = q then w' p i else i ∈ (s.group lit).at_ q) (l q i : String) :
    i ∈ (s'.group l).at_ q ↔ literal q = some l ∧ w' q i := by
  rw [hgroup]
  by_cases hpq : p = q
  · subst hpq
    rw [hlit]
    split
    · next hl =>
        rw [hg, if_pos rfl, hl]
        simp
    · next hl =>
        rw [h.group_iff, hlit]
        simp [hl]
  · rw [← hw q i (Ne.symm hpq), ← h.group_iff]
    split
    · next hl => rw [hg, if_neg hpq, hl]
    · rfl

theorem Indexed.keyed {w' : String → String → Prop} {p lit : String} (h : s.Indexed w) (hlit : literal p = some lit)
    (hw : ∀ q i, q ≠ p → (w q i ↔ w' q i)) (q i : String) : i ∈ s.keys.at_ q ↔ literal q = none ∧ w' q i := by
  rw [h.keys_iff]
  refine and_congr_right fun hnone => hw q i ?_
  rintro rfl
  rw [hlit] at hnone
  exact nomatch hnone

theorem Indexed.full_group (h : s.Indexed w) (lit : String) : (s.group lit).Full := by
  unfold group
  rcases hg : s.patterns[lit]? with _ | g
  · exact Deps.full_empty
  · exact (h.group_full lit g hg).1

theorem indexed_addDep (h : s.Indexed w) (p id : String) :
    (s.addDep p id).Indexed fun q i => w q i ∨ q = p ∧ i = id := by
  unfold addDep
  split
  · next hlit =>
      refine ⟨Deps.full_add h.keys_full p id, fun q i => ?_, h.group_full, fun lit q i => ?_, h.lens, h.unbroken⟩
      · rw [Deps.at_add]
        split
        · next hpq =>
            subst hpq
            rw [Finset.mem_insert, h.keys_iff, hlit]
            simp [or_comm]
        · next hpq =>
            rw [h.keys_iff]
            simp [Ne.symm hpq]
      · show i ∈ (s.group lit).at_ q ↔ _
        rw [h.group_iff]
        refine and_congr_right fun hl => ⟨.inl, fun hw => hw.resolve_right ?_⟩
        rintro ⟨rfl, -⟩
        rw [hlit] at hl
        cases hl
  · next lit hlit =>
      have hw (q i : String) (hq : q ≠ p) : w q i ↔ w q i ∨ q = p ∧ i = id := by simp [hq]
      have hfull := Deps.full_add (h.full_group lit) p id
      refine ⟨h.keys_full, h.keyed hlit hw, fun l g hg => ?_, ?_, fun n => ?_, h.unbroken⟩
      · change (s.patterns.insert lit _)[l]? = some g at hg
        rw [get_insert] at hg
        split at hg
        · obtain rfl := Option.some.inj hg
          refine ⟨hfull, Bool.eq_false_iff.mpr fun hempty => ?_⟩
          have hnone := (Deps.isEmpty_iff hfull).mp hempty p
          rw [Deps.at_add, if_pos rfl] at hnone
          exact Finset.insert_ne_empty _ _ hnone
        · exact h.group_full l g hg
      · refine h.grouped hlit hw (group_insert rfl) fun q i => ?_
        rw [Deps.at_add]
        split
        · rw [Finset.mem_insert]
          show i = id ∨ i ∈ (s.group lit).at_ p ↔ _
          rw [h.group_iff, hlit]
          simp [or_comm]
        · rfl
      · show _ = counted (tally _ (s.patterns.insert lit _))
        rw [tally_insert]
        rcases hg : s.patterns[lit]? with _ | g
        · rw [erase_absent hg]
          show (s.literalLens.insert _ _)[n]? = _
          rw [get_insert, h.lens, counted_getD]
          split
          · next hn =>
              subst hn
              rw [Nat.add_comm 1]
              rfl
          · next hn =>
              rw [Nat.zero_add, h.lens]
              rfl
        · show s.literalLens[n]? = _
          rw [h.lens, groups, tally_erase _ hg]

theorem lessLen_frame (s : Space) (n : Nat) :
    s.lessLen n = { s with literalLens := (s.lessLen n).literalLens, broken := (s.lessLen n).broken } := by
  unfold lessLen
  split <;> rfl

theorem lessLen_counted {n : Nat} {k : Nat → Nat} (hlens : ∀ m : Nat, s.literalLens[m]? = counted (k m)) (hpos : 0 < k n) :
    (s.lessLen n).broken = s.broken ∧
      ∀ m : Nat, (s.lessLen n).literalLens[m]? = counted (if n = m then k m - 1 else k m) := by
  obtain ⟨c, hc⟩ : ∃ c, k n = c + 1 := ⟨k n - 1, by omega⟩
  have hn := hlens n
  rw [hc, counted] at hn
  unfold lessLen
  rw [hn]
  cases c with
  | zero =>
      refine ⟨rfl, fun m => ?_⟩
      show (s.literalLens.erase n)[m]? = _
      rw [get_erase, hlens]
      split
      · next hnm => rw [← hnm, hc]; rfl
      · rfl
  | succ c =>
      refine ⟨rfl, fun m => ?_⟩
      show (s.literalLens.insert n (c + 1))[m]? = _
      rw [get_insert, hlens]
      split
      · next hnm => rw [← hnm, hc]; rfl
      · rfl

theorem indexed_dropDep (h : s.Indexed w) (p id : String) :
    (s.dropDep p id).Indexed fun q i => w q i ∧ ¬(q = p ∧ i = id) := by
  unfold dropDep
  split
  · next hlit =>
      refine ⟨Deps.full_drop h.keys_full p id, fun q i => ?_, h.group_full, fun lit q i => ?_, h.lens, h.unbroken⟩
      · rw [Deps.at_drop]
        split
        · next hpq =>
            subst hpq
            rw [Finset.mem_erase, h.keys_iff, hlit]
            simp [and_comm]
        · next hpq =>
            rw [h.keys_iff]
            simp [Ne.symm hpq]
      · show i ∈ (s.group lit).at_ q ↔ _
        rw [h.group_iff]
        refine and_congr_right fun hl => ⟨fun hw => ⟨hw, ?_⟩, And.left⟩
        rintro ⟨rfl, -⟩
        rw [hlit] at hl
        exact nomatch hl
  · next lit hlit =>
      have hw (q i : String) (hq : q ≠ p) : w q i ↔ w q i ∧ ¬(q = p ∧ i = id) := by simp [hq]
      split
      · next hnone =>
          refine h.congr fun q i => ⟨fun hwi => ⟨hwi, ?_⟩, And.left⟩
          rintro ⟨rfl, rfl⟩
          have hin := (h.group_iff lit q i).mpr ⟨hlit, hwi⟩
          rw [group, hnone, Option.getD_none, Deps.at_empty] at hin
          simp at hin
      · next g hg =>
          have hgroup : s.group lit = g := by rw [group, hg, Option.getD_some]
          have hfull := Deps.full_drop (h.group_full lit g hg).1 p id
          have hdrop (q i : String) :
              i ∈ (g.drop p id).at_ q ↔ if p = q then w p i ∧ ¬(p = p ∧ i = id) else i ∈ (s.group lit).at_ q := by
            rw [Deps.at_drop, ← hgroup]
            split
            · rw [Finset.mem_erase, h.group_iff, hlit]
              simp [and_comm]
            · rfl
          split
          · next hempty =>
              have hat := (Deps.isEmpty_iff hfull).mp hempty
              have hpos : 0 < s.groups (len lit) := by
                rw [groups, tally_erase _ hg, if_pos rfl]
                omega
              obtain ⟨hbroken, hlens⟩ := lessLen_counted
                (s := { s with patterns := s.patterns.erase lit }) h.lens hpos
              rw [lessLen_frame]
              refine ⟨h.keys_full, h.keyed hlit hw, fun l g' hg' => ?_, ?_, fun n => ?_, hbroken.trans h.unbroken⟩
              · change (s.patterns.erase lit)[l]? = some g' at hg'
                rw [get_erase] at hg'
                split at hg'
                · exact nomatch hg'
                · exact h.group_full l g' hg'
              · refine h.grouped hlit hw (g := g.drop p id) (fun l => ?_) hdrop
                refine (group_erase (s := s) rfl l).trans ?_
                split
                · exact (ExtTreeMap.isEmpty_iff.mp hempty).symm
                · rfl
              · refine (hlens n).trans (congrArg counted ?_)
                rw [groups, groups, tally_erase _ hg]
                split
                · exact Nat.add_sub_cancel_left 1 _
                · exact Nat.zero_add _
          · next hempty =>
              refine ⟨h.keys_full, h.keyed hlit hw, fun l g' hg' => ?_, h.grouped hlit hw (group_insert rfl) hdrop,
                fun n => ?_, h.unbroken⟩
              · change (s.patterns.insert lit _)[l]? = some g' at hg'
                rw [get_insert] at hg'
                split at hg'
                · obtain rfl := Option.some.inj hg'
                  exact ⟨hfull, Bool.eq_false_iff.mpr hempty⟩
                · exact h.group_full l g' hg'
              · rw [h.lens, groups, groups, tally_insert, tally_erase _ hg]

end Space

end KivaDb.Semantic
