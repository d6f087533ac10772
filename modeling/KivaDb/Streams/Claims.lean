import KivaDb.Lib.Fallible
import KivaDb.Streams.Commands

namespace KivaDb.Streams

open Std (ExtTreeMap)
open Resp

theorem atLeast_le (lo n : Int64) : lo ≤ atLeast lo n := by
  unfold atLeast
  split
  · exact Int64.le_refl lo
  · next h => exact Int64.not_lt.mp h

theorem le_atLeast (lo n : Int64) : n.toInt ≤ (atLeast lo n).toInt := by
  unfold atLeast
  split
  · next h => exact Int.le_of_lt (Int64.lt_iff_toInt_lt.mp h)
  · exact Int.le_refl _

theorem atLeast_pos {n : Int64} : 0 < atLeast 0 n ↔ 0 < n := by
  unfold atLeast
  split
  · next h =>
      rw [Int64.lt_iff_toInt_lt] at h ⊢
      rw [Int64.lt_iff_toInt_lt]
      omega
  · exact Iff.rfl

theorem not_mem_iff {α : Type} {m : ExtTreeMap Id α compare} {id : Id} : m[id]? = none ↔ id ∉ m := by
  rw [ExtTreeMap.mem_iff_isSome_getElem?, Option.not_isSome_iff_eq_none]

section

variable [Build]

/-- An idle time that reaches a bound is not a wrapped one: the clock does not stand before 1970. -/
theorem idle_reaches {now delivered idle minIdle : Int64} (hnow : 0 ≤ now) (hmin : 0 ≤ minIdle) (h : sub now delivered = some idle) :
    ¬ idle < minIdle ↔ minIdle.toInt ≤ now.toInt - delivered.toInt ∧ now.toInt - delivered.toInt < 2 ^ 63 := by
  have hidle : idle = now - delivered := by
    unfold sub at h
    split at h
    · exact nomatch h
    · exact (Option.some.inj h).symm
  have hnow' : 0 ≤ now.toInt := Int64.le_iff_toInt_le.mp hnow
  have hmin' : 0 ≤ minIdle.toInt := Int64.le_iff_toInt_le.mp hmin
  have hd := Int64.toInt_lt delivered
  have hd' := Int64.le_toInt delivered
  have hn := Int64.toInt_lt now
  rw [Int64.lt_iff_toInt_lt, hidle, Int64.toInt_sub, Int.bmod_def]
  omega

theorem sub_self (now : Int64) : sub now now = some 0 := by
  unfold sub
  rw [if_neg (by omega), Int64.sub_self]

end

/-- What claiming makes of the pending entries: those of `out` are given, and the others are left as
they were, dropped with entries that are gone, or, when forced, made pending and not given. -/
structure Claimed (now m : Int64) (consumer : String) (force : Bool) (entries : Entries) (out : List Id) (pending pending' : Pel) :
    Prop where
  others : ∀ id, id ∉ out → pending'[id]? = pending[id]? ∨ (id ∉ entries ∧ pending'[id]? = none) ∨
    (pending[id]? = none ∧ id ∈ entries ∧ force = true ∧ 0 < m ∧ pending'[id]? = some ⟨consumer, now, 0⟩)
  given : ∀ id ∈ out, id ∈ entries ∧ (∃ p, pending'[id]? = some p ∧ p.consumer = consumer) ∧
    ((∃ p, pending[id]? = some p ∧ m.toInt ≤ now.toInt - p.delivered.toInt) ∨ (pending[id]? = none ∧ force = true ∧ ¬ 0 < m))

section

variable {now m : Int64} {consumer : String} {force : Bool} {entries : Entries} {out out' : List Id} {pending pending' pending'' : Pel}

theorem Claimed.refl : Claimed now m consumer force entries [] pending pending :=
  ⟨fun _ _ => .inl rfl, nofun⟩

/-- What is claimed from what was claimed before was there to be claimed at first. -/
theorem Claimed.trans (h : Claimed now m consumer force entries out pending pending')
    (h' : Claimed now m consumer force entries out' pending' pending'') :
    Claimed now m consumer force entries (out ++ out') pending pending'' := by
  constructor
  · intro id hid
    rw [List.mem_append, not_or] at hid
    rcases h.others id hid.1 with hsame | ⟨hgone, hnone⟩ | ⟨hnone, hin, hforce, hm, hsome⟩
    · rw [← hsame]
      exact h'.others id hid.2
    · rcases h'.others id hid.2 with hsame | hdrop | ⟨-, hin, -⟩
      · exact .inr (.inl ⟨hgone, hsame.trans hnone⟩)
      · exact .inr (.inl hdrop)
      · exact absurd hin hgone
    · rcases h'.others id hid.2 with hsame | ⟨hgone, -⟩ | ⟨hnone', -⟩
      · exact .inr (.inr ⟨hnone, hin, hforce, hm, hsame.trans hsome⟩)
      · exact absurd hin hgone
      · rw [hsome] at hnone'
        exact nomatch hnone'
  · intro id hid
    by_cases hfirst : id ∈ out
    · obtain ⟨hin, ⟨p, hp, howner⟩, hwhy⟩ := h.given id hfirst
      refine ⟨hin, ?_, hwhy⟩
      by_cases hsecond : id ∈ out'
      · exact (h'.given id hsecond).2.1
      · rcases h'.others id hsecond with hsame | ⟨hgone, -⟩ | ⟨hnone, -⟩
        · exact ⟨p, hsame.trans hp, howner⟩
        · exact absurd hin hgone
        · rw [hp] at hnone
          exact nomatch hnone
    · obtain ⟨hin, howner, hwhy⟩ := h'.given id ((List.mem_append.mp hid).resolve_left hfirst)
      refine ⟨hin, howner, ?_⟩
      rcases h.others id hfirst with hsame | ⟨hgone, -⟩ | ⟨-, -, -, hm, hsome⟩
      · rwa [← hsame]
      · exact absurd hin hgone
      · rcases hwhy with ⟨p, hp, hidle⟩ | ⟨hnone, -⟩
        · rw [hsome] at hp
          rw [← Option.some.inj hp] at hidle
          have hm' := Int64.lt_iff_toInt_lt.mp hm
          have hzero : (0 : Int64).toInt = 0 := rfl
          dsimp only at hidle
          omega
        · rw [hsome] at hnone
          exact nomatch hnone

theorem Claimed.of_erase {id : Id} (h : id ∉ entries) : Claimed now m consumer force entries [] pending (pending.erase id) := by
  refine ⟨fun i _ => ?_, nofun⟩
  rw [ExtTreeMap.getElem?_erase]
  by_cases hi : compare id i = .eq
  · rw [if_pos hi]
    exact .inr (.inl ⟨compare_eq_iff_eq.mp hi ▸ h, rfl⟩)
  · rw [if_neg hi]
    exact .inl rfl

theorem Claimed.of_given {id : Id} {p : Pending} (h : id ∈ entries) (hsame : ∀ i, i ≠ id → pending'[i]? = pending[i]?)
    (hsome : pending'[id]? = some p) (howner : p.consumer = consumer)
    (hwhy : (∃ p, pending[id]? = some p ∧ m.toInt ≤ now.toInt - p.delivered.toInt) ∨ (pending[id]? = none ∧ force = true ∧ ¬ 0 < m)) :
    Claimed now m consumer force entries [id] pending pending' := by
  refine ⟨fun i hi => ?_, fun i hi => ?_⟩
  · exact .inl (hsame i fun heq => hi (List.mem_singleton.mpr heq))
  · rw [List.mem_singleton.mp hi]
    exact ⟨h, ⟨p, hsome, howner⟩, hwhy⟩

theorem Claimed.stays {id : Id} (h : Claimed now m consumer force entries out pending pending')
    (hin : id ∈ entries) (hp : id ∈ pending) : id ∈ pending' := by
  rw [ExtTreeMap.mem_iff_isSome_getElem?] at hp ⊢
  by_cases hout : id ∈ out
  · obtain ⟨-, ⟨p, hsome, -⟩, -⟩ := h.given id hout
    rw [hsome]
    rfl
  · rcases h.others id hout with hsame | ⟨hgone, -⟩ | ⟨-, -, -, -, hsome⟩
    · rwa [hsame]
    · exact absurd hin hgone
    · rw [hsome]
      rfl

theorem getElem?_insert_ne {id i : Id} {p : Pending} (h : i ≠ id) : (pending.insert id p)[i]? = pending[i]? := by
  rw [ExtTreeMap.getElem?_insert, if_neg fun heq => h (compare_eq_iff_eq.mp heq).symm]

end

section

variable [Build] {now m : Int64} {consumer : String} {set : ClaimSettings} {entries : Entries} {pending pending' : Pel} {id : Id}
  {p : Pending} {r : Option (List String)}

theorem claimPending_cases (h : claimPending now m consumer set entries pending id p = some (pending', r)) :
    (id ∉ entries ∧ pending' = pending.erase id ∧ r = none) ∨
    (id ∈ entries ∧ ∃ idle, sub now p.delivered = some idle ∧ idle < m ∧ pending' = pending ∧ r = none) ∨
    (id ∈ entries ∧ ∃ idle, sub now p.delivered = some idle ∧ ¬ idle < m ∧ r = entries[id]? ∧
      ∃ p' : Pending, p'.consumer = consumer ∧ pending' = pending.insert id p') := by
  unfold claimPending at h
  cases hentry : entries[id]? with
  | none =>
      rw [hentry] at h
      cases h
      exact .inl ⟨not_mem_iff.mp hentry, rfl, rfl⟩
  | some fields =>
      rw [hentry] at h
      have hin : id ∈ entries := ExtTreeMap.mem_iff_isSome_getElem?.mpr (by rw [hentry]; rfl)
      obtain ⟨idle, hidle, hrest⟩ := Option.bind_eq_some_iff.mp h
      dsimp only at hrest
      split at hrest
      · next hlt =>
          cases hrest
          exact .inr (.inl ⟨hin, idle, hidle, hlt, rfl, rfl⟩)
      · next hle =>
          cases hrest
          exact .inr (.inr ⟨hin, idle, hidle, hle, rfl, _, rfl, rfl⟩)

theorem claimPending_other {i : Id} (hi : i ≠ id) (h : claimPending now m consumer set entries pending id p = some (pending', r)) :
    pending'[i]? = pending[i]? := by
  rcases claimPending_cases h with ⟨-, rfl, -⟩ | ⟨-, -, -, -, rfl, -⟩ | ⟨-, -, -, -, -, p', -, rfl⟩
  · rw [ExtTreeMap.getElem?_erase, if_neg fun heq => hi (compare_eq_iff_eq.mp heq).symm]
  · rfl
  · exact getElem?_insert_ne hi

theorem claimOne_other {i : Id} (hi : i ≠ id) (h : claimOne now m consumer set entries pending id = some (pending', r)) :
    pending'[i]? = pending[i]? := by
  unfold claimOne at h
  split at h
  · exact claimPending_other hi h
  · split at h
    · exact (claimPending_other hi h).trans (getElem?_insert_ne hi)
    · cases h
      rfl

theorem claimOne_claimed (hnow : 0 ≤ now) (hm : 0 ≤ m) (h : claimOne now m consumer set entries pending id = some (pending', r)) :
    Claimed now m consumer set.force entries (r.toList.map fun _ => id) pending pending' := by
  unfold claimOne at h
  cases hp : pending[id]? with
  | some p =>
      rw [hp] at h
      rcases claimPending_cases h with ⟨hgone, rfl, rfl⟩ | ⟨-, idle, -, -, rfl, rfl⟩ | ⟨hin, idle, hidle, hle, rfl, p', howner, rfl⟩
      · exact Claimed.of_erase hgone
      · exact Claimed.refl
      · obtain ⟨fields, hfields⟩ := Option.isSome_iff_exists.mp (ExtTreeMap.mem_iff_isSome_getElem?.mp hin)
        rw [hfields]
        exact Claimed.of_given hin (fun i hi => getElem?_insert_ne hi) ExtTreeMap.getElem?_insert_self howner
          (.inl ⟨p, hp, ((idle_reaches hnow hm hidle).mp hle).1⟩)
  | none =>
      rw [hp] at h
      by_cases hforce : set.force ∧ id ∈ entries
      · dsimp only at h
        rw [if_pos hforce] at h
        rcases claimPending_cases h with ⟨hgone, -⟩ | ⟨hin, idle, hidle, hlt, rfl, rfl⟩ | ⟨hin, idle, hidle, hle, rfl, p', howner, rfl⟩
        · exact absurd hforce.2 hgone
        · dsimp only at hidle
          rw [sub_self] at hidle
          cases hidle
          refine ⟨fun i _ => ?_, nofun⟩
          by_cases hi : i = id
          · rw [hi]
            exact .inr (.inr ⟨hp, hin, hforce.1, hlt, ExtTreeMap.getElem?_insert_self⟩)
          · exact .inl (getElem?_insert_ne hi)
        · dsimp only at hidle
          rw [sub_self] at hidle
          cases hidle
          obtain ⟨fields, hfields⟩ := Option.isSome_iff_exists.mp (ExtTreeMap.mem_iff_isSome_getElem?.mp hin)
          rw [hfields]
          exact Claimed.of_given hin (fun i hi => (getElem?_insert_ne hi).trans (getElem?_insert_ne hi))
            ExtTreeMap.getElem?_insert_self howner (.inr ⟨hp, hforce.1, hle⟩)
      · dsimp only at h
        rw [if_neg hforce] at h
        cases h
        exact Claimed.refl

theorem claimAll_claimed {ids : List Id} {out : List (Id × List String)} (hnow : 0 ≤ now) (hm : 0 ≤ m)
    (h : claimAll now m consumer set entries ids pending = some (pending', out)) :
    Claimed now m consumer set.force entries (out.map Prod.fst) pending pending' := by
  induction ids generalizing pending out with
  | nil =>
      cases h
      exact Claimed.refl
  | cons id ids ih =>
      obtain ⟨⟨middle, r⟩, hone, hrest⟩ := Option.bind_eq_some_iff.mp h
      obtain ⟨⟨last, out'⟩, hall, heq⟩ := Option.bind_eq_some_iff.mp hrest
      cases heq
      have hstep := (claimOne_claimed hnow hm hone).trans (ih hall)
      rwa [List.map_append, List.map_map]

theorem claimOne_forced (hforce : set.force = true) (hin : id ∈ entries)
    (h : claimOne now m consumer set entries pending id = some (pending', r)) : id ∈ pending' := by
  unfold claimOne at h
  cases hp : pending[id]? with
  | some p =>
      have hmem : id ∈ pending := ExtTreeMap.mem_iff_isSome_getElem?.mpr (by rw [hp]; rfl)
      rw [hp] at h
      rcases claimPending_cases h with ⟨hgone, -⟩ | ⟨-, -, -, -, rfl, -⟩ | ⟨-, -, -, -, -, p', -, rfl⟩
      · exact absurd hin hgone
      · exact hmem
      · exact ExtTreeMap.mem_insert_self
  | none =>
      rw [hp] at h
      dsimp only at h
      rw [if_pos ⟨hforce, hin⟩] at h
      rcases claimPending_cases h with ⟨hgone, -⟩ | ⟨-, -, -, -, rfl, -⟩ | ⟨-, -, -, -, -, p', -, rfl⟩
      · exact absurd hin hgone
      · exact ExtTreeMap.mem_insert_self
      · exact ExtTreeMap.mem_insert_self

/-- A forced id is pending afterwards, whether it was given or not. -/
theorem claimAll_forced {ids : List Id} {out : List (Id × List String)} (hnow : 0 ≤ now) (hm : 0 ≤ m) (hforce : set.force = true)
    (hin : id ∈ entries) (hid : id ∈ ids) (h : claimAll now m consumer set entries ids pending = some (pending', out)) : id ∈ pending' := by
  induction ids generalizing pending out with
  | nil => exact nomatch hid
  | cons i ids ih =>
      obtain ⟨⟨middle, r⟩, hone, hrest⟩ := Option.bind_eq_some_iff.mp h
      obtain ⟨⟨last, out'⟩, hall, heq⟩ := Option.bind_eq_some_iff.mp hrest
      cases heq
      rcases List.mem_cons.mp hid with rfl | hlater
      · exact (claimAll_claimed hnow hm hall).stays hin (claimOne_forced hforce hin hone)
      · exact ih hlater hall

theorem claimAll_others {ids : List Id} {out : List (Id × List String)} (hid : id ∉ ids)
    (h : claimAll now m consumer set entries ids pending = some (pending', out)) : id ∈ pending' ↔ id ∈ pending := by
  induction ids generalizing pending out with
  | nil =>
      cases h
      exact Iff.rfl
  | cons i ids ih =>
      obtain ⟨hne, hlater⟩ := List.ne_and_not_mem_of_not_mem_cons hid
      obtain ⟨⟨middle, r⟩, hone, hrest⟩ := Option.bind_eq_some_iff.mp h
      obtain ⟨⟨last, out'⟩, hall, heq⟩ := Option.bind_eq_some_iff.mp hrest
      cases heq
      rw [ih hlater hall, ExtTreeMap.mem_iff_isSome_getElem?, ExtTreeMap.mem_iff_isSome_getElem?, claimOne_other hne hone]

theorem claimSettings_force {opts : List ClaimOption} {set' : ClaimSettings} (h : claimSettings now opts set = some set') :
    set'.force = true ↔ set.force = true ∨ .force ∈ opts := by
  induction opts generalizing set with
  | nil =>
      cases h
      simp
  | cons opt opts ih =>
      cases opt with
      | idle n =>
          obtain ⟨delivered, -, hrest⟩ := Option.bind_eq_some_iff.mp h
          simpa using ih hrest
      | time n =>
          have hrest : claimSettings now opts { set with delivered := some n } = some set' := h
          simpa using ih hrest
      | retryCount n =>
          have hrest : claimSettings now opts { set with retry := some (toCount n) } = some set' := h
          simpa using ih hrest
      | lastId i =>
          have hrest : claimSettings now opts set = some set' := h
          simpa using ih hrest
      | force =>
          have hrest : claimSettings now opts { set with force := true } = some set' := h
          simpa using ih hrest
      | justId =>
          have hrest : claimSettings now opts { set with justId := true } = some set' := h
          simpa using ih hrest

theorem sweepFrom_claimed {justId full : Bool} {count : Nat} {ids : List Id} {w w' : Sweep} (hnow : 0 ≤ now) (hm : 0 ≤ m)
    (h : sweepFrom now m consumer justId entries count full ids w = some w') :
    ∃ out, w'.claimed = w.claimed ++ out ∧ Claimed now m consumer false entries (out.map Prod.fst) w.pending w'.pending := by
  induction ids generalizing w with
  | nil =>
      cases h
      exact ⟨[], (List.append_nil _).symm, Claimed.refl⟩
  | cons id ids ih =>
      rw [sweepFrom] at h
      by_cases hfull : count ≤ w.taken
      · rw [if_pos hfull] at h
        cases h
        exact ⟨[], (List.append_nil _).symm, Claimed.refl⟩
      · rw [if_neg hfull] at h
        obtain ⟨v, hv, hclaimed, hpending⟩ : ∃ v : Sweep, (if ids = [] ∧ full then { w with next := id.next.getD .zero } else w) = v ∧
            v.claimed = w.claimed ∧ v.pending = w.pending := by
          refine ⟨_, rfl, ?_⟩
          split <;> exact ⟨rfl, rfl⟩
        dsimp only at h
        rw [hv] at h
        rw [← hclaimed, ← hpending]
        cases hentry : entries[id]? with
        | none =>
            rw [hentry] at h
            obtain ⟨out, hout, hstep⟩ := ih h
            exact ⟨out, hout, (Claimed.of_erase (not_mem_iff.mp hentry)).trans hstep⟩
        | some fields =>
            have hin : id ∈ entries := ExtTreeMap.mem_iff_isSome_getElem?.mpr (by rw [hentry]; rfl)
            cases hp : v.pending[id]? with
            | none =>
                rw [hentry, hp] at h
                cases h
            | some p =>
                rw [hentry, hp] at h
                obtain ⟨idle, hidle, hrest⟩ := Option.bind_eq_some_iff.mp h
                by_cases hlt : idle < m
                · rw [if_pos hlt] at hrest
                  exact ih hrest
                · rw [if_neg hlt] at hrest
                  obtain ⟨out, hout, hstep⟩ := ih hrest
                  refine ⟨(id, fields) :: out, hout.trans (List.append_assoc _ _ _), ?_⟩
                  exact (Claimed.of_given (p := ⟨consumer, now, _⟩) hin (fun i hi => getElem?_insert_ne hi)
                    ExtTreeMap.getElem?_insert_self rfl (.inl ⟨p, hp, ((idle_reaches hnow hm hidle).mp hlt).1⟩)).trans hstep

end

/-- Claiming changes what it returns, and nothing else. -/
structure ClaimsWell (minIdle now : Int64) (consumer : String) (force : Prop) (entries : Entries) (out : List Id) (pending pending' : Pel) :
    Prop where
  kept : ∀ id p, pending[id]? = some p → id ∉ out → pending'[id]? = some p ∨ (id ∉ entries ∧ pending'[id]? = none)
  fresh : ∀ id, pending[id]? = none → id ∉ out → pending'[id]? = none
  given : ∀ id ∈ out, (∃ p, pending'[id]? = some p ∧ p.consumer = consumer) ∧
    ((∃ p, pending[id]? = some p ∧ minIdle.toInt ≤ now.toInt - p.delivered.toInt) ∨ (pending[id]? = none ∧ force))

theorem Claimed.well {now minIdle : Int64} {consumer : String} {force : Bool} {entries : Entries} {out : List Id} {pending pending' : Pel}
    (h : Claimed now (atLeast 0 minIdle) consumer force entries out pending pending')
    (hno : ∀ id ∈ entries, id ∉ pending → id ∉ out → id ∈ pending' → force = true → ¬ 0 < minIdle) :
    ClaimsWell minIdle now consumer (force = true) entries out pending pending' := by
  refine ⟨?_, ?_, ?_⟩
  · intro id p hp hout
    rcases h.others id hout with hsame | hgone | ⟨hnone, -⟩
    · exact .inl (hsame.trans hp)
    · exact .inr hgone
    · rw [hp] at hnone
      exact nomatch hnone
  · intro id hnone hout
    rcases h.others id hout with hsame | ⟨-, hgone⟩ | ⟨-, hin, hforce, hm, hsome⟩
    · exact hsame.trans hnone
    · exact hgone
    · have hmem : id ∈ pending' := ExtTreeMap.mem_iff_isSome_getElem?.mpr (by rw [hsome]; rfl)
      exact absurd (atLeast_pos.mp hm) (hno id hin (not_mem_iff.mp hnone) hout hmem hforce)
  · intro id hid
    obtain ⟨-, howner, hwhy⟩ := h.given id hid
    refine ⟨howner, ?_⟩
    rcases hwhy with ⟨p, hp, hidle⟩ | ⟨hnone, hforce, -⟩
    · exact .inl ⟨p, hp, Int.le_trans (le_atLeast 0 minIdle) hidle⟩
    · exact .inr ⟨hnone, hforce⟩

theorem storeStream_ok {e : Env} {s s' : Stream} (h : storeStream e s = .ok s') : s' = s := by
  unfold storeStream at h
  split at h
  · exact nomatch h
  · exact (Except.ok.inj h).symm

theorem map_storeStream_ok {α : Type} {e : Env} {s s' : Stream} {a a' : α} (h : (storeStream e s).map (fun s => (s, a)) = .ok (s', a')) :
    s' = s ∧ a' = a := by
  cases hs : storeStream e s with
  | error why =>
      rw [hs] at h
      exact nomatch h
  | ok stored =>
      rw [hs] at h
      cases h
      exact ⟨storeStream_ok hs, rfl⟩

theorem groupOf_ok {e : Env} {group : String} {s : Stream} {g : Group} (h : s.groups[group]? = some g) :
    groupOf e group (some s) = .ok (s, g) := by
  unfold groupOf
  dsimp only
  rw [h]

section

variable {s : Stream} {group name : String} {g : Group}

@[simp]
theorem setGroup_entries : (s.setGroup group g).entries = s.entries := rfl

theorem setGroup_self : (s.setGroup group g).groups[group]? = some g := ExtTreeMap.getElem?_insert_self

theorem setGroup_other (h : name ≠ group) : (s.setGroup group g).groups[name]? = s.groups[name]? := by
  unfold Stream.setGroup
  rw [ExtTreeMap.getElem?_insert, if_neg fun heq => h (Std.LawfulEqCmp.eq_of_compare heq).symm]

end

section

variable [Build] {e : Env} {group consumer : String} {minIdle : Int64} {s s' : Stream} {g : Group} {out : List (Id × List String)}

theorem xclaim_claimed {ids : List Id} {opts : List ClaimOption} (hg : s.groups[group]? = some g)
    (h : xclaim e group consumer minIdle ids opts (some s) = some (.ok (s', out))) :
    ∃ set pending, claimSettings e.now opts ⟨none, none, false, false⟩ = some set ∧
      claimAll e.now (atLeast 0 minIdle) consumer set s.entries ids g.pending = some (pending, out) ∧
      s' = s.setGroup group ({ g with pending := pending }.touch consumer e.now !out.isEmpty) := by
  obtain ⟨set, hset, hrest⟩ := Option.bind_eq_some_iff.mp h
  rw [groupOf_ok hg] at hrest
  obtain ⟨⟨pending, out'⟩, hall, hstore⟩ := Option.bind_eq_some_iff.mp hrest
  obtain ⟨rfl, rfl⟩ := map_storeStream_ok (Option.some.inj hstore)
  exact ⟨set, pending, hset, hall, rfl⟩

theorem xautoclaim_claimed {start next : Id} {count : Int64} {justId : Bool} {deleted : List Id} (hg : s.groups[group]? = some g)
    (h : xautoclaim e group consumer minIdle start count justId (some s) = some (.ok (s', next, out, deleted))) :
    ∃ window w, mul (toCount (atLeast 1 count)) 10 = some window ∧
      sweepFrom e.now (atLeast 0 minIdle) consumer justId s.entries (toCount (atLeast 1 count)).toNat
        (((range g.pending start window.toNat).map Prod.fst).length = window.toNat)
        ((range g.pending start window.toNat).map Prod.fst) ⟨g.pending, .zero, 0, [], []⟩ = some w ∧
      next = w.next ∧ out = w.claimed ∧ deleted = w.deleted ∧
      s' = s.setGroup group ({ g with pending := w.pending }.touch consumer e.now (0 < w.taken)) := by
  unfold xautoclaim at h
  rw [groupOf_ok hg] at h
  obtain ⟨window, hwindow, hrest⟩ := Option.bind_eq_some_iff.mp h
  obtain ⟨w, hw, hstore⟩ := Option.bind_eq_some_iff.mp hrest
  obtain ⟨rfl, heq⟩ := map_storeStream_ok (Option.some.inj hstore)
  cases heq
  exact ⟨window, w, hwindow, hw, rfl, rfl, rfl, rfl⟩

/-- The entries that `XCLAIM` is forced to make pending, and does not find idle for long enough to give. -/
def HiddenForce (minIdle : Int64) (ids : List Id) (opts : List ClaimOption) (entries : Entries) (pending : Pel) : Prop :=
  .force ∈ opts ∧ 0 < minIdle ∧ ∃ id ∈ ids, id ∈ entries ∧ id ∉ pending

/-- Whatever is claimed, by `XCLAIM` or by `XAUTOCLAIM`, only one group of the stream changes, and of
its pending entries just those that are returned, but where `XCLAIM` is forced to make an entry pending. -/
theorem claims_change (hg : s.groups[group]? = some g) :
    (∀ ids opts s' out, xclaim e group consumer minIdle ids opts (some s) = some (.ok (s', out)) →
      s'.entries = s.entries ∧ (∀ name, name ≠ group → s'.groups[name]? = s.groups[name]?) ∧
      ∃ g', s'.groups[group]? = some g' ∧
        (ClaimsWell minIdle e.now consumer (.force ∈ opts) s.entries (out.map Prod.fst) g.pending g'.pending ↔
          ¬ HiddenForce minIdle ids opts s.entries g.pending)) ∧
    (∀ start count justId s' next out deleted,
      xautoclaim e group consumer minIdle start count justId (some s) = some (.ok (s', next, out, deleted)) →
      s'.entries = s.entries ∧ (∀ name, name ≠ group → s'.groups[name]? = s.groups[name]?) ∧
      ∃ g', s'.groups[group]? = some g' ∧
        ClaimsWell minIdle e.now consumer False s.entries (out.map Prod.fst) g.pending g'.pending) := by
  have hm : 0 ≤ atLeast 0 minIdle := atLeast_le 0 minIdle
  constructor
  · intro ids opts s' out h
    obtain ⟨set, pending, hset, hall, rfl⟩ := xclaim_claimed hg h
    refine ⟨rfl, fun name => setGroup_other, _, setGroup_self, ?_⟩
    have hclaimed := claimAll_claimed e.now_nonneg hm hall
    have hforce : set.force = true ↔ .force ∈ opts := by
      simpa using claimSettings_force hset
    constructor
    · rintro hwell ⟨hopts, hpos, id, hid, hin, hnot⟩
      have hnone := not_mem_iff.mpr hnot
      have hmem : id ∈ pending := claimAll_forced e.now_nonneg hm (hforce.mpr hopts) hin hid hall
      have hout : id ∉ out.map Prod.fst := by
        intro hout
        rcases (hclaimed.given id hout).2.2 with ⟨p, hp, -⟩ | ⟨-, -, hle⟩
        · rw [hnone] at hp
          cases hp
        · exact hle (atLeast_pos.mpr hpos)
      exact not_mem_iff.mp (hwell.fresh id hnone hout) hmem
    · intro hno
      have hwell : ClaimsWell minIdle e.now consumer (set.force = true) s.entries (out.map Prod.fst) g.pending pending := by
        refine hclaimed.well fun id hin hnot hout hmem hset hpos => hno ⟨hforce.mp hset, hpos, id, ?_, hin, hnot⟩
        by_contra hid
        exact hnot ((claimAll_others hid hall).mp hmem)
      rw [hforce] at hwell
      exact hwell
  · intro start count justId s' next out deleted h
    obtain ⟨window, w, -, hw, -, rfl, -, rfl⟩ := xautoclaim_claimed hg h
    refine ⟨rfl, fun name => setGroup_other, _, setGroup_self, ?_⟩
    obtain ⟨out, hout, hclaimed⟩ := sweepFrom_claimed e.now_nonneg hm hw
    rw [List.nil_append] at hout
    rw [hout]
    have hwell := hclaimed.well fun id _ _ _ _ hforce => (by cases hforce)
    rw [Bool.false_eq_true] at hwell
    exact hwell

end

section Samples

local instance claimsBuild : Build := ⟨true⟩

def claimsEnv : Env := ⟨"jobs", 1000, 0, by decide⟩

def workers (pending : Pel) : Group := ⟨.zero, some 0, pending, ∅⟩

/-- A stream of one entry, and a group with some pending. -/
def oneJob (pending : Pel) : Stream :=
  (Stream.empty.add ⟨1, 0⟩ ["task", "a"]).setGroup "workers" (workers pending)

def heldByBob : Pel := (∅ : Pel).insert ⟨1, 0⟩ ⟨"bob", 10, 1⟩

def pendingOf (s : Stream) (group : String) : List (Id × Pending) := (s.groups[group]?.map fun g => g.pending.toList).getD []

theorem claimed_of_pendingOf {α : Type} (r : Option (Except Reply (Stream × α))) (out : α) (group : String) (id : Id) (p : Pending)
    (rows : List (Id × Pending))
    (h : (r.bind Except.toOption).map (fun x => (x.2, pendingOf x.1 group)) = some (out, (id, p) :: rows)) :
    ∃ s' g', r = some (.ok (s', out)) ∧ s'.groups[group]? = some g' ∧ g'.pending[id]? = some p := by
  obtain ⟨⟨s', out'⟩, hr, heq⟩ := Option.map_eq_some_iff.mp h
  obtain ⟨x, hx, hok⟩ := Option.bind_eq_some_iff.mp hr
  rw [hx, Lib.Fallible.toOption_eq_some.mp hok]
  have hout : out' = out := congrArg Prod.fst heq
  have hrows : pendingOf s' group = (id, p) :: rows := congrArg Prod.snd heq
  unfold pendingOf at hrows
  cases hg : s'.groups[group]? with
  | none =>
      rw [hg] at hrows
      cases hrows
  | some g' =>
      rw [hg] at hrows
      have hlist : g'.pending.toList = (id, p) :: rows := hrows
      refine ⟨s', g', by rw [hout], hg, ?_⟩
      rw [← ExtTreeMap.mem_toList_iff_getElem?_eq_some, hlist]
      exact List.mem_cons_self

/-- `XCLAIM` with a minimum idle time makes the entry pending by force, and does not return it. -/
theorem oneJob_hidden : ∃ s' g', xclaim claimsEnv "workers" "ada" 1 [⟨1, 0⟩] [.force] (some (oneJob ∅)) = some (.ok (s', [])) ∧
    s'.groups["workers"]? = some g' ∧
    ¬ ClaimsWell 1 1000 "ada" (ClaimOption.force ∈ [.force]) (oneJob ∅).entries [] ∅ g'.pending := by
  obtain ⟨s', g', hclaim, hg', hp⟩ := claimed_of_pendingOf
    (xclaim claimsEnv "workers" "ada" 1 [⟨1, 0⟩] [.force] (some (oneJob ∅))) [] "workers" ⟨1, 0⟩ ⟨"ada", 1000, 0⟩ []
    (by decide)
  refine ⟨s', g', hclaim, hg', fun hwell => ?_⟩
  have hnone := hwell.fresh ⟨1, 0⟩ ExtTreeMap.getElem?_empty nofun
  rw [hp] at hnone
  exact nomatch hnone

set_option synthInstance.maxSize 1000 in
/-- The same claim without a minimum, and the claim of an entry that another consumer has held for long. -/
theorem oneJob_given :
    (∃ s' g', xclaim claimsEnv "workers" "ada" 0 [⟨1, 0⟩] [.force] (some (oneJob ∅)) = some (.ok (s', [(⟨1, 0⟩, ["task", "a"])])) ∧
      s'.groups["workers"]? = some g' ∧
      ClaimsWell 0 1000 "ada" (ClaimOption.force ∈ [.force]) (oneJob ∅).entries [⟨1, 0⟩] ∅ g'.pending) ∧
    ∃ s' g', xautoclaim claimsEnv "workers" "ada" 900 .zero 10 false (some (oneJob heldByBob)) =
        some (.ok (s', .zero, [(⟨1, 0⟩, ["task", "a"])], [])) ∧
      s'.groups["workers"]? = some g' ∧
      ClaimsWell 900 1000 "ada" False (oneJob heldByBob).entries [⟨1, 0⟩] heldByBob g'.pending := by
  constructor
  · obtain ⟨s', -, hclaim, -⟩ := claimed_of_pendingOf
      (xclaim claimsEnv "workers" "ada" 0 [⟨1, 0⟩] [.force] (some (oneJob ∅))) [(⟨1, 0⟩, ["task", "a"])]
      "workers" ⟨1, 0⟩ ⟨"ada", 1000, 1⟩ [] (by decide)
    obtain ⟨-, -, g', hg', hiff⟩ := (claims_change (g := workers ∅) setGroup_self).1 _ _ _ _ hclaim
    exact ⟨s', g', hclaim, hg', hiff.mpr fun hhidden => absurd hhidden.2.1 (by decide)⟩
  · obtain ⟨s', -, hclaim, -⟩ := claimed_of_pendingOf
      (xautoclaim claimsEnv "workers" "ada" 900 .zero 10 false (some (oneJob heldByBob)))
      (.zero, [(⟨1, 0⟩, ["task", "a"])], []) "workers" ⟨1, 0⟩ ⟨"ada", 1000, 2⟩ [] (by decide)
    obtain ⟨-, -, g', hg', hwell⟩ := (claims_change (g := workers heldByBob) setGroup_self).2 _ _ _ _ _ _ _ hclaim
    exact ⟨s', g', hclaim, hg', hwell⟩

end Samples

end KivaDb.Streams
