import KivaDb.Semantic.Indexed
import KivaDb.Resp.Reply

namespace KivaDb.Semantic

open Std Glob Lib.Tally

theorem takeBytes_prefix (cs ds : List Char) : takeBytes (cs ++ ds) (byteLen cs) = some cs := by
  induction cs with
  | nil =>
      show takeBytes ds 0 = some []
      rw [takeBytes.eq_def]
  | cons c cs ih =>
      have hpos := c.utf8Size_pos
      have hlen : byteLen (c :: cs) = (c.utf8Size - 1 + byteLen cs) + 1 := by
        show c.utf8Size + byteLen cs = _
        omega
      rw [hlen, List.cons_append, takeBytes, if_pos (by omega)]
      have hrest : c.utf8Size - 1 + byteLen cs + 1 - c.utf8Size = byteLen cs := by omega
      rw [hrest, ih]
      rfl

theorem byteLen_append (cs ds : List Char) : byteLen (cs ++ ds) = byteLen cs + byteLen ds := by
  simp [byteLen]

theorem eq_of_literal_none {p key : String} (hp : literal p = none) (h : globMatch p key = true) : p = key := by
  have hany : p.toList.any isWild = false := by
    unfold literal at hp
    split at hp
    · exact nomatch hp
    · next hany => exact Bool.eq_false_iff.mpr hany
  exact String.toList_inj.mp (eq_of_globLoop _ _ _ (by simpa using hany) h)

theorem literal_prefix {p key lit : String} (hp : literal p = some lit) (h : globMatch p key = true) :
    ∃ rest, key.toList = lit.toList ++ rest := by
  unfold literal at hp
  split at hp
  · obtain ⟨rest, hrest⟩ := globPrefix_prefix h
    refine ⟨rest, ?_⟩
    rw [← Option.some.inj hp, String.toList_ofList, hrest]
  · exact nomatch hp

theorem mem_foldr_union {α : Type} (f : α → Finset String) (xs : List α) (id : String) :
    id ∈ xs.foldr (fun x ids => f x ∪ ids) ∅ ↔ ∃ x ∈ xs, id ∈ f x := by
  induction xs with
  | nil => simp
  | cons x xs ih => simp [ih]

namespace Space

variable [Ground] {s : Space}

/-- The entry `id` depends on `p`. -/
def Depends (s : Space) (p id : String) : Prop := ∃ e, s.entries[id]? = some e ∧ p ∈ e.depends

/-- The indexes are the inverse of what the entries depend on, and texts and ids are those
of present entries. -/
structure Exact (s : Space) : Prop where
  indexed : s.Indexed s.Depends
  texts : ∀ t id : String, s.texts[t]? = some id → ∃ e, s.entries[id]? = some e ∧ e.text = some t
  ids : ∀ (id : String) (e : Entry), s.entries[id]? = some e → ∃ k ≤ s.next, id = toString k

theorem mem_stale (h : s.Exact) {p id key : String} (hdep : s.Depends p id) (hp : globMatch p key = true) :
    id ∈ s.stale key := by
  rw [stale, Finset.mem_union]
  rcases hlit : literal p with _ | lit
  · left
    rw [← eq_of_literal_none hlit hp]
    exact (h.indexed.keys_iff p id).mpr ⟨hlit, hdep⟩
  · right
    have hin := (h.indexed.group_iff lit p id).mpr ⟨hlit, hdep⟩
    obtain ⟨g, hg⟩ : ∃ g, s.patterns[lit]? = some g := by
      rcases hg : s.patterns[lit]? with _ | g
      · rw [group, hg, Option.getD_none, Deps.at_empty] at hin
        simp at hin
      · exact ⟨g, rfl⟩
    rw [group, hg, Option.getD_some] at hin
    obtain ⟨ids, hids, hid⟩ : ∃ ids, g[p]? = some ids ∧ id ∈ ids := by
      rcases hids : g[p]? with _ | ids
      · rw [Deps.at_, hids] at hin
        simp at hin
      · rw [Deps.at_, hids] at hin
        exact ⟨ids, rfl, hin⟩
    obtain ⟨rest, hrest⟩ := literal_prefix hlit hp
    have hlen : len lit ≤ len key := by
      rw [len, len, hrest, byteLen_append]
      exact Nat.le_add_right _ _
    have hmem : len lit ∈ s.literalLens.keys := by
      rw [ExtTreeMap.mem_keys, ExtTreeMap.mem_iff_isSome_getElem?, h.indexed.lens, groups, tally_erase _ hg, if_pos rfl,
        Nat.add_comm]
      rfl
    rw [mem_foldr_union]
    refine ⟨len lit, List.mem_filter.mpr ⟨hmem, decide_eq_true hlen⟩, ?_⟩
    have htake : takeBytes key.toList (len lit) = some lit.toList := by
      rw [hrest, len]
      exact takeBytes_prefix _ _
    rw [htake, Option.bind_some, String.ofList_toList, hg]
    refine (mem_foldr_union _ _ _).mpr ⟨(p, ids), List.mem_filter.mpr ⟨?_, hp⟩, hid⟩
    exact ExtTreeMap.mem_toList_iff_getElem?_eq_some.mpr hids

/-- What the indexes of patterns leave alone. -/
structure Frame (s s' : Space) : Prop where
  entries : s'.entries = s.entries
  texts : s'.texts = s.texts
  next : s'.next = s.next

theorem Frame.refl (s : Space) : s.Frame s := ⟨rfl, rfl, rfl⟩

theorem Frame.trans {s' s'' : Space} (h : s.Frame s') (h' : s'.Frame s'') : s.Frame s'' :=
  ⟨h'.entries.trans h.entries, h'.texts.trans h.texts, h'.next.trans h.next⟩

theorem frame_addDep (s : Space) (p id : String) : s.Frame (s.addDep p id) := by
  unfold addDep
  split <;> exact ⟨rfl, rfl, rfl⟩

theorem frame_dropDep (s : Space) (p id : String) : s.Frame (s.dropDep p id) := by
  unfold dropDep
  split
  · exact ⟨rfl, rfl, rfl⟩
  · split
    · exact ⟨rfl, rfl, rfl⟩
    · split
      · rw [lessLen_frame]
        exact ⟨rfl, rfl, rfl⟩
      · exact ⟨rfl, rfl, rfl⟩

theorem addDeps {w : String → String → Prop} (h : s.Indexed w) (ps : List String) (id : String) :
    s.Frame (ps.foldl (fun s p => s.addDep p id) s) ∧
      (ps.foldl (fun s p => s.addDep p id) s).Indexed fun q i => w q i ∨ q ∈ ps ∧ i = id := by
  induction ps generalizing s w with
  | nil => exact ⟨.refl s, h.congr fun q i => by simp⟩
  | cons p ps ih =>
      obtain ⟨hframe, hindexed⟩ := ih (indexed_addDep h p id)
      refine ⟨(frame_addDep s p id).trans hframe, hindexed.congr fun q i => ?_⟩
      rw [List.mem_cons, or_and_right, or_assoc]

theorem dropDeps {w : String → String → Prop} (h : s.Indexed w) (ps : List String) (id : String) :
    s.Frame (ps.foldl (fun s p => s.dropDep p id) s) ∧
      (ps.foldl (fun s p => s.dropDep p id) s).Indexed fun q i => w q i ∧ ¬(q ∈ ps ∧ i = id) := by
  induction ps generalizing s w with
  | nil => exact ⟨.refl s, h.congr fun q i => by simp⟩
  | cons p ps ih =>
      obtain ⟨hframe, hindexed⟩ := ih (indexed_dropDep h p id)
      refine ⟨(frame_dropDep s p id).trans hframe, hindexed.congr fun q i => ?_⟩
      rw [List.mem_cons, or_and_right, not_or, and_assoc]

theorem Indexed.sameIndexes {s' : Space} {w : String → String → Prop} (h : s.Indexed w) (hkeys : s'.keys = s.keys)
    (hpatterns : s'.patterns = s.patterns) (hlens : s'.literalLens = s.literalLens) (hbroken : s'.broken = s.broken) :
    s'.Indexed w := by
  have hgroup (lit : String) : s'.group lit = s.group lit := by rw [group, group, hpatterns]
  have hgroups (n : Nat) : s'.groups n = s.groups n := by rw [groups, groups, hpatterns]
  refine ⟨?_, ?_, ?_, ?_, ?_, ?_⟩
  · rw [hkeys]
    exact h.keys_full
  · rw [hkeys]
    exact h.keys_iff
  · rw [hpatterns]
    exact h.group_full
  · intro lit
    rw [hgroup]
    exact h.group_iff lit
  · intro n
    rw [hlens, hgroups]
    exact h.lens n
  · exact hbroken.trans h.unbroken

theorem exact_new : (new : Space).Exact where
  indexed := {
    keys_full := Deps.full_empty
    keys_iff := fun p id => by
      show id ∈ Deps.at_ ∅ p ↔ _
      rw [Deps.at_empty]
      simp [Depends, new]
    group_full := fun lit g hg => by simp [new] at hg
    group_iff := fun lit p id => by
      have hgroup : (new : Space).group lit = ∅ := by simp [group, new]
      rw [hgroup, Deps.at_empty]
      simp [Depends, new]
    lens := fun n => by simp [new, groups, counted]
    unbroken := rfl }
  texts := fun t id h => by simp [new] at h
  ids := fun id e h => by simp [new] at h

theorem get_taken_texts (hs : s.Exact) {e : Entry} {id : String} (he : s.entries[id]? = some e) {t i : String}
    (h : (s.taken id e).texts[t]? = some i) : s.texts[t]? = some i ∧ i ≠ id := by
  have hkept : s.texts[t]? = some i := by
    simp only [taken] at h
    split at h
    · split at h
      · rw [get_erase] at h
        split at h
        · exact nomatch h
        · exact h
      · exact h
    · exact h
  refine ⟨hkept, ?_⟩
  rintro rfl
  obtain ⟨e', he', ht⟩ := hs.texts t i hkept
  rw [he] at he'
  obtain rfl := Option.some.inj he'
  simp only [taken, ht, hkept, if_true, get_erase] at h
  exact nomatch h

theorem Exact.tidied (hs : s.Exact) : s.tidied.Exact := ⟨hs.indexed.sameIndexes rfl rfl rfl rfl, hs.texts, hs.ids⟩

theorem exact_taken (hs : s.Exact) {id : String} {e : Entry} (he : s.entries[id]? = some e) :
    (e.depends.foldl (fun s p => s.dropDep p id) (s.taken id e)).Exact := by
  obtain ⟨⟨hentries, htexts, hnext⟩, hindexed⟩ :=
    dropDeps (s := s.taken id e) (hs.indexed.sameIndexes rfl rfl rfl rfl) e.depends id
  have hget (i : String) : (e.depends.foldl (fun s p => s.dropDep p id) (s.taken id e)).entries[i]? =
      if id = i then none else s.entries[i]? := by
    rw [hentries]
    exact get_erase _ _ _
  refine ⟨hindexed.congr fun p i => ?_, fun t i hti => ?_, fun i e' hi => ?_⟩
  · unfold Depends
    rw [hget]
    by_cases hi : id = i
    · subst hi
      simp [he]
    · simp [hi, Ne.symm hi]
  · rw [htexts] at hti
    obtain ⟨hkept, hne⟩ := get_taken_texts hs he hti
    rw [hget, if_neg (Ne.symm hne)]
    exact hs.texts t i hkept
  · rw [hget] at hi
    split at hi
    · exact nomatch hi
    · rw [hnext]
      exact hs.ids i e' hi

theorem remove_spec (hs : s.Exact) (id : String) :
    (s.remove id).Exact ∧ (s.remove id).entries = s.entries.erase id ∧ (s.remove id).next = s.next := by
  unfold remove
  split
  · next hnone => exact ⟨hs.tidied, (erase_absent hnone).symm, rfl⟩
  · next e he =>
      have hframe := (dropDeps (s := s.taken id e) (hs.indexed.sameIndexes rfl rfl rfl rfl) e.depends id).1
      exact ⟨(exact_taken hs he).tidied, hframe.entries, hframe.next⟩

/-- The entries of `s'` are some of those of `s`. -/
structure Less (s s' : Space) : Prop where
  exact : s'.Exact
  entries : ∀ (id : String) (e : Entry), s'.entries[id]? = some e → s.entries[id]? = some e
  next : s'.next = s.next

theorem Less.refl (hs : s.Exact) : s.Less s := ⟨hs, fun _ _ h => h, rfl⟩

theorem Less.trans {s' s'' : Space} (h : s.Less s') (h' : s'.Less s'') : s.Less s'' :=
  ⟨h'.exact, fun id e he => h.entries id e (h'.entries id e he), h'.next.trans h.next⟩

theorem less_remove (hs : s.Exact) (id : String) : s.Less (s.remove id) ∧ (s.remove id).entries[id]? = none := by
  obtain ⟨hexact, hentries, hnext⟩ := remove_spec hs id
  refine ⟨⟨hexact, fun i e he => ?_, hnext⟩, ?_⟩
  · rw [hentries, get_erase] at he
    split at he
    · exact nomatch he
    · exact he
  · rw [hentries, get_erase, if_pos rfl]

theorem less_removes (hs : s.Exact) (ids : List String) :
    s.Less (ids.foldl remove s) ∧ ∀ id ∈ ids, (ids.foldl remove s).entries[id]? = none := by
  induction ids generalizing s with
  | nil => exact ⟨.refl hs, fun id h => nomatch h⟩
  | cons id ids ih =>
      obtain ⟨hless, hgone⟩ := less_remove hs id
      obtain ⟨hrest, hnone⟩ := ih hless.exact
      refine ⟨hless.trans hrest, fun i hi => ?_⟩
      rcases List.mem_cons.mp hi with rfl | hi
      · rcases hget : (List.foldl remove s (i :: ids)).entries[i]? with _ | e
        · rfl
        · have := hrest.entries i e hget
          rw [hgone] at this
          exact nomatch this
      · exact hnone i hi

theorem less_purge (hs : s.Exact) (now : Int) : s.Less (s.purge now) := (less_removes hs _).1

/-- No entry that depends on the key is left. -/
theorem less_invalidate (hs : s.Exact) (key : String) :
    s.Less (s.invalidate key).1 ∧ ∀ p id, (s.invalidate key).1.Depends p id → globMatch p key = false := by
  obtain ⟨hless, hgone⟩ := less_removes hs ((s.stale key).sort (· ≤ ·))
  refine ⟨⟨⟨hless.exact.indexed.sameIndexes rfl rfl rfl rfl, hless.exact.texts, hless.exact.ids⟩, hless.entries,
    hless.next⟩, ?_⟩
  rintro p id ⟨e, he, hp⟩
  refine Bool.eq_false_iff.mpr fun hglob => ?_
  have hstale := mem_stale hs ⟨e, hless.entries id e he, hp⟩ hglob
  have hnone := hgone id ((Finset.mem_sort _).mpr hstale)
  exact nomatch hnone.symm.trans he

end Space

end KivaDb.Semantic
