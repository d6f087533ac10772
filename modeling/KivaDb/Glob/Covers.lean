import KivaDb.Glob.Language

namespace KivaDb.Glob

open Lib.Greedy

/-- The pattern without the `*` it ends with, if it ends with one. -/
def stripStar (p : List Char) : Option (List Char) := if p.getLast? = some '*' then some p.dropLast else none

/-- Whether an index on `index` holds every key of a query on `query`. -/
def patternCovers (index query : String) : Bool :=
  index = query || index = "*" ||
    match stripStar index.toList with
    | some pre => !pre.any isWild && pre.isPrefixOf query.toList
    | none => false

theorem stripStar_eq_some {p pre : List Char} : stripStar p = some pre ↔ p = pre ++ ['*'] := by
  unfold stripStar
  constructor
  · intro h
    split at h
    · next hlast =>
        rw [← Option.some.inj h]
        exact (List.dropLast_append_getLast? '*' hlast).symm
    · exact nomatch h
  · rintro rfl
    simp

theorem reads_literal {pre p t : List Char} (h : ∀ c ∈ pre, isWild c = false) :
    Reads on isStar (pre ++ p) (pre ++ t) ↔ Reads on isStar p t := by
  induction pre with
  | nil => rfl
  | cons c pre ih =>
      have hon : on c c = .take := if_pos (.inr rfl)
      rw [List.cons_append, List.cons_append, Reads, hon]
      exact ih fun d hd => h d (List.mem_cons_of_mem c hd)

/-- A `*` at the end matches any rest but one that goes on after a `*`. -/
theorem reads_star (t : List Char) : Reads on isStar ['*'] t ↔ t.head? = some '*' → t = ['*'] := by
  cases t with
  | nil =>
      refine ⟨fun _ h => (nomatch h), fun _ => ?_⟩
      exact ⟨rfl, rfl⟩
  | cons c t =>
      rw [Reads, List.head?_cons, Option.some.injEq]
      by_cases hc : '*' = c
      · have hon : on '*' c = .take := if_pos (.inr hc)
        rw [hon, ← hc]
        simp [Reads]
      · have hon : on '*' c = .run := (if_neg (by simp [hc])).trans (if_pos rfl)
        rw [hon]
        exact ⟨fun _ h => absurd h.symm hc, fun _ => ⟨[], List.nil_suffix, rfl⟩⟩

/-- The pattern of an index that covers another is a text and a `*`, and the keys of the
other begin with this text. -/
theorem covers_cases {p q k : String} (h : patternCovers p q = true) (hk : globMatch q k = true) :
    p = q ∨ ∃ pre t, p.toList = pre ++ ['*'] ∧ (∀ c ∈ pre, isWild c = false) ∧ k.toList = pre ++ t := by
  unfold patternCovers at h
  rw [Bool.or_eq_true, Bool.or_eq_true, decide_eq_true_eq, decide_eq_true_eq] at h
  rcases h with (h | h) | h
  · exact .inl h
  · refine .inr ⟨[], k.toList, ?_, fun c hc => (nomatch hc), rfl⟩
    rw [h]
    decide
  · split at h
    · next pre hpre =>
        rw [Bool.and_eq_true, Bool.not_eq_true', List.any_eq_false, List.isPrefixOf_iff_prefix] at h
        have hwild : ∀ c ∈ pre, isWild c = false := fun c hc => Bool.eq_false_iff.mpr (h.1 c hc)
        have hprefix : pre <+: globPrefix q := by
          obtain ⟨r, hr⟩ := h.2
          rw [globPrefix, ← hr, List.takeWhile_append_of_pos fun c hc => by rw [hwild c hc, Bool.not_false]]
          exact List.prefix_append pre _
        have hbegins := globPrefix_prefix hk
        obtain ⟨t, ht⟩ := hprefix.trans hbegins
        exact .inr ⟨pre, t, stripStar_eq_some.mp hpre, hwild, ht.symm⟩
    · exact nomatch h

/-- An index on `p` holds every key of a query on `q`, and a prefix scan misses none. -/
structure Complete (p q k : String) : Prop where
  held : patternCovers p q = true → globMatch q k = true → globMatch p k = true
  scanned : globMatch q k = true → globPrefix q <+: k.toList

/-- The key does not begin with the pattern of the index as a text and go on after it. -/
def Apart (p q k : String) : Prop :=
  patternCovers p q = true → globMatch q k = true → p ≠ q → p.toList <+: k.toList → p.toList = k.toList

theorem globMatch_reads {p k : String} : globMatch p k = true ↔ Reads on isStar p.toList k.toList := by
  rw [globMatch_iff, reads_iff]

theorem complete_iff_apart (p q k : String) : Complete p q k ↔ Apart p q k := by
  constructor
  · intro h hcovers hk hne hprefix
    obtain heq | ⟨pre, t, hp, hwild, ht⟩ := covers_cases hcovers hk
    · exact absurd heq hne
    · have hread := globMatch_reads.mp (h.held hcovers hk)
      rw [hp, ht] at hread hprefix ⊢
      obtain ⟨r, rfl⟩ := (List.prefix_append_right_inj pre).mp hprefix
      rw [(reads_star _).mp ((reads_literal hwild).mp hread) rfl]
  · intro h
    refine ⟨fun hcovers hk => ?_, globPrefix_prefix⟩
    by_cases hpq : p = q
    · rwa [hpq]
    · obtain heq | ⟨pre, t, hp, hwild, ht⟩ := covers_cases hcovers hk
      · exact absurd heq hpq
      · have hapart := h hcovers hk hpq
        rw [hp, ht] at hapart
        rw [globMatch_reads, hp, ht, reads_literal hwild, reads_star]
        intro hhead
        obtain ⟨r, rfl⟩ : ∃ r, t = '*' :: r := List.head?_eq_some_iff.mp hhead
        exact (List.append_cancel_left (hapart ((List.prefix_append_right_inj pre).mpr ⟨r, rfl⟩))).symm

/-- `user:*` covers `user:**`, and does not match the key `user:**`. -/
theorem star_covers_stars : patternCovers "user:*" "user:**" = true ∧ globMatch "user:**" "user:**" = true ∧
    globMatch "user:*" "user:**" = false := by
  have hp : "user:*".toList = ['u', 's', 'e', 'r', ':', '*'] := by decide
  have hq : "user:**".toList = ['u', 's', 'e', 'r', ':', '*', '*'] := by decide
  refine ⟨?_, ?_, ?_⟩
  · simp [patternCovers, stripStar, hp, hq, isWild]
  · simp [globMatch, hq, globLoop]
  · simp [globMatch, hp, hq, globLoop, globLoop.back]

end KivaDb.Glob
