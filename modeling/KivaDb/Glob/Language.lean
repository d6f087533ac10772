import KivaDb.Glob
import KivaDb.Lib.Greedy

namespace KivaDb.Glob

open Lib.Greedy

/-- What a character of a glob does with a character of the text. -/
def on (x c : Char) : Verdict :=
  if x = '?' ∨ x = c then .take
  else if x = '*' then .run
  else .stop

def isStar (x : Char) : Bool := x = '*'

/-- `glob_match` on positions. -/
def globAt (pattern text : String) : Option Bool :=
  let p := pattern.toList
  let t := text.toList
  scan on isStar p t ((t.length + 1) * (p.length + 2)) 0 0 none

theorem globLoop_eq (fuel : Nat) (p t : List Char) (star : Option (List Char × List Char)) :
    globLoop fuel p t star = greedy on isStar fuel p t star := by
  induction fuel generalizing p t star with
  | zero => rw [globLoop, greedy]
  | succ fuel ih =>
      have hback : globLoop.back fuel star = greedy.back on isStar fuel star := by
        rcases star with _ | ⟨sp, mark⟩
        · rw [globLoop.back, greedy.back]
        · rw [globLoop.back, greedy.back, ih]
      cases t with
      | nil =>
          rw [globLoop, greedy]
          rfl
      | cons c t =>
          cases p with
          | nil => rw [globLoop, greedy, hback]
          | cons x p =>
              rw [globLoop, greedy]
              simp only [on]
              split
              · exact ih p t star
              · split
                · exact ih p (c :: t) _
                · exact hback

/-- The runs of characters that a character of a glob stands for. -/
def Fits (x : Char) (w : List Char) : Prop :=
  if x = '*' then True
  else if x = '?' then w.length = 1
  else w = [x]

theorem fits_star (w : List Char) : Fits '*' w := trivial

theorem fits_one (w : List Char) : Fits '?' w ↔ ∃ c, w = [c] := List.length_eq_one_iff

theorem fits_char {x : Char} (hone : x ≠ '?') (hstar : x ≠ '*') (w : List Char) : Fits x w ↔ w = [x] := by
  rw [Fits, if_neg hstar, if_neg hone]

/-- A text split along a glob. -/
def Splits (p t : List Char) (ws : List (List Char)) : Prop := List.Forall₂ Fits p ws ∧ ws.flatten = t

def Matches (p t : List Char) : Prop := ∃ ws, Splits p t ws

/-- Where the text goes on with a `*` at a `*` of the glob, this one stands for that
character alone. -/
def Literal : List Char → List (List Char) → Prop
  | x :: p, w :: ws => (x = '*' → (w :: ws).flatten.head? = some '*' → w = ['*']) ∧ Literal p ws
  | _, _ => True

theorem splits_cons {x : Char} {p t : List Char} :
    (∃ ws, Splits (x :: p) t ws ∧ Literal (x :: p) ws) ↔
      ∃ w u, t = w ++ u ∧ Fits x w ∧ (x = '*' → t.head? = some '*' → w = ['*']) ∧
        ∃ ws, Splits p u ws ∧ Literal p ws := by
  constructor
  · rintro ⟨_, ⟨hfits, rfl⟩, hlit⟩
    cases hfits with
    | @cons _ w _ ws hx hfits => exact ⟨w, ws.flatten, rfl, hx, hlit.1, ws, ⟨hfits, rfl⟩, hlit.2⟩
  · rintro ⟨w, _, rfl, hx, hlit, ws, ⟨hfits, rfl⟩, hrest⟩
    exact ⟨w :: ws, ⟨.cons hx hfits, rfl⟩, hlit, hrest⟩

theorem fits_take {x c : Char} (h : x = '?' ∨ x = c) : Fits x [c] := by
  by_cases hstar : x = '*'
  · rw [hstar]
    exact fits_star [c]
  · by_cases hone : x = '?'
    · rw [hone]
      exact (fits_one [c]).mpr ⟨c, rfl⟩
    · rw [fits_char hone hstar, h.resolve_left hone]

/-- What a character of a glob takes at once is all it stands for. -/
theorem eq_of_take {x c : Char} {t w u : List Char} (h : x = '?' ∨ x = c) (ht : c :: t = w ++ u) (hx : Fits x w)
    (hlit : x = '*' → (c :: t).head? = some '*' → w = ['*']) : w = [c] := by
  by_cases hone : x = '?'
  · obtain ⟨d, rfl⟩ := (fits_one w).mp (hone ▸ hx)
    rw [(List.cons.inj ht).1]
  · have hc := h.resolve_left hone
    by_cases hstar : x = '*'
    · rw [hlit hstar (congrArg some (hc.symm.trans hstar)), ← hc, hstar]
    · rw [(fits_char hone hstar w).mp hx, hc]

theorem reads_iff (p t : List Char) : Reads on isStar p t ↔ ∃ ws, Splits p t ws ∧ Literal p ws := by
  induction p generalizing t with
  | nil =>
      rw [Reads]
      constructor
      · rintro rfl
        exact ⟨[], ⟨.nil, rfl⟩, trivial⟩
      · rintro ⟨_, ⟨hfits, rfl⟩, -⟩
        cases hfits
        rfl
  | cons x p ih =>
      rw [splits_cons]
      cases t with
      | nil =>
          rw [Reads, ih]
          constructor
          · rintro ⟨hx, hrest⟩
            obtain rfl : x = '*' := of_decide_eq_true hx
            exact ⟨[], [], rfl, fits_star [], fun _ h => (by cases h), hrest⟩
          · rintro ⟨w, u, h, hx, -, hrest⟩
            obtain ⟨rfl, rfl⟩ := List.append_eq_nil_iff.mp h.symm
            refine ⟨decide_eq_true ?_, hrest⟩
            by_contra hstar
            by_cases hone : x = '?'
            · obtain ⟨c, hc⟩ := (fits_one []).mp (hone ▸ hx)
              cases hc
            · cases (fits_char hone hstar []).mp hx
      | cons c t =>
          rw [Reads]
          by_cases htake : x = '?' ∨ x = c
          · have hon : on x c = .take := if_pos htake
            rw [hon, ih]
            constructor
            · intro hrest
              refine ⟨[c], t, rfl, fits_take htake, fun hstar hhead => ?_, hrest⟩
              rw [List.head?_cons, Option.some.injEq] at hhead
              rw [hhead]
            · rintro ⟨w, u, h, hx, hlit, hrest⟩
              obtain rfl := eq_of_take htake h hx hlit
              rwa [(List.cons.inj h).2]
          · by_cases hstar : x = '*'
            · have hon : on x c = .run := (if_neg htake).trans (if_pos hstar)
              rw [hon]
              simp only [ih]
              constructor
              · rintro ⟨u, ⟨w, hw⟩, hrest⟩
                refine ⟨w, u, hw.symm, hstar ▸ fits_star w, fun _ hhead => ?_, hrest⟩
                rw [List.head?_cons, Option.some.injEq] at hhead
                exact absurd (.inr (hstar.trans hhead.symm)) htake
              · rintro ⟨w, u, hw, -, -, hrest⟩
                exact ⟨u, ⟨w, hw.symm⟩, hrest⟩
            · have hon : on x c = .stop := (if_neg htake).trans (if_neg hstar)
              rw [hon]
              refine ⟨False.elim, ?_⟩
              rintro ⟨w, u, h, hx, -, -⟩
              rw [(fits_char (fun hone => htake (.inl hone)) hstar w).mp hx] at h
              exact htake (.inr (List.cons.inj h).1.symm)

theorem globMatch_iff (pattern text : String) :
    globMatch pattern text = true ↔ ∃ ws, Splits pattern.toList text.toList ws ∧ Literal pattern.toList ws := by
  rw [globMatch, globLoop_eq, greedy_start (cost_start _ _), reads_iff]

theorem globAt_eq (pattern text : String) : globAt pattern text = some (globMatch pattern text) := by
  rw [globAt, globMatch, globLoop_eq]
  exact scan_start (cost_start _ _)

/-- The loop ends, and its answer is whether the text is in the language of the glob. -/
def Answers (pattern text : String) : Prop :=
  ∃ b, globAt pattern text = some b ∧ (b = true ↔ Matches pattern.toList text.toList)

/-- A text of the language can be split so that no `*` of the glob stands where the text
has a `*` for other than that character alone. -/
def Plain (pattern text : String) : Prop :=
  Matches pattern.toList text.toList → ∃ ws, Splits pattern.toList text.toList ws ∧ Literal pattern.toList ws

theorem answers_iff_plain (pattern text : String) : Answers pattern text ↔ Plain pattern text := by
  rw [Answers, Plain, globAt_eq]
  constructor
  · rintro ⟨b, hb, hiff⟩ hmatches
    rw [← globMatch_iff, Option.some.inj hb]
    exact hiff.mpr hmatches
  · intro h
    refine ⟨_, rfl, fun htrue => ?_, fun hmatches => ?_⟩
    · obtain ⟨ws, hsplits, -⟩ := (globMatch_iff pattern text).mp htrue
      exact ⟨ws, hsplits⟩
    · exact (globMatch_iff pattern text).mpr (h hmatches)

theorem literal_of_not_mem {p : List Char} {ws : List (List Char)} (h : '*' ∉ ws.flatten) : Literal p ws := by
  induction ws generalizing p with
  | nil =>
      cases p with
      | _ => trivial
  | cons w ws ih =>
      cases p with
      | nil => trivial
      | cons x p =>
          rw [List.flatten_cons, List.mem_append, not_or] at h
          refine ⟨fun _ hhead => absurd (List.mem_of_head? hhead) ?_, ih h.2⟩
          rw [List.flatten_cons, List.mem_append, not_or]
          exact h

/-- A text without a `*` is matched by the globs it is in the language of. -/
theorem plain_of_not_mem (pattern : String) {text : String} (h : '*' ∉ text.toList) : Plain pattern text := by
  rintro ⟨ws, hfits, hflat⟩
  exact ⟨ws, ⟨hfits, hflat⟩, literal_of_not_mem (hflat ▸ h)⟩

/-- `*` does not match `*a`. -/
theorem star_misses_star : globMatch "*" "*a" = false ∧ Matches "*".toList "*a".toList ∧ ¬ Answers "*" "*a" := by
  have hp : "*".toList = ['*'] := by decide
  have ht : "*a".toList = ['*', 'a'] := by decide
  have hmiss : globMatch "*" "*a" = false := by
    simp [globMatch, hp, ht, globLoop, globLoop.back]
  have hmatches : Matches "*".toList "*a".toList := by
    rw [hp, ht]
    exact ⟨[['*', 'a']], .cons (fits_star _) .nil, rfl⟩
  refine ⟨hmiss, hmatches, ?_⟩
  rintro ⟨b, hb, hiff⟩
  rw [globAt_eq, hmiss, Option.some.injEq] at hb
  rw [← hb] at hiff
  exact Bool.noConfusion (hiff.mpr hmatches)

end KivaDb.Glob
