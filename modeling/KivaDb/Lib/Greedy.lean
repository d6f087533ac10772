import Mathlib.Data.List.Forall2

namespace KivaDb.Lib.Greedy

/-- What a token of a pattern does with a character: takes it, starts a run, or neither. -/
inductive Verdict
  | take
  | run
  | stop

variable {τ α : Type} (on : τ → α → Verdict) (idle : τ → Bool)

/-- Greedy matching that goes back to its last run only, on what is left of the pattern
and of the text. `last` is what followed the last run, in the pattern and in the text it
was tried at. -/
def greedy : Nat → List τ → List α → Option (List τ × List α) → Bool
  | 0, _, _, _ => false
  | _ + 1, p, [], _ => p.all idle
  | fuel + 1, [], _ :: _, last => back fuel last
  | fuel + 1, x :: p, c :: t, last =>
      match on x c with
      | .take => greedy fuel p t last
      | .run => greedy fuel p (c :: t) (some (p, c :: t))
      | .stop => back fuel last
where
  /-- The last run takes one more character. -/
  back (fuel : Nat) : Option (List τ × List α) → Bool
    | some (sp, mark) => greedy fuel sp mark.tail (some (sp, mark.tail))
    | none => false

/-- The texts read by a pattern when every run is tried at every length. -/
def Reads : List τ → List α → Prop
  | [], t => t = []
  | x :: p, [] => idle x = true ∧ Reads p []
  | x :: p, c :: t =>
      match on x c with
      | .take => Reads p t
      | .run => ∃ u, u <:+ c :: t ∧ Reads p u
      | .stop => False

/-- The tokens take these characters, one each. -/
def Takes (p : List τ) (t : List α) : Prop := List.Forall₂ (fun x c => on x c = .take) p t

/-- An upper bound of the steps that are left. -/
def cost (p : List τ) (t : List α) : Option (List τ × List α) → Nat
  | none => p.length + 1 + t.length * (p.length + 2)
  | some (sp, mark) => p.length + 1 + mark.length * (sp.length + 2)

variable {on idle}

theorem reads_nil {p : List τ} : Reads on idle p [] ↔ p.all idle = true := by
  induction p with
  | nil => simp [Reads]
  | cons x p ih => rw [Reads, ih, List.all_cons, Bool.and_eq_true]

/-- Tokens that took characters from the front of a text leave the others no shorter a
rest, wherever the reading starts. -/
theorem reads_later {pre p : List τ} {w t u : List α} (h : Takes on pre w) (hu : u <:+ w ++ t)
    (hr : Reads on idle (pre ++ p) u) : ∃ v, v <:+ t ∧ Reads on idle p v := by
  induction h generalizing u with
  | nil => exact ⟨u, hu, hr⟩
  | @cons x c pre w hx _ ih =>
      rcases List.suffix_cons_iff.mp hu with rfl | hu
      · rw [List.cons_append, Reads, hx] at hr
        exact ih List.suffix_rfl hr
      · cases u with
        | nil => exact ih List.nil_suffix hr.2
        | cons d u =>
            rw [List.cons_append, Reads] at hr
            split at hr
            · exact ih ((List.suffix_cons d u).trans hu) hr
            · obtain ⟨v, hv, hr⟩ := hr
              exact ih (hv.trans hu) hr
            · exact hr.elim

/-- What a token reads, a run in its place reads. -/
theorem reads_run {x : τ} {p : List τ} {u : List α} (h : Reads on idle (x :: p) u) :
    ∃ v, v <:+ u ∧ Reads on idle p v := by
  cases u with
  | nil => exact ⟨[], List.suffix_rfl, h.2⟩
  | cons c u =>
      rw [Reads] at h
      split at h
      · exact ⟨u, List.suffix_cons c u, h⟩
      · exact h
      · exact h.elim

/-- A run takes no more characters, or one more at least. -/
theorem reads_suffix {p : List τ} {t : List α} : (Reads on idle p t ∨ ∃ u, u <:+ t.tail ∧ Reads on idle p u) ↔
    ∃ u, u <:+ t ∧ Reads on idle p u := by
  constructor
  · rintro (h | ⟨u, hu, h⟩)
    · exact ⟨t, List.suffix_rfl, h⟩
    · exact ⟨u, hu.trans (List.tail_suffix t), h⟩
  · rintro ⟨u, hu, h⟩
    cases t with
    | nil =>
        rw [List.suffix_nil.mp hu] at h
        exact .inl h
    | cons c t =>
        rcases List.suffix_cons_iff.mp hu with rfl | hu
        · exact .inl h
        · exact .inr ⟨u, hu, h⟩

/-- What the last run is still tried with: the tokens since took the characters since. -/
def Since (on : τ → α → Verdict) (p : List τ) (t : List α) (last : Option (List τ × List α)) : Prop :=
  ∀ sp mark, last = some (sp, mark) → ∃ pre w, sp = pre ++ p ∧ mark = w ++ t ∧ Takes on pre w

/-- A reading of what is left, or of what followed the last run somewhere later. -/
def Found (on : τ → α → Verdict) (idle : τ → Bool) (p : List τ) (t : List α) (last : Option (List τ × List α)) : Prop :=
  Reads on idle p t ∨ ∃ sp mark, last = some (sp, mark) ∧ ∃ u, u <:+ mark.tail ∧ Reads on idle sp u

theorem found_some {p sp : List τ} {t mark : List α} : Found on idle p t (some (sp, mark)) ↔
    Reads on idle p t ∨ ∃ u, u <:+ mark.tail ∧ Reads on idle sp u := by
  constructor
  · rintro (h | ⟨_, _, hlast, h⟩)
    · exact .inl h
    · obtain ⟨rfl, rfl⟩ := Prod.mk.inj (Option.some.inj hlast)
      exact .inr h
  · rintro (h | h)
    · exact .inl h
    · exact .inr ⟨sp, mark, rfl, h⟩

theorem Since.take {x : τ} {c : α} {p : List τ} {t : List α} {last : Option (List τ × List α)}
    (h : Since on (x :: p) (c :: t) last) (hx : on x c = .take) : Since on p t last := by
  intro sp mark hlast
  obtain ⟨pre, w, rfl, rfl, htakes⟩ := h sp mark hlast
  exact ⟨pre ++ [x], w ++ [c], by simp, by simp, List.rel_append htakes (.cons hx .nil)⟩

theorem since_start (p : List τ) (t : List α) : Since on p t (some (p, t)) := by
  rintro _ _ ⟨⟩
  exact ⟨[], [], rfl, rfl, .nil⟩

/-- Going back to the last run misses no reading. -/
theorem Since.found {p : List τ} {t : List α} {last : Option (List τ × List α)} (h : Since on p t last)
    (hf : Found on idle p t last) : ∃ u, u <:+ t ∧ Reads on idle p u := by
  rcases hf with hr | ⟨sp, mark, hlast, u, hu, hr⟩
  · exact ⟨t, List.suffix_rfl, hr⟩
  · obtain ⟨pre, w, rfl, rfl, htakes⟩ := h sp mark hlast
    exact reads_later htakes (hu.trans (List.tail_suffix _)) hr

theorem cost_take {x : τ} {c : α} {p : List τ} {t : List α} {last : Option (List τ × List α)} :
    cost p t last < cost (x :: p) (c :: t) last := by
  rcases last with _ | ⟨sp, mark⟩
  · simp only [cost, List.length_cons]
    have hmul : t.length * (p.length + 2) ≤ (t.length + 1) * (p.length + 1 + 2) :=
      Nat.mul_le_mul (Nat.le_succ _) (Nat.le_succ _)
    omega
  · simp only [cost, List.length_cons]
    omega

theorem cost_run {x : τ} {p : List τ} {t : List α} {last : Option (List τ × List α)} (h : Since on (x :: p) t last) :
    cost p t (some (p, t)) < cost (x :: p) t last := by
  rcases last with _ | ⟨sp, mark⟩
  · simp only [cost, List.length_cons]
    have hmul : t.length * (p.length + 2) ≤ t.length * (p.length + 1 + 2) := Nat.mul_le_mul_left _ (Nat.le_succ _)
    omega
  · obtain ⟨pre, w, rfl, rfl, -⟩ := h sp mark rfl
    simp only [cost, List.length_cons, List.length_append]
    have hmul : t.length * (p.length + 2) ≤ (w.length + t.length) * (pre.length + (p.length + 1) + 2) :=
      Nat.mul_le_mul (Nat.le_add_left _ _) (by omega)
    omega

theorem cost_back {p sp : List τ} {c : α} {t mark : List α} (h : Since on p (c :: t) (some (sp, mark))) :
    cost sp mark.tail (some (sp, mark.tail)) < cost p (c :: t) (some (sp, mark)) := by
  obtain ⟨pre, w, -, hmark, -⟩ := h sp mark rfl
  have hlen : mark.length = mark.tail.length + 1 := by
    rw [hmark, List.length_tail, List.length_append, List.length_cons]
    omega
  simp only [cost]
  rw [hlen, Nat.succ_mul]
  omega

/-- Enough fuel to match from the start. -/
theorem cost_start (p : List τ) (t : List α) : cost p t none ≤ (t.length + 1) * (p.length + 2) := by
  simp only [cost, Nat.succ_mul]
  omega

theorem greedy_back {fuel : Nat} {p : List τ} {c : α} {t : List α} {last : Option (List τ × List α)}
    (hfuel : cost p (c :: t) last ≤ fuel + 1) (h : Since on p (c :: t) last) (hno : ¬ Reads on idle p (c :: t))
    (ih : ∀ sp mark, cost sp mark (some (sp, mark)) ≤ fuel →
      (greedy on idle fuel sp mark (some (sp, mark)) = true ↔ Found on idle sp mark (some (sp, mark)))) :
    greedy.back on idle fuel last = true ↔ Found on idle p (c :: t) last := by
  rcases last with _ | ⟨sp, mark⟩
  · rw [greedy.back]
    refine ⟨fun h => Bool.noConfusion h, ?_⟩
    rintro (hr | ⟨_, _, hlast, _⟩)
    · exact (hno hr).elim
    · exact nomatch hlast
  · have hcost : cost sp mark.tail (some (sp, mark.tail)) ≤ fuel :=
      Nat.le_of_lt_succ (Nat.lt_of_lt_of_le (cost_back h) hfuel)
    rw [greedy.back, found_some, or_iff_right hno]
    exact (ih sp mark.tail hcost).trans (found_some.trans reads_suffix)

theorem greedy_iff {fuel : Nat} {p : List τ} {t : List α} {last : Option (List τ × List α)}
    (hfuel : cost p t last ≤ fuel) (h : Since on p t last) :
    greedy on idle fuel p t last = true ↔ Found on idle p t last := by
  induction fuel generalizing p t last with
  | zero =>
      rcases last with _ | ⟨sp, mark⟩
      · simp [cost] at hfuel
      · simp [cost] at hfuel
  | succ fuel ih =>
      have hback {p : List τ} {c : α} {t : List α} (hfuel : cost p (c :: t) last ≤ fuel + 1)
          (h : Since on p (c :: t) last) (hno : ¬ Reads on idle p (c :: t)) :=
        greedy_back hfuel h hno fun sp mark hcost => ih hcost (since_start sp mark)
      cases t with
      | nil =>
          rw [greedy, ← @reads_nil _ _ on idle p]
          refine ⟨.inl, fun hf => ?_⟩
          obtain ⟨u, hu, hr⟩ := h.found hf
          rwa [List.suffix_nil.mp hu] at hr
      | cons c t =>
          cases p with
          | nil =>
              rw [greedy]
              exact hback hfuel h (List.cons_ne_nil c t)
          | cons x p =>
              rw [greedy]
              rcases hx : on x c with _ | _ | _
              · have hreads : Reads on idle (x :: p) (c :: t) ↔ Reads on idle p t := by rw [Reads, hx]
                rw [Found, hreads]
                exact ih (Nat.le_of_lt_succ (Nat.lt_of_lt_of_le cost_take hfuel)) (h.take hx)
              · have hreads : Reads on idle (x :: p) (c :: t) ↔ ∃ u, u <:+ c :: t ∧ Reads on idle p u := by rw [Reads, hx]
                refine (ih (Nat.le_of_lt_succ (Nat.lt_of_lt_of_le (cost_run h) hfuel)) (since_start p (c :: t))).trans ?_
                rw [found_some, reads_suffix]
                constructor
                · intro hr
                  exact .inl (hreads.mpr hr)
                · intro hf
                  obtain ⟨u, hu, hr⟩ := h.found hf
                  obtain ⟨v, hv, hr⟩ := reads_run hr
                  exact ⟨v, hv.trans hu, hr⟩
              · exact hback hfuel h (by rw [Reads, hx]; exact id)

/-- From the start, greedy matching finds every reading. -/
theorem greedy_start {fuel : Nat} {p : List τ} {t : List α} (hfuel : cost p t none ≤ fuel) :
    greedy on idle fuel p t none = true ↔ Reads on idle p t := by
  have hsince : Since on p t none := fun _ _ h => nomatch h
  refine (greedy_iff hfuel hsince).trans (or_iff_left ?_)
  rintro ⟨_, _, h, _⟩
  exact nomatch h

variable (on idle)

/-- The rest of a list from a position on, where the position is in range. -/
def from_ (p : List τ) (pi : Nat) : Option (List τ) := if pi ≤ p.length then some (p.drop pi) else none

/-- The loop on positions: no answer where it is cut short, or a position is out of range.
`last` is where the last run stands in the pattern, and where in the text it was tried. -/
def scan (p : List τ) (t : List α) : Nat → Nat → Nat → Option (Nat × Nat) → Option Bool
  | 0, _, _, _ => none
  | fuel + 1, pi, ti, last =>
      match t[ti]? with
      | none => (from_ p pi).map fun rest => rest.all idle
      | some c =>
          match p[pi]? with
          | none => back fuel last
          | some x =>
              match on x c with
              | .take => scan p t fuel (pi + 1) (ti + 1) last
              | .run => scan p t fuel (pi + 1) ti (some (pi, ti))
              | .stop => back fuel last
where
  back (fuel : Nat) : Option (Nat × Nat) → Option Bool
    | some (ap, at_) => scan p t fuel (ap + 1) (at_ + 1) (some (ap, at_ + 1))
    | none => some false

variable {on idle}

/-- What followed the last run, from its positions. -/
def left (p : List τ) (t : List α) (last : Option (Nat × Nat)) : Option (List τ × List α) :=
  last.map fun (ap, at_) => (p.drop (ap + 1), t.drop at_)

theorem scan_eq {p : List τ} {t : List α} {fuel pi ti : Nat} {last : Option (Nat × Nat)} (hpi : pi ≤ p.length)
    (hlast : ∀ ap at_, last = some (ap, at_) → ap < p.length)
    (hfuel : cost (p.drop pi) (t.drop ti) (left p t last) ≤ fuel)
    (h : Since on (p.drop pi) (t.drop ti) (left p t last)) :
    scan on idle p t fuel pi ti last = some (greedy on idle fuel (p.drop pi) (t.drop ti) (left p t last)) := by
  induction fuel generalizing pi ti last with
  | zero =>
      rcases hl : left p t last with _ | ⟨sp, mark⟩
      · simp [cost, hl] at hfuel
      · simp [cost, hl] at hfuel
  | succ fuel ih =>
      have hback {c : α} (hc : t.drop ti = c :: t.drop (ti + 1)) :
          scan.back on idle p t fuel last = some (greedy.back on idle fuel (left p t last)) := by
        rcases last with _ | ⟨ap, at_⟩
        · rw [scan.back, left, Option.map_none, greedy.back]
        · have hap := hlast ap at_ rfl
          have htail : (t.drop at_).tail = t.drop (at_ + 1) := List.tail_drop
          rw [hc] at hfuel h
          have hcost := Nat.lt_of_lt_of_le (cost_back h) hfuel
          rw [htail] at hcost
          rw [scan.back, left, Option.map_some, greedy.back, htail]
          refine ih hap ?_ (Nat.le_of_lt_succ hcost) (since_start _ _)
          rintro _ _ ⟨⟩
          exact hap
      rw [scan]
      rcases ht : t[ti]? with _ | c
      · have hdrop : t.drop ti = [] := List.drop_eq_nil_of_le (List.getElem?_eq_none_iff.mp ht)
        simp only [from_, if_pos hpi, Option.map_some, hdrop, greedy]
      · obtain ⟨hti, hc⟩ := List.getElem?_eq_some_iff.mp ht
        have hdrop : t.drop ti = c :: t.drop (ti + 1) := by rw [List.drop_eq_getElem_cons hti, hc]
        rcases hp : p[pi]? with _ | x
        · have hnil : p.drop pi = [] := List.drop_eq_nil_of_le (List.getElem?_eq_none_iff.mp hp)
          simp only [hdrop, hnil, greedy]
          exact hback hdrop
        · obtain ⟨hlt, hx⟩ := List.getElem?_eq_some_iff.mp hp
          have hcons : p.drop pi = x :: p.drop (pi + 1) := by rw [List.drop_eq_getElem_cons hlt, hx]
          rw [hdrop, hcons] at hfuel h
          simp only [hdrop, hcons, greedy]
          rcases hon : on x c with _ | _ | _
          · exact ih hlt hlast (Nat.le_of_lt_succ (Nat.lt_of_lt_of_le cost_take hfuel)) (h.take hon)
          · have hrun := Nat.lt_of_lt_of_le (cost_run h) hfuel
            simp only
            rw [← hdrop] at hrun ⊢
            refine ih hlt ?_ (Nat.le_of_lt_succ hrun) (since_start _ _)
            rintro _ _ ⟨⟩
            exact hlt
          · exact hback hdrop

/-- From the start, the loop ends in range. -/
theorem scan_start {p : List τ} {t : List α} {fuel : Nat} (hfuel : cost p t none ≤ fuel) :
    scan on idle p t fuel 0 0 none = some (greedy on idle fuel p t none) :=
  scan_eq (Nat.zero_le _) (fun _ _ h => nomatch h) hfuel (fun _ _ h => nomatch h)

end KivaDb.Lib.Greedy
