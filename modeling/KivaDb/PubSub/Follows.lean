import Mathlib.Data.List.TakeWhile
import KivaDb.PubSub.Language

namespace KivaDb.PubSub

open Lib.Greedy Lib.LittleEndian

variable {p : Bytes} {c : UInt8}

theorem within_self (lo c : UInt8) : within lo lo c = (lo == c) := by
  rw [within, if_pos (UInt8.le_refl lo), Bool.eq_iff_iff, Bool.and_eq_true, decide_eq_true_iff, decide_eq_true_iff,
    beq_iff_eq]
  constructor
  · rintro ⟨h, h'⟩
    exact UInt8.le_antisymm h h'
  · rintro rfl
    exact ⟨UInt8.le_refl _, UInt8.le_refl _⟩

theorem drop_of_getElem? {i : Nat} {x : UInt8} (h : p[i]? = some x) : p.drop i = x :: p.drop (i + 1) := by
  obtain ⟨hi, rfl⟩ := List.getElem?_eq_some_iff.mp h
  exact List.drop_eq_getElem_cons hi

theorem getElem?_of_drop {i : Nat} {x : UInt8} {rest : Bytes} (h : p.drop i = x :: rest) :
    p[i]? = some x ∧ p.drop (i + 1) = rest := by
  have hx : (p.drop i)[0]? = some x := by rw [h]; rfl
  rw [List.getElem?_drop, Nat.add_zero] at hx
  rw [drop_of_getElem? hx] at h
  exact ⟨hx, (List.cons.inj h).2⟩

theorem lt_of_getElem? {i : Nat} {x : UInt8} (h : p[i]? = some x) : i < p.length :=
  (List.getElem?_eq_some_iff.mp h).1

theorem lower_at {i : Nat} {x : UInt8} (hi : i < p.length) :
    ∃ j, lowerAt p i x = some ((lower x (p.drop (i + 1))).1, j) ∧ i ≤ j ∧ j < p.length ∧ p.drop (j + 1) = (lower x (p.drop (i + 1))).2 := by
  unfold lowerAt
  rcases hd : p.drop (i + 1) with _ | ⟨y, rest⟩
  · have hlen : ¬ i + 1 < p.length := by
      rw [List.drop_eq_nil_iff] at hd
      omega
    rw [if_neg fun h => hlen h.2]
    exact ⟨i, rfl, Nat.le_refl i, hi, hd⟩
  · obtain ⟨hy, hrest⟩ := getElem?_of_drop hd
    have hlt := lt_of_getElem? hy
    rw [lower]
    by_cases hx : x = backslash
    · rw [if_pos hx, if_pos ⟨hx, hlt⟩, hy]
      exact ⟨i + 1, rfl, Nat.le_succ i, hlt, hrest⟩
    · rw [if_neg hx, if_neg fun h => hx h.1]
      exact ⟨i, rfl, Nat.le_refl i, hi, hd⟩

/-- A range goes on from `i` with a dash and its upper end. -/
abbrev Spans (p : Bytes) (i : Nat) : Prop := i + 2 < p.length ∧ p[i + 1]? = some dash ∧ p[i + 2]? ≠ some closing

theorem upper_at {i : Nat} (lo : UInt8) (h : Spans p i) :
    ∃ hi, p[i + 2]? = some hi ∧ upper lo (p.drop (i + 1)) = (hi, p.drop (i + 3)) := by
  obtain ⟨hlt, hdash, hclosing⟩ := h
  have hhi : p[i + 2]? = some p[i + 2] := List.getElem?_eq_getElem hlt
  refine ⟨p[i + 2], hhi, ?_⟩
  rw [drop_of_getElem? hdash, drop_of_getElem? hhi, upper, if_pos ⟨rfl, fun h => hclosing (hhi.trans (congrArg some h))⟩]

theorem upper_at_not {i : Nat} (lo : UInt8) (h : ¬ Spans p i) :
    upper lo (p.drop (i + 1)) = (lo, p.drop (i + 1)) := by
  rcases hd : p.drop (i + 1) with _ | ⟨m, _ | ⟨hi, rest⟩⟩
  · rfl
  · rfl
  · obtain ⟨hm, hd⟩ := getElem?_of_drop hd
    obtain ⟨hhi, -⟩ := getElem?_of_drop hd
    rw [upper, if_neg]
    rintro ⟨rfl, hne⟩
    exact h ⟨lt_of_getElem? hhi, hm, fun hc => hne (Option.some.inj (hhi.symm.trans hc))⟩

/-- Whether `c` is within one of the ranges. -/
def among (rs : List (UInt8 × UInt8)) (c : UInt8) : Bool := rs.any fun r => within r.1 r.2 c

/-- Where the loop of a class ends: behind its ranges, or at the end of the pattern. -/
def Ends (p : Bytes) (c : UInt8) (hit b : Bool) (j : Nat) : Option (List (UInt8 × UInt8) × Bytes) → Prop
  | some (rs, rest) => j < p.length ∧ p.drop (j + 1) = rest ∧ b = (hit || among rs c)
  | none => p.length ≤ j

theorem Ends.cons {hit b : Bool} {j : Nat} {lo hi : UInt8} {o : Option (List (UInt8 × UInt8) × Bytes)}
    (h : Ends p c (hit || within lo hi c) b j o) : Ends p c hit b j (o.map fun q => ((lo, hi) :: q.1, q.2)) := by
  cases o with
  | none => exact h
  | some q => exact ⟨h.1, h.2.1, h.2.2.trans (Bool.or_assoc _ _ _)⟩

theorem classLoop_ends {fuel i : Nat} (hit : Bool) (hfuel : p.length < i + fuel) (hi : i ≤ p.length) :
    ∃ b j, classLoop p c fuel i hit = some (b, j) ∧ Ends p c hit b j (ranges (p.drop i)) := by
  induction fuel generalizing i hit with
  | zero => omega
  | succ fuel ih =>
      rw [classLoop]
      by_cases hlt : i < p.length
      · have hx : p[i]? = some p[i] := List.getElem?_eq_getElem hlt
        rw [if_pos hlt, hx, drop_of_getElem? hx]
        simp only [Option.bind_eq_bind, Option.bind_some]
        by_cases hclosing : p[i] = closing
        · rw [if_pos hclosing, hclosing, ranges_closing]
          exact ⟨hit, i, rfl, hlt, rfl, by simp [among]⟩
        · obtain ⟨j, hlo, hij, hj, hdrop⟩ := lower_at (x := p[i]) hlt
          rw [if_neg hclosing, hlo, ranges_cons hclosing, ← hdrop]
          simp only [Option.bind_some]
          by_cases hspans : Spans p j
          · obtain ⟨hi, hhi, hupper⟩ := upper_at (lower p[i] (p.drop (i + 1))).1 hspans
            have hleft : p.length < j + 3 + fuel := by omega
            obtain ⟨b, k, hloop, hends⟩ := ih (hit || within (lower p[i] (p.drop (i + 1))).1 hi c) hleft hspans.1
            refine ⟨b, k, ?_, ?_⟩
            · rw [if_pos hspans, hhi]
              exact hloop
            · rw [hupper]
              exact Ends.cons hends
          · have hupper := upper_at_not (lower p[i] (p.drop (i + 1))).1 hspans
            have hleft : p.length < j + 1 + fuel := by omega
            obtain ⟨b, k, hloop, hends⟩ := ih (hit || (lower p[i] (p.drop (i + 1))).1 == c) hleft hj
            refine ⟨b, k, ?_, ?_⟩
            · rw [if_neg hspans]
              exact hloop
            · rw [hupper]
              rw [← within_self] at hends
              exact Ends.cons hends
      · have hnil : p.drop i = [] := List.drop_eq_nil_of_le (Nat.not_lt.mp hlt)
        rw [if_neg hlt, hnil, ranges]
        exact ⟨hit, i, rfl, Nat.not_lt.mp hlt⟩

theorem classAt_eq {at_ : Nat} (hat : at_ < p.length) : ∃ o, classAt p at_ c = some o ∧
    match ranges (body (p.drop (at_ + 1))).2 with
    | some (rs, rest) => ∃ next, o = some (holds (body (p.drop (at_ + 1))).1 rs c, next) ∧ p.drop next = rest ∧
        next ≤ p.length
    | none => o = none := by
  have hbody : ∃ start, (if p[at_ + 1]? == some caret then at_ + 2 else at_ + 1) = start ∧ start ≤ p.length ∧
      at_ < start ∧ (p[at_ + 1]? == some caret) = (body (p.drop (at_ + 1))).1 ∧
      p.drop start = (body (p.drop (at_ + 1))).2 := by
    rcases hd : p.drop (at_ + 1) with _ | ⟨x, rest⟩
    · have hnone : p[at_ + 1]? = none := List.getElem?_eq_none (List.drop_eq_nil_iff.mp hd)
      rw [hnone]
      exact ⟨at_ + 1, rfl, hat, Nat.lt_succ_self _, rfl, hd⟩
    · obtain ⟨hx, hrest⟩ := getElem?_of_drop hd
      rw [hx, body]
      by_cases hcaret : x = caret
      · rw [if_pos hcaret, hcaret]
        exact ⟨at_ + 2, rfl, lt_of_getElem? hx, by omega, rfl, hrest⟩
      · have hne : (some x == some caret) = false := by simpa using hcaret
        rw [if_neg hcaret, hne]
        exact ⟨at_ + 1, rfl, hat, Nat.lt_succ_self _, rfl, hd⟩
  obtain ⟨start, hstart, hle, hlt, hnegate, hdrop⟩ := hbody
  have hfuel : p.length < start + (p.length + 1) := by omega
  obtain ⟨b, j, hloop, hends⟩ : ∃ b j, classLoop p c (p.length + 1) start false = some (b, j) ∧ _ :=
    classLoop_ends false hfuel hle
  rw [classAt]
  simp only [hstart, hloop, Option.bind_eq_bind, Option.bind_some]
  rw [hdrop] at hends
  rcases hranges : ranges (body (p.drop (at_ + 1))).2 with _ | ⟨rs, rest⟩
  · rw [hranges] at hends
    exact ⟨none, if_pos hends, rfl⟩
  · rw [hranges] at hends
    obtain ⟨hj, hrest, rfl⟩ := hends
    refine ⟨some (holds (body (p.drop (at_ + 1))).1 rs c, j + 1), ?_, j + 1, rfl, hrest, hj⟩
    rw [if_neg (Nat.not_le.mpr hj), hnegate]
    rfl

/-- The code's move is what the first item does, and the rest of the items follows it. -/
inductive Does (p : Bytes) (pi : Nat) (l : List Item) : Verdict → Move → Prop
  | take {next : Nat} (hle : next ≤ p.length) (h : items (p.drop next) = l) : Does p pi l .take (.take next)
  | run (h : items (p.drop (pi + 1)) = l) : Does p pi l .run .run
  | stop : Does p pi l .stop .stop

theorem Does.ofByte {pi next : Nat} {b : UInt8} {l : List Item} (hle : next ≤ p.length)
    (h : items (p.drop next) = l) : Does p pi l (on (.byte b) c) (if b = c then .take next else .stop) := by
  by_cases hb : b = c
  · rw [if_pos hb, on, if_pos hb]
    exact .take hle h
  · rw [if_neg hb, on, if_neg hb]
    exact .stop

theorem move_does {pi : Nat} (hpi : pi < p.length) (c : UInt8) :
    ∃ x l m, items (p.drop pi) = x :: l ∧ move p pi c = some m ∧ Does p pi l (on x c) m := by
  have hx : p[pi]? = some p[pi] := List.getElem?_eq_getElem hpi
  rw [move, hx, drop_of_getElem? hx, items]
  simp only [Option.bind_eq_bind, Option.bind_some]
  by_cases hstar : p[pi] = star
  · rw [if_pos hstar, if_pos hstar]
    exact ⟨.any, _, .run, rfl, rfl, .run rfl⟩
  rw [if_neg hstar, if_neg hstar]
  by_cases hone : p[pi] = one
  · rw [if_pos hone, if_pos hone]
    exact ⟨.one, _, .take (pi + 1), rfl, rfl, .take hpi rfl⟩
  rw [if_neg hone, if_neg hone]
  by_cases hopening : p[pi] = opening
  · rw [if_pos hopening, if_pos hopening]
    obtain ⟨o, hclass, ho⟩ : ∃ o, classAt p pi c = some o ∧ _ := classAt_eq hpi
    rw [hclass]
    simp only [Option.bind_some]
    split
    · next rs rest hranges =>
        rw [hranges] at ho
        obtain ⟨next, rfl, hrest, hle⟩ := ho
        cases hholds : holds (body (p.drop (pi + 1))).1 rs c with
        | true =>
            refine ⟨_, _, .take next, rfl, rfl, ?_⟩
            rw [on, if_pos hholds]
            exact .take hle (congrArg items hrest)
        | false =>
            refine ⟨_, _, .stop, rfl, rfl, ?_⟩
            rw [on, hholds]
            exact .stop
    · next hranges =>
        rw [hranges] at ho
        subst ho
        exact ⟨.unclosed, [], .stop, rfl, rfl, .stop⟩
  rw [if_neg hopening, if_neg hopening]
  by_cases hback : p[pi] = backslash
  · rcases hd : p.drop (pi + 1) with _ | ⟨y, rest⟩
    · have hlen : ¬ pi + 1 < p.length := Nat.not_lt.mpr (List.drop_eq_nil_iff.mp hd)
      rw [if_neg fun h => hlen h.2]
      exact ⟨.byte p[pi], items [], _, rfl, rfl, .ofByte hpi (congrArg items hd)⟩
    · obtain ⟨hy, hrest⟩ := getElem?_of_drop hd
      have hlt := lt_of_getElem? hy
      rw [if_pos ⟨hback, hlt⟩, hy, lower, if_pos hback]
      exact ⟨.byte y, items rest, _, rfl, rfl, .ofByte hlt (congrArg items hrest)⟩
  · have hlower : lower p[pi] (p.drop (pi + 1)) = (p[pi], p.drop (pi + 1)) := by
      rcases p.drop (pi + 1) with _ | ⟨y, rest⟩
      · rfl
      · exact if_neg hback
    rw [if_neg fun h => hback h.1, hlower]
    exact ⟨.byte p[pi], items (p.drop (pi + 1)), _, rfl, rfl, .ofByte hpi rfl⟩

theorem all_isAny (q : Bytes) : (items q).all Item.isAny = q.all (· == star) := by
  induction q with
  | nil => rw [items_nil]; rfl
  | cons x q ih =>
      rw [items, List.all_cons]
      by_cases hstar : x = star
      · rw [if_pos hstar, hstar, List.all_cons, ih]
        rfl
      · rw [if_neg hstar, beq_eq_false_iff_ne.mpr hstar, Bool.false_and]
        split
        · rfl
        · split
          · split <;> rfl
          · rfl

/-- Past the stars the pattern ends exactly where its items are all runs. -/
theorem ends_iff {pi : Nat} (hpi : pi ≤ p.length) :
    (pi + ((p.drop pi).takeWhile (· == star)).length == p.length) = (items (p.drop pi)).all Item.isAny := by
  have hlen : p.length = pi + (p.drop pi).length := by
    rw [List.length_drop]
    omega
  rw [all_isAny, Bool.eq_iff_iff, beq_iff_eq, hlen, Nat.add_left_cancel_iff]
  constructor
  · intro h
    have hall := (List.takeWhile_prefix (· == star)).eq_of_length h
    exact List.all_eq_true.mpr (List.takeWhile_eq_self_iff.mp hall)
  · intro h
    rw [List.takeWhile_eq_self_iff.mpr (List.all_eq_true.mp h)]

/-- What followed the last `*`, from its positions. -/
def rest (p s : Bytes) (last : Option (Nat × Nat)) : Option (List Item × Bytes) :=
  last.map fun (sp, ss) => (items (p.drop sp), s.drop ss)

theorem globLoop_eq {s : Bytes} {fuel pi si : Nat} {last : Option (Nat × Nat)} (hpi : pi ≤ p.length)
    (hlast : ∀ sp ss, last = some (sp, ss) → sp ≤ p.length)
    (hfuel : cost (items (p.drop pi)) (s.drop si) (rest p s last) ≤ fuel)
    (h : Since on (items (p.drop pi)) (s.drop si) (rest p s last)) :
    globLoop p s fuel pi si last =
      some (greedy on Item.isAny fuel (items (p.drop pi)) (s.drop si) (rest p s last)) := by
  induction fuel generalizing pi si last with
  | zero =>
      rcases hr : rest p s last with _ | ⟨l, mark⟩
      · simp [cost, hr] at hfuel
      · simp [cost, hr] at hfuel
  | succ fuel ih =>
      rw [globLoop]
      by_cases hsi : si < s.length
      · have hc : s[si]? = some s[si] := List.getElem?_eq_getElem hsi
        have hdrop := drop_of_getElem? hc
        have hback : back (globLoop p s fuel) last = some (greedy.back on Item.isAny fuel (rest p s last)) := by
          rcases last with _ | ⟨sp, ss⟩
          · rw [back, rest, Option.map_none, greedy.back]
          · have hsp := hlast sp ss rfl
            have htail : (s.drop ss).tail = s.drop (ss + 1) := List.tail_drop
            rw [hdrop] at hfuel h
            have hcost := Nat.lt_of_lt_of_le (cost_back h) hfuel
            rw [htail] at hcost
            rw [back, rest, Option.map_some, greedy.back, htail]
            refine ih hsp ?_ (Nat.le_of_lt_succ hcost) (since_start _ _)
            rintro _ _ ⟨⟩
            exact hsp
        rw [if_pos hsi, hc]
        simp only [Option.bind_eq_bind, Option.bind_some]
        by_cases hlt : pi < p.length
        · obtain ⟨x, l, m, hitems, hmove, hdoes⟩ := move_does hlt s[si]
          rw [if_pos hlt, hmove, hitems]
          rw [hitems, hdrop] at hfuel h
          simp only [Option.bind_some]
          generalize hon : on x s[si] = verdict at hdoes
          cases hdoes with
          | take hle hnext =>
              rw [hdrop, greedy, hon, ← hnext]
              rw [← hnext] at hfuel h
              exact ih hle hlast (Nat.le_of_lt_succ (Nat.lt_of_lt_of_le cost_take hfuel)) (h.take hon)
          | run hnext =>
              have hrun := Nat.lt_of_lt_of_le (cost_run h) hfuel
              rw [← hnext, ← hdrop] at hrun
              rw [hdrop, greedy, hon, ← hnext, ← hdrop]
              refine ih hlt ?_ (Nat.le_of_lt_succ hrun) (since_start _ _)
              rintro _ _ ⟨⟩
              exact hlt
          | stop =>
              rw [hdrop, greedy, hon]
              exact hback
        · have hnil : p.drop pi = [] := List.drop_eq_nil_of_le (Nat.not_lt.mp hlt)
          rw [if_neg hlt, hnil, items_nil, hdrop, greedy]
          exact hback
      · have hnil : s.drop si = [] := List.drop_eq_nil_of_le (Nat.not_lt.mp hsi)
        rw [if_neg hsi, hnil, greedy, ← ends_iff hpi]
        rfl

theorem length_items (q : Bytes) : (items q).length ≤ q.length := by
  induction hn : q.length using Nat.strong_induction_on generalizing q with
  | h n ih =>
      subst hn
      cases q with
      | nil => simp
      | cons x q =>
          have hlt {r : Bytes} (h : r.length ≤ q.length) : (items r).length + 1 ≤ (x :: q).length :=
            Nat.succ_le_succ (Nat.le_trans (ih _ (Nat.lt_succ_of_le h) r rfl) h)
          rw [items]
          split
          · exact hlt (Nat.le_refl _)
          · split
            · exact hlt (Nat.le_refl _)
            · split
              · split
                · next hranges => exact hlt (Nat.le_of_lt (Nat.lt_of_lt_of_le (length_ranges hranges) (length_body q)))
                · exact Nat.succ_le_succ (Nat.zero_le _)
              · exact hlt (length_lower x q)

/-- The loop stays in range and ends, and its answer is whether the text is in the language
of the pattern. -/
theorem glob_answers (p s : Bytes) : ∃ b, glob p s = some b ∧ (b = true ↔ Matches p s) := by
  have hcost : cost (items p) s none ≤ (s.length + 1) * (p.length + 2) := by
    refine Nat.le_trans (cost_start _ _) (Nat.mul_le_mul_left _ ?_)
    exact Nat.add_le_add_right (length_items p) 2
  have hloop : glob p s = some (greedy on Item.isAny _ (items p) s none) :=
    globLoop_eq (Nat.zero_le _) (fun _ _ h => nomatch h) hcost (fun _ _ h => nomatch h)
  refine ⟨_, hloop, ?_⟩
  exact (greedy_start hcost).trans (reads_iff _ _)

end KivaDb.PubSub
