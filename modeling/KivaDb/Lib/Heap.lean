import Mathlib.Data.List.Sort

namespace KivaDb.Lib.Heap

open Std

variable {α : Type} (cmp : α → α → Ordering)

/-- A heap keeps its greatest element on top: here, its elements from the greatest down. -/
def push (x : α) : List α → List α
  | [] => [x]
  | y :: h => if cmp y x = .lt then x :: y :: h else y :: push x h

def peek (h : List α) : Option α := h.head?

def pop (h : List α) : List α := h.tail

/-- A stable sort. -/
def sorted (l : List α) : List α := l.mergeSort fun a b => (cmp a b).isLE

/-- Takes an element into a heap of at most `limit`, in the place of the greatest one. -/
def keep (limit : Nat) (x : α) (h : List α) : List α :=
  if h.length < limit then push cmp x h
  else if (peek h).any fun top => cmp x top = .lt then push cmp x (pop h)
  else h

def Descending (h : List α) : Prop := h.Pairwise fun a b => (cmp b a).isLE

/-- The heap has the first `limit` of the elements. -/
structure First (limit : Nat) (l h : List α) : Prop where
  descending : Descending cmp h
  length : h.length = min limit l.length
  rest : ∃ r, (h ++ r).Perm l ∧ ∀ a ∈ h, ∀ b ∈ r, (cmp a b).isLE

variable {cmp} {l h : List α} {x : α} {limit : Nat}

theorem push_perm (x : α) (h : List α) : (push cmp x h).Perm (x :: h) := by
  induction h with
  | nil => exact .rfl
  | cons y h ih =>
      rw [push]
      split
      · exact .rfl
      · exact (ih.cons y).trans (.swap x y h)

theorem length_push (x : α) (h : List α) : (push cmp x h).length = h.length + 1 := (push_perm x h).length_eq

theorem mem_push {y : α} : y ∈ push cmp x h ↔ y = x ∨ y ∈ h := (push_perm x h).mem_iff.trans List.mem_cons

theorem sorted_perm (l : List α) : (sorted cmp l).Perm l := List.mergeSort_perm l _

section

variable [TransCmp cmp]

theorem isLE_of_not_lt {a b : α} (h : cmp a b ≠ .lt) : (cmp b a).isLE := by
  rw [← OrientedCmp.isGE_iff_isLE]
  cases hab : cmp a b with
  | lt => exact absurd hab h
  | eq => rfl
  | gt => rfl

theorem push_descending (hd : Descending cmp h) (x : α) : Descending cmp (push cmp x h) := by
  induction h with
  | nil => exact List.pairwise_singleton _ _
  | cons y h ih =>
      obtain ⟨hy, hh⟩ := List.pairwise_cons.mp hd
      rw [push]
      split
      · next hlt =>
        refine List.pairwise_cons.mpr ⟨fun z hz => ?_, List.pairwise_cons.mpr ⟨hy, hh⟩⟩
        rcases List.mem_cons.mp hz with rfl | hz
        · rw [hlt]
          rfl
        · exact TransCmp.isLE_trans (hy z hz) (by rw [hlt]; rfl)
      · next hge =>
        refine List.pairwise_cons.mpr ⟨fun z hz => ?_, ih hh⟩
        rcases mem_push.mp hz with rfl | hz
        · exact isLE_of_not_lt hge
        · exact hy z hz

theorem top_le {top : α} (hd : Descending cmp (top :: h)) : ∀ a ∈ top :: h, (cmp a top).isLE := by
  intro a ha
  rcases List.mem_cons.mp ha with rfl | ha
  · exact ReflCmp.isLE_rfl
  · exact (List.pairwise_cons.mp hd).1 a ha

omit [TransCmp cmp] in
theorem First.nil (limit : Nat) : First cmp limit ([] : List α) [] :=
  ⟨.nil, (Nat.min_zero limit).symm, [], .rfl, nofun⟩

/-- One more element, and the heap has the first ones again. -/
theorem First.keep (hf : First cmp limit l h) (x : α) : First cmp limit (l ++ [x]) (keep cmp limit x h) := by
  obtain ⟨hd, hlen, r, hperm, hle⟩ := hf
  have hsum := hperm.length_eq
  have hpush (g : List α) : (push cmp x g).length = g.length + 1 := (push_perm x g).length_eq
  rw [List.length_append] at hsum
  rw [Heap.keep]
  split
  · next hroom =>
    obtain rfl : r = [] := List.length_eq_zero_iff.mp (by omega)
    rw [List.append_nil] at hperm
    refine ⟨push_descending hd x, ?_, [], ?_, fun _ _ _ hb => nomatch hb⟩
    · rw [hpush, List.length_append, List.length_singleton]
      omega
    · rw [List.append_nil]
      exact (push_perm x h).trans ((hperm.cons x).trans (List.perm_append_singleton x l).symm)
  · next hfull =>
    have hkept : (l ++ [x]).length = l.length + 1 := List.length_append
    cases h with
    | nil =>
        have hzero : limit = 0 := by simpa using hfull
        refine ⟨hd, ?_, x :: r, ?_, nofun⟩
        · rw [hzero, Nat.zero_min]
          rfl
        · exact (hperm.cons x).trans (List.perm_append_singleton x l).symm
    | cons top h =>
        have hany : (peek (top :: h)).any (fun top => cmp x top = .lt) = true ↔ cmp x top = .lt := by
          rw [peek, List.head?_cons, Option.any_some, decide_eq_true_eq]
        by_cases hlt : cmp x top = .lt
        · rw [if_pos (hany.mpr hlt)]
          refine ⟨push_descending (List.pairwise_cons.mp hd).2 x, ?_, top :: r, ?_, ?_⟩
          · rw [pop, List.tail_cons, hpush, hkept]
            rw [List.length_cons] at hlen hfull
            omega
          · have hmove : (x :: h ++ top :: r).Perm (x :: (top :: h ++ r)) := List.perm_middle.cons x |>.trans (.refl _)
            exact ((push_perm x h).append_right _).trans (hmove.trans ((hperm.cons x).trans (List.perm_append_singleton x l).symm))
          · intro a ha b hb
            have htop : (cmp a top).isLE := by
              rcases mem_push.mp ha with rfl | ha
              · rw [hlt]
                rfl
              · exact top_le hd a (List.mem_cons_of_mem _ ha)
            rcases List.mem_cons.mp hb with rfl | hb
            · exact htop
            · exact TransCmp.isLE_trans htop (hle top List.mem_cons_self b hb)
        · rw [if_neg (hany.not.mpr hlt)]
          refine ⟨hd, ?_, x :: r, ?_, ?_⟩
          · rw [hkept]
            omega
          · exact List.perm_middle.trans ((hperm.cons x).trans (List.perm_append_singleton x l).symm)
          · intro a ha b hb
            rcases List.mem_cons.mp hb with rfl | hb
            · exact TransCmp.isLE_trans (top_le hd a ha) (isLE_of_not_lt hlt)
            · exact hle a ha b hb

theorem sorted_pairwise (l : List α) : (sorted cmp l).Pairwise fun a b => (cmp a b).isLE := by
  apply List.pairwise_mergeSort
  · exact fun a b c => TransCmp.isLE_trans
  · intro a b
    by_cases hlt : cmp a b = .lt
    · rw [hlt]
      rfl
    · rw [isLE_of_not_lt hlt, Bool.or_true]

/-- No two elements are the same to the order. -/
def Apart (cmp : α → α → Ordering) (l : List α) : Prop := ∀ a ∈ l, ∀ b ∈ l, cmp a b = .eq → a = b

/-- The first elements, sorted, are those that the sorted elements begin with. -/
theorem sorted_eq_take {r : List α} (hlen : h.length = min limit l.length) (hperm : (h ++ r).Perm l)
    (hle : ∀ a ∈ h, ∀ b ∈ r, (cmp a b).isLE) (hl : Apart cmp l) : sorted cmp h = (sorted cmp l).take limit := by
  have hsum := hperm.length_eq
  rw [List.length_append] at hsum
  have hall : sorted cmp h ++ sorted cmp r = sorted cmp l := by
    have hback : (sorted cmp h ++ sorted cmp r).Perm (sorted cmp l) :=
      (((sorted_perm h).append (sorted_perm r)).trans hperm).trans (sorted_perm l).symm
    refine hback.eq_of_pairwise ?_ ?_ (sorted_pairwise l)
    · intro a b ha hb hab hba
      have hmem {c : α} (hc : c ∈ sorted cmp l) : c ∈ l := (sorted_perm l).mem_iff.mp hc
      exact hl a (hmem (hback.mem_iff.mp ha)) b (hmem hb) (OrientedCmp.isLE_antisymm hab hba)
    · refine List.pairwise_append.mpr ⟨sorted_pairwise h, sorted_pairwise r, fun a ha b hb => ?_⟩
      exact hle a ((sorted_perm h).mem_iff.mp ha) b ((sorted_perm r).mem_iff.mp hb)
  have hsorted : (sorted cmp h).length = h.length := (sorted_perm h).length_eq
  rw [← hall]
  by_cases hfull : limit ≤ l.length
  · rw [List.take_left' (by omega)]
  · obtain rfl : r = [] := List.length_eq_zero_iff.mp (by omega)
    have hempty : sorted cmp ([] : List α) = [] := List.mergeSort_nil
    rw [hempty, List.append_nil, List.take_of_length_le (by omega)]

theorem First.sorted_eq (hf : First cmp limit l h) (hl : Apart cmp l) : sorted cmp h = (sorted cmp l).take limit := by
  obtain ⟨-, hlen, r, hperm, hle⟩ := hf
  exact sorted_eq_take hlen hperm hle hl

/-- What `limit` other elements come before is not among the first. -/
theorem not_mem_first {below : List α} (hsub : below.Subperm l) (hbelow : ∀ a ∈ below, cmp a x = .lt)
    (hlen : limit ≤ below.length) : x ∉ (sorted cmp l).take limit := by
  intro hx
  obtain ⟨i, hi, hget⟩ := List.mem_iff_getElem.mp hx
  rw [List.getElem_take] at hget
  have hlt : i < limit := by
    rw [List.length_take] at hi
    omega
  have hbound : i < (sorted cmp l).length := by
    rw [List.length_take] at hi
    omega
  let isBelow (a : α) : Bool := cmp a x = .lt
  have hcount : (sorted cmp l).countP isBelow ≤ i := by
    rw [← List.take_append_drop i (sorted cmp l), List.countP_append]
    have hdrop : ((sorted cmp l).drop i).countP isBelow = 0 := by
      rw [List.countP_eq_zero]
      intro a ha
      have hle : (cmp x a).isLE := by
        rw [List.drop_eq_getElem_cons hbound, hget] at ha
        rcases List.mem_cons.mp ha with rfl | ha
        · exact ReflCmp.isLE_rfl
        · have hpair := (@sorted_pairwise _ cmp _ l).sublist (List.drop_sublist i _)
          rw [List.drop_eq_getElem_cons hbound, hget] at hpair
          exact (List.pairwise_cons.mp hpair).1 a ha
      rw [decide_eq_true_eq]
      exact OrientedCmp.not_lt_of_isLE hle
    rw [hdrop, Nat.add_zero]
    exact List.countP_le_length.trans (List.length_take_le i _)
  have hmany : below.length ≤ (sorted cmp l).countP isBelow := by
    have hall : below.countP isBelow = below.length := List.countP_eq_length.mpr fun a ha => decide_eq_true (hbelow a ha)
    rw [← hall, (sorted_perm l).countP_eq]
    exact hsub.countP_le isBelow
  omega

end

end KivaDb.Lib.Heap
