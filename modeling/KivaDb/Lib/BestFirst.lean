import Mathlib.Logic.Relation
import Mathlib.Data.List.Nodup
import KivaDb.Lib.Heap

namespace KivaDb.Lib.BestFirst

open Heap Relation Std

variable {ν α : Type} [DecidableEq ν]

/-- A graph to look through for its best nodes: where a node leads, what is found there (nothing
at a hidden node), and which nodes are wanted. -/
structure Space (ν α : Type) where
  next : ν → List ν
  view : ν → Option α
  node : α → ν
  allow : ν → Bool
  keep : Nat
  cmp : α → α → Ordering
  closer : α → α → Bool
  node_view : ∀ {n a}, view n = some a → node a = n

/-- The nodes met, those to go on from and the best of those wanted. -/
structure Walk (ν α : Type) where
  seen : List ν
  ahead : List α
  best : List α
  count : Nat

namespace Space

variable (s : Space ν α)

def back (a b : α) : Ordering := s.cmp b a

/-- Whether what is found may be among the best. -/
def welcome (best : List α) (a : α) : Bool := best.length < s.keep || (peek best).any fun top => s.closer a top

def trimmed (best : List α) : List α := if s.keep < best.length then pop best else best

def visit (w : Walk ν α) (n : ν) : Walk ν α :=
  if n ∈ w.seen then w
  else
    match s.view n with
    | none => { w with seen := n :: w.seen }
    | some a =>
        if s.welcome w.best a then
          ⟨n :: w.seen, push s.back a w.ahead, if s.allow n then s.trimmed (push s.cmp a w.best) else w.best, w.count + 1⟩
        else ⟨n :: w.seen, w.ahead, w.best, w.count + 1⟩

/-- Nothing ahead comes before the best found. -/
def isOver (w : Walk ν α) (c : α) : Bool := s.keep ≤ w.best.length && (peek w.best).any fun top => s.closer top c

def run : Nat → Walk ν α → Option (Walk ν α)
  | 0, _ => none
  | fuel + 1, w =>
      match w.ahead with
      | [] => some w
      | c :: ahead =>
          if s.isOver w c then some { w with ahead }
          else run fuel ((s.next (s.node c)).foldl s.visit { w with ahead })

def heaped (cmp : α → α → Ordering) (l : List α) : List α := l.foldl (fun h a => push cmp a h) []

/-- The walk before its first step. -/
def start (roots : List α) (count : Nat) : Walk ν α :=
  ⟨roots.map s.node, heaped s.back roots, heaped s.cmp (roots.filter fun a => s.allow (s.node a)), count⟩

variable {s} {roots : List α} {w : Walk ν α} {n : ν}

theorem heaped_perm (cmp : α → α → Ordering) (l : List α) : (heaped cmp l).Perm l := by
  have hfold (h : List α) : (l.foldl (fun h a => push cmp a h) h).Perm (h ++ l) := by
    induction l generalizing h with
    | nil => rw [List.append_nil]; exact .rfl
    | cons a l ih => exact (ih _).trans (((push_perm a h).append_right l).trans List.perm_middle.symm)
  exact hfold []

theorem heaped_descending {cmp : α → α → Ordering} [TransCmp cmp] (l : List α) : Descending cmp (heaped cmp l) := by
  have hfold (h : List α) (hh : Descending cmp h) : Descending cmp (l.foldl (fun h a => push cmp a h) h) := by
    induction l generalizing h with
    | nil => exact hh
    | cons a l ih => exact ih _ (push_descending hh a)
  exact hfold [] .nil

/-- One node leads to another that is not hidden. -/
def Leads (s : Space ν α) (m n : ν) : Prop := n ∈ s.next m ∧ (s.view n).isSome

/-- A node that a way from the roots leads to. -/
def Reached (s : Space ν α) (roots : List α) (n : ν) : Prop := ∃ r ∈ roots, ReflTransGen s.Leads (s.node r) n

/-- A node met that is not hidden: one gone on from, or to be gone on from. -/
def Open (s : Space ν α) (roots : List α) (n : ν) : Prop := n ∈ roots.map s.node ∨ (s.view n).isSome

/-- What every step of a walk keeps. -/
structure Sound (s : Space ν α) (roots : List α) (w : Walk ν α) : Prop where
  seen_nodup : w.seen.Nodup
  ahead_seen : ∀ a ∈ w.ahead, s.node a ∈ w.seen ∧ s.Open roots (s.node a)
  best_descending : Descending s.cmp w.best
  best_nodup : (w.best.map s.node).Nodup
  best_seen : ∀ a ∈ w.best, s.node a ∈ w.seen ∧ s.allow (s.node a) ∧ (a ∈ roots ∨ s.view (s.node a) = some a)
  best_length : w.best.length ≤ max s.keep roots.length
  reached : ∀ n ∈ w.seen, s.Open roots n → s.Reached roots n

/-- While there is room among the best, all that is wanted is there, and the nodes behind lead to
nodes met; `rest` of those that `at_` leads to are still to come. -/
structure Covers (s : Space ν α) (roots : List α) (w : Walk ν α) (at_ : Option ν) (rest : List ν) : Prop where
  wanted : ∀ n ∈ w.seen, s.Open roots n → s.allow n → n ∈ w.best.map s.node
  behind : ∀ n ∈ w.seen, s.Open roots n → n ∈ w.ahead.map s.node ∨
    ∀ m ∈ s.next n, m ∈ w.seen ∨ (some n = at_ ∧ m ∈ rest)

omit [DecidableEq ν] in
theorem trimmed_sublist (best : List α) : (s.trimmed best).Sublist best := by
  unfold trimmed pop
  split
  · exact List.tail_sublist best
  · exact .refl _

theorem best_le_visit : w.best.length ≤ (s.visit w n).best.length := by
  unfold visit
  split
  · exact le_rfl
  · split
    · exact le_rfl
    · split
      · split
        · unfold trimmed pop
          split
          · rw [List.length_tail, length_push]
            exact le_rfl
          · rw [length_push]
            omega
        · exact le_rfl
      · exact le_rfl

theorem best_le_visits (ns : List ν) : w.best.length ≤ (ns.foldl s.visit w).best.length := by
  induction ns generalizing w with
  | nil => exact le_rfl
  | cons n ns ih => exact best_le_visit.trans ih

theorem seen_sub_visit : w.seen ⊆ (s.visit w n).seen := by
  unfold visit
  split
  · exact List.Subset.refl _
  · split
    · exact List.subset_cons_self n _
    · split <;> exact List.subset_cons_self n _

/-- A node met adds no more to the nodes ahead than to the nodes met. -/
theorem visit_measure : (s.visit w n).ahead.length + w.seen.length ≤ (s.visit w n).seen.length + w.ahead.length := by
  unfold visit
  split
  · omega
  · split
    · simp only [List.length_cons]
      omega
    · split
      · simp only [List.length_cons, length_push]
        omega
      · simp only [List.length_cons]
        omega

theorem visits_measure (ns : List ν) :
    (ns.foldl s.visit w).ahead.length + w.seen.length ≤ (ns.foldl s.visit w).seen.length + w.ahead.length := by
  induction ns generalizing w with
  | nil => exact Nat.add_comm _ _ |>.le
  | cons n ns ih =>
      have hone := visit_measure (s := s) (w := w) (n := n)
      have hrest := ih (w := s.visit w n)
      rw [List.foldl_cons]
      omega

omit [DecidableEq ν] in
/-- A node met for the first time is no root, and not among the best. -/
theorem Sound.fresh (h : s.Sound roots w) (hroots : ∀ r ∈ roots, s.node r ∈ w.seen) (hn : n ∉ w.seen) :
    n ∉ roots.map s.node ∧ n ∉ w.best.map s.node := by
  constructor
  · intro hmem
    obtain ⟨r, hr, rfl⟩ := List.mem_map.mp hmem
    exact hn (hroots r hr)
  · intro hmem
    obtain ⟨a, ha, rfl⟩ := List.mem_map.mp hmem
    exact hn (h.best_seen a ha).1

theorem Sound.visit [TransCmp s.cmp] (h : s.Sound roots w) (hroots : ∀ r ∈ roots, s.node r ∈ w.seen)
    (hn : (s.view n).isSome → s.Reached roots n) : s.Sound roots (s.visit w n) := by
  unfold Space.visit
  split
  · exact h
  · next hnew =>
    obtain ⟨hnroot, hnbest⟩ := h.fresh hroots hnew
    have hnodup : (n :: w.seen).Nodup := List.nodup_cons.mpr ⟨hnew, h.seen_nodup⟩
    have hahead (a : α) (ha : a ∈ w.ahead) : s.node a ∈ n :: w.seen ∧ s.Open roots (s.node a) :=
      ⟨List.mem_cons_of_mem _ (h.ahead_seen a ha).1, (h.ahead_seen a ha).2⟩
    have hbest (a : α) (ha : a ∈ w.best) :
        s.node a ∈ n :: w.seen ∧ s.allow (s.node a) ∧ (a ∈ roots ∨ s.view (s.node a) = some a) :=
      ⟨List.mem_cons_of_mem _ (h.best_seen a ha).1, (h.best_seen a ha).2⟩
    have hreached (m : ν) (hm : m ∈ n :: w.seen) (hopen : s.Open roots m) : s.Reached roots m := by
      rcases List.mem_cons.mp hm with rfl | hm
      · exact hn (hopen.resolve_left hnroot)
      · exact h.reached m hm hopen
    split
    · exact ⟨hnodup, hahead, h.best_descending, h.best_nodup, hbest, h.best_length, hreached⟩
    · next a hview =>
      have hnode := s.node_view hview
      have hfound : s.node a ∈ n :: w.seen ∧ s.Open roots (s.node a) := by
        rw [hnode]
        exact ⟨List.mem_cons_self, .inr (by rw [hview]; rfl)⟩
      split
      · have hpushed (b : α) (hb : b ∈ push s.back a w.ahead) : s.node b ∈ n :: w.seen ∧ s.Open roots (s.node b) := by
          rcases mem_push.mp hb with rfl | hb
          · exact hfound
          · exact hahead b hb
        split
        · next hallow =>
          have hperm : (push s.cmp a w.best).Perm (a :: w.best) := push_perm a w.best
          have hsub := s.trimmed_sublist (push s.cmp a w.best)
          have hnew' : ((push s.cmp a w.best).map s.node).Nodup := by
            rw [(hperm.map s.node).nodup_iff, List.map_cons, hnode]
            exact List.nodup_cons.mpr ⟨hnbest, h.best_nodup⟩
          refine ⟨hnodup, hpushed, (push_descending h.best_descending a).sublist hsub, hnew'.sublist (hsub.map _), ?_, ?_, hreached⟩
          · intro b hb
            rcases mem_push.mp (hsub.subset hb) with rfl | hb
            · refine ⟨hfound.1, ?_, .inr ?_⟩ <;> rw [hnode]
              · exact hallow
              · exact hview
            · exact hbest b hb
          · have hlen : (push s.cmp a w.best).length = w.best.length + 1 := length_push a w.best
            have hmax := h.best_length
            unfold trimmed pop
            split
            · rw [List.length_tail, hlen]
              exact hmax
            · dsimp only
              omega
        · exact ⟨hnodup, hpushed, h.best_descending, h.best_nodup, hbest, h.best_length, hreached⟩
      · exact ⟨hnodup, hahead, h.best_descending, h.best_nodup, hbest, h.best_length, hreached⟩

/-- Meeting the first of the nodes still to come. -/
theorem Covers.visit {at_ : ν} {rest : List ν} (h : s.Covers roots w (some at_) (n :: rest)) (hs : s.Sound roots w)
    (hroots : ∀ r ∈ roots, s.node r ∈ w.seen) (hroom : (s.visit w n).best.length < s.keep) :
    s.Covers roots (s.visit w n) (some at_) rest := by
  have hroom' : w.best.length < s.keep := best_le_visit.trans_lt hroom
  have hwelcome (a : α) : s.welcome w.best a = true := by
    rw [welcome, decide_eq_true hroom', Bool.true_or]
  have hrest {m : ν} {l : List ν} (hsub : w.seen ⊆ l) (hl : n ∈ l) (m' : ν)
      (hm : m' ∈ w.seen ∨ (some m = some at_ ∧ m' ∈ n :: rest)) : m' ∈ l ∨ (some m = some at_ ∧ m' ∈ rest) := by
    rcases hm with hm | ⟨hat, hm⟩
    · exact .inl (hsub hm)
    · rcases List.mem_cons.mp hm with rfl | hm
      · exact .inl hl
      · exact .inr ⟨hat, hm⟩
  unfold Space.visit
  split
  · next hseen =>
    refine ⟨h.wanted, fun m hm hopen => (h.behind m hm hopen).imp_right fun hall m' hm' => ?_⟩
    exact hrest (List.Subset.refl _) hseen m' (hall m' hm')
  · next hnew =>
    obtain ⟨hnroot, -⟩ := hs.fresh hroots hnew
    have hold {m : ν} (hm : m ∈ n :: w.seen) (hne : m ≠ n) : m ∈ w.seen := (List.mem_cons.mp hm).resolve_left hne
    have hbehind (m : ν) (hm : m ∈ w.seen) (hopen : s.Open roots m) :
        m ∈ w.ahead.map s.node ∨ ∀ m' ∈ s.next m, m' ∈ n :: w.seen ∨ (some m = some at_ ∧ m' ∈ rest) :=
      (h.behind m hm hopen).imp_right fun hall m' hm' =>
        hrest (List.subset_cons_self n _) List.mem_cons_self m' (hall m' hm')
    split
    · next hview =>
      have hclosed {m : ν} (hopen : s.Open roots m) : m ≠ n := by
        rintro rfl
        rcases hopen with hroot | hsome
        · exact hnroot hroot
        · rw [hview] at hsome
          cases hsome
      exact ⟨fun m hm hopen hallow => h.wanted m (hold hm (hclosed hopen)) hopen hallow,
        fun m hm hopen => hbehind m (hold hm (hclosed hopen)) hopen⟩
    · next a hview =>
      have hnode := s.node_view hview
      rw [if_pos (hwelcome a)]
      refine ⟨fun m hm hopen hallow => ?_, fun m hm hopen => ?_⟩
      · by_cases hne : m = n
        · subst hne
          dsimp only
          have hlen : (push s.cmp a w.best).length = w.best.length + 1 := length_push a w.best
          rw [if_pos hallow, trimmed, if_neg (by omega)]
          exact List.mem_map.mpr ⟨a, mem_push.mpr (.inl rfl), hnode⟩
        · obtain ⟨b, hb, hbn⟩ := List.mem_map.mp (h.wanted m (hold hm hne) hopen hallow)
          dsimp only
          split
          · have hlen : (push s.cmp a w.best).length = w.best.length + 1 := length_push a w.best
            rw [trimmed, if_neg (by omega)]
            exact List.mem_map.mpr ⟨b, mem_push.mpr (.inr hb), hbn⟩
          · exact List.mem_map.mpr ⟨b, hb, hbn⟩
      · by_cases hne : m = n
        · subst hne
          exact .inl (List.mem_map.mpr ⟨a, mem_push.mpr (.inl rfl), hnode⟩)
        · rcases hbehind m (hold hm hne) hopen with hin | hall
          · obtain ⟨b, hb, hbn⟩ := List.mem_map.mp hin
            exact .inl (List.mem_map.mpr ⟨b, mem_push.mpr (.inr hb), hbn⟩)
          · exact .inr hall

theorem roots_visits (ns : List ν) (hroots : ∀ r ∈ roots, s.node r ∈ w.seen) :
    ∀ r ∈ roots, s.node r ∈ (ns.foldl s.visit w).seen := by
  induction ns generalizing w with
  | nil => exact hroots
  | cons n ns ih => exact ih fun r hr => seen_sub_visit (hroots r hr)

theorem Sound.visits [TransCmp s.cmp] (h : s.Sound roots w) (hroots : ∀ r ∈ roots, s.node r ∈ w.seen) {ns : List ν}
    (hns : ∀ n ∈ ns, (s.view n).isSome → s.Reached roots n) : s.Sound roots (ns.foldl s.visit w) := by
  induction ns generalizing w with
  | nil => exact h
  | cons n ns ih =>
      refine ih (h.visit hroots (hns n List.mem_cons_self)) (fun r hr => seen_sub_visit (hroots r hr)) ?_
      exact fun m hm => hns m (List.mem_cons_of_mem _ hm)

theorem Covers.visits [TransCmp s.cmp] (at_ : ν) {ns : List ν} (h : s.Covers roots w (some at_) ns) (hs : s.Sound roots w)
    (hroots : ∀ r ∈ roots, s.node r ∈ w.seen) (hns : ∀ n ∈ ns, (s.view n).isSome → s.Reached roots n)
    (hroom : (ns.foldl s.visit w).best.length < s.keep) : s.Covers roots (ns.foldl s.visit w) none [] := by
  induction ns generalizing w with
  | nil =>
      refine ⟨h.wanted, fun m hm hopen => (h.behind m hm hopen).imp_right fun hall m' hm' => ?_⟩
      exact (hall m' hm').imp_right fun hin => absurd hin.2 List.not_mem_nil
  | cons n ns ih =>
      have hroom' : (s.visit w n).best.length < s.keep := (best_le_visits ns).trans_lt hroom
      exact ih (h.visit hs hroots hroom') (hs.visit hroots (hns n List.mem_cons_self))
        (fun r hr => seen_sub_visit (hroots r hr)) (fun m hm => hns m (List.mem_cons_of_mem _ hm)) hroom

/-- What a run leaves: sound, and complete where there was room for all. -/
structure Done (s : Space ν α) (roots : List α) (w : Walk ν α) : Prop where
  sound : s.Sound roots w
  complete : w.best.length < s.keep → ∀ n, s.Reached roots n → s.allow n → n ∈ w.best.map s.node

omit [DecidableEq ν] in
theorem Covers.complete (h : s.Covers roots w none []) (hroots : ∀ r ∈ roots, s.node r ∈ w.seen) (hahead : w.ahead = []) :
    ∀ n, s.Reached roots n → s.allow n → n ∈ w.best.map s.node := by
  rintro n ⟨r, hr, hway⟩ hallow
  have hmet : n ∈ w.seen ∧ s.Open roots n := by
    clear hallow
    induction hway with
    | refl => exact ⟨hroots r hr, .inl (List.mem_map.mpr ⟨r, hr, rfl⟩)⟩
    | @tail m n _ hlead ih =>
        rcases h.behind m ih.1 ih.2 with hin | hall
        · rw [hahead] at hin
          exact absurd hin List.not_mem_nil
        · exact ⟨(hall n hlead.1).resolve_right fun hin => absurd hin.2 List.not_mem_nil, .inr hlead.2⟩
  exact h.wanted n hmet.1 hmet.2 hallow

theorem run_done [TransCmp s.cmp] {fuel : Nat} {w' : Walk ν α} (h : s.Sound roots w) (hroots : ∀ r ∈ roots, s.node r ∈ w.seen)
    (hcovers : w.best.length < s.keep → s.Covers roots w none []) (hrun : s.run fuel w = some w') : s.Done roots w' := by
  induction fuel generalizing w with
  | zero => cases hrun
  | succ fuel ih =>
      rw [run] at hrun
      cases hahead : w.ahead with
      | nil =>
          rw [hahead] at hrun
          obtain rfl := Option.some.inj hrun
          exact ⟨h, fun hroom => (hcovers hroom).complete hroots hahead⟩
      | cons c ahead =>
          rw [hahead] at hrun
          dsimp only at hrun
          have hpop : s.Sound roots { w with ahead } := by
            refine ⟨h.seen_nodup, fun a ha => h.ahead_seen a ?_, h.best_descending, h.best_nodup, h.best_seen,
              h.best_length, h.reached⟩
            rw [hahead]
            exact List.mem_cons_of_mem _ ha
          by_cases hover : s.isOver w c = true
          · rw [if_pos hover] at hrun
            obtain rfl := Option.some.inj hrun
            refine ⟨hpop, fun hroom => ?_⟩
            rw [isOver, Bool.and_eq_true, decide_eq_true_eq] at hover
            exact absurd hover.1 (Nat.not_le.mpr hroom)
          · rw [if_neg hover] at hrun
            have hc : c ∈ w.ahead := by
              rw [hahead]
              exact List.mem_cons_self
            obtain ⟨hcseen, hcopen⟩ := h.ahead_seen c hc
            have hns (n : ν) (hn : n ∈ s.next (s.node c)) (hsome : (s.view n).isSome) : s.Reached roots n := by
              obtain ⟨r, hr, hway⟩ := h.reached _ hcseen hcopen
              exact ⟨r, hr, hway.tail ⟨hn, hsome⟩⟩
            refine ih (hpop.visits hroots hns) (roots_visits _ hroots) ?_ hrun
            intro hroom
            have hroom' : w.best.length < s.keep := (best_le_visits (w := { w with ahead }) _).trans_lt hroom
            have hcov := hcovers hroom'
            refine Covers.visits (s.node c) ⟨hcov.wanted, fun m hm hopen => ?_⟩ hpop hroots hns hroom
            by_cases hmc : m = s.node c
            · exact .inr fun m' hm' => .inr ⟨congrArg some hmc, hmc ▸ hm'⟩
            · rcases hcov.behind m hm hopen with hin | hall
              · rw [hahead, List.map_cons] at hin
                exact .inl ((List.mem_cons.mp hin).resolve_left hmc)
              · exact .inr fun m' hm' => .inl ((hall m' hm').resolve_right fun hin => absurd hin.2 List.not_mem_nil)

theorem seen_visits {P : ν → Prop} {ns : List ν} (h : ∀ n ∈ w.seen, P n) (hns : ∀ n ∈ ns, P n) :
    ∀ n ∈ (ns.foldl s.visit w).seen, P n := by
  induction ns generalizing w with
  | nil => exact h
  | cons n ns ih =>
      refine ih ?_ fun m hm => hns m (List.mem_cons_of_mem _ hm)
      have hcons : ∀ m ∈ n :: w.seen, P m := List.forall_mem_cons.mpr ⟨hns n List.mem_cons_self, h⟩
      unfold visit
      split
      · exact h
      · split
        · exact hcons
        · split <;> exact hcons

/-- What holds of the nodes ahead and of those met still holds of the nodes ahead. -/
theorem ahead_visits {P : ν → Prop} {ns : List ν} (h : ∀ a ∈ w.ahead, P (s.node a)) (hns : ∀ n ∈ ns, P n) :
    ∀ a ∈ (ns.foldl s.visit w).ahead, P (s.node a) := by
  induction ns generalizing w with
  | nil => exact h
  | cons n ns ih =>
      refine ih ?_ fun m hm => hns m (List.mem_cons_of_mem _ hm)
      intro a ha
      unfold visit at ha
      split at ha
      · exact h a ha
      · split at ha
        · exact h a ha
        · next b hview =>
          split at ha
          · rcases mem_push.mp ha with rfl | ha
            · rw [s.node_view hview]
              exact hns n List.mem_cons_self
            · exact h a ha
          · exact h a ha

/-- A run over finitely many nodes ends. -/
theorem run_ends [TransCmp s.cmp] {universe_ : List ν} {fuel : Nat} (h : s.Sound roots w)
    (hroots : ∀ r ∈ roots, s.node r ∈ w.seen) (hin : w.seen ⊆ universe_)
    (hnext : ∀ n ∈ universe_, ∀ m ∈ s.next n, m ∈ universe_)
    (hfuel : universe_.length + w.ahead.length < fuel + w.seen.length) : ∃ w', s.run fuel w = some w' := by
  induction fuel generalizing w with
  | zero =>
      have hle := (List.subperm_of_subset h.seen_nodup hin).length_le
      omega
  | succ fuel ih =>
      rw [run]
      cases hahead : w.ahead with
      | nil => exact ⟨w, rfl⟩
      | cons c ahead =>
          dsimp only
          by_cases hover : s.isOver w c = true
          · rw [if_pos hover]
            exact ⟨_, rfl⟩
          · rw [if_neg hover]
            have hc : c ∈ w.ahead := by
              rw [hahead]
              exact List.mem_cons_self
            obtain ⟨hcseen, hcopen⟩ := h.ahead_seen c hc
            have hpop : s.Sound roots { w with ahead } := by
              refine ⟨h.seen_nodup, fun a ha => h.ahead_seen a ?_, h.best_descending, h.best_nodup, h.best_seen,
                h.best_length, h.reached⟩
              rw [hahead]
              exact List.mem_cons_of_mem _ ha
            have hns (n : ν) (hn : n ∈ s.next (s.node c)) (hsome : (s.view n).isSome) : s.Reached roots n := by
              obtain ⟨r, hr, hway⟩ := h.reached _ hcseen hcopen
              exact ⟨r, hr, hway.tail ⟨hn, hsome⟩⟩
            have hmeasure := visits_measure (s := s) (w := { w with ahead }) (s.next (s.node c))
            refine ih (hpop.visits hroots hns) (roots_visits _ hroots) ?_ ?_
            · exact seen_visits (P := (· ∈ universe_)) hin (hnext _ (hin hcseen))
            · rw [hahead, List.length_cons] at hfuel
              dsimp only at hmeasure
              omega

/-- What holds of the nodes that a run begins with, and goes over to where they lead, holds of all it meets. -/
theorem run_seen {P : ν → Prop} {fuel : Nat} {w' : Walk ν α} (hseen : ∀ n ∈ w.seen, P n) (hahead : ∀ a ∈ w.ahead, P (s.node a))
    (hnext : ∀ n, P n → ∀ m ∈ s.next n, P m) (hrun : s.run fuel w = some w') : ∀ n ∈ w'.seen, P n := by
  induction fuel generalizing w with
  | zero => cases hrun
  | succ fuel ih =>
      rw [run] at hrun
      cases hw : w.ahead with
      | nil =>
          rw [hw] at hrun
          obtain rfl := Option.some.inj hrun
          exact hseen
      | cons c ahead =>
          rw [hw] at hrun
          dsimp only at hrun
          split at hrun
          · obtain rfl := Option.some.inj hrun
            exact hseen
          · have hc : P (s.node c) := by
              refine hahead c ?_
              rw [hw]
              exact List.mem_cons_self
            refine ih (w := (s.next (s.node c)).foldl s.visit { w with ahead }) (seen_visits hseen (hnext _ hc))
              (ahead_visits (fun a ha => hahead a ?_) (hnext _ hc)) hrun
            rw [hw]
            exact List.mem_cons_of_mem _ ha

omit [DecidableEq ν] in
theorem start_sound [TransCmp s.cmp] (hnodup : (roots.map s.node).Nodup) (count : Nat) :
    s.Sound roots (s.start roots count) := by
  have hahead := heaped_perm s.back roots
  have hbest := heaped_perm s.cmp (roots.filter fun a => s.allow (s.node a))
  refine ⟨hnodup, fun a ha => ?_, heaped_descending _, ?_, fun a ha => ?_, ?_, fun n hn _ => ?_⟩
  · have ha := List.mem_map_of_mem (f := s.node) (hahead.mem_iff.mp ha)
    exact ⟨ha, .inl ha⟩
  · refine (hbest.map s.node).nodup_iff.mpr ?_
    exact hnodup.sublist (List.filter_sublist.map _)
  · obtain ⟨ha, hallow⟩ := List.mem_filter.mp (hbest.mem_iff.mp ha)
    exact ⟨List.mem_map_of_mem ha, hallow, .inl ha⟩
  · have hlen : (heaped s.cmp (roots.filter fun a => s.allow (s.node a))).length ≤ roots.length :=
      hbest.length_eq.trans_le (List.length_filter_le _ _)
    exact hlen.trans (Nat.le_max_right _ _)
  · obtain ⟨r, hr, rfl⟩ := List.mem_map.mp hn
    exact ⟨r, hr, .refl⟩

omit [DecidableEq ν] in
theorem start_covers (roots : List α) (count : Nat) : s.Covers roots (s.start roots count) none [] := by
  have hahead := heaped_perm s.back roots
  have hbest := heaped_perm s.cmp (roots.filter fun a => s.allow (s.node a))
  refine ⟨fun n hn _ hallow => ?_, fun n hn _ => .inl ?_⟩
  · obtain ⟨r, hr, rfl⟩ := List.mem_map.mp hn
    exact List.mem_map_of_mem (hbest.mem_iff.mpr (List.mem_filter.mpr ⟨hr, hallow⟩))
  · obtain ⟨r, hr, rfl⟩ := List.mem_map.mp hn
    exact List.mem_map_of_mem (hahead.mem_iff.mpr hr)

end Space

end KivaDb.Lib.BestFirst
