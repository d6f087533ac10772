import Mathlib.Logic.Function.Basic
import Mathlib.Algebra.BigOperators.Group.List.Basic
import Mathlib.Tactic.Linarith

namespace KivaDb.Lib.Shadow

variable {K V W : Type} [DecidableEq K]

/-- A change of a map, by key. -/
inductive Cmd (K V : Type)
  | put (k : K) (v : V)
  | del (k : K)

/-- What is told of a change that was made. -/
inductive Event (K V : Type)
  | set (k : K) (v : V) (created : Bool)
  | del (k : K)

def Cmd.key : Cmd K V → K
  | put k _ => k
  | del k => k

omit [DecidableEq K] in
@[simp] theorem key_put (k : K) (v : V) : (Cmd.put k v).key = k := rfl

omit [DecidableEq K] in
@[simp] theorem key_del (k : K) : (Cmd.del k : Cmd K V).key = k := rfl

section

variable (alive : V → Bool)

/-- One after the other: a value that is not alive is no longer there when the
next command looks. `e` says which keys are there. -/
def told : (e : K → Bool) → List (Cmd K V) → List (Event K V)
  | _, [] => []
  | e, .put k v :: cs => .set k v (!e k) :: told (Function.update e k (alive v)) cs
  | e, .del k :: cs => if e k then .del k :: told (Function.update e k false) cs else told e cs

/-- All at once, each command seeing through `b` that those before it wrote,
alive or not. -/
def shadowed : (b : K → Bool) → List (Cmd K V) → List (Event K V)
  | _, [] => []
  | b, .put k v :: cs => .set k v (!b k) :: shadowed (Function.update b k true) cs
  | b, .del k :: cs => if b k then .del k :: shadowed (Function.update b k false) cs else shadowed b cs

/-- The commands of those that do something. -/
def effective : (b : K → Bool) → List (Cmd K V) → List (Cmd K V)
  | _, [] => []
  | b, .put k v :: cs => .put k v :: effective (Function.update b k true) cs
  | b, .del k :: cs => if b k then .del k :: effective (Function.update b k false) cs else effective b cs

/-- The map after the commands. -/
def final (load : V → W) (m : K → Option W) : List (Cmd K V) → K → Option W
  | [] => m
  | .put k v :: cs => final load (Function.update m k (if alive v then some (load v) else none)) cs
  | .del k :: cs => final load (Function.update m k none) cs

/-- A value that is not alive is put and another command on its key follows. -/
def stale : List (Cmd K V) → Bool
  | [] => false
  | .put k v :: cs => (!alive v && cs.any (·.key = k)) || stale cs
  | .del _ :: cs => stale cs

end

theorem final_append (alive : V → Bool) (load : V → W) (m : K → Option W) (cs ds : List (Cmd K V)) :
    final alive load m (cs ++ ds) = final alive load (final alive load m cs) ds := by
  induction cs generalizing m with
  | nil => rfl
  | cons c cs ih =>
      cases c with
      | put k v => exact ih _
      | del k => exact ih _

theorem isSome_final_put (alive : V → Bool) (load : V → W) (m : K → Option W) (k : K) (v : V) :
    (fun j => (final alive load m [.put k v] j).isSome) = Function.update (fun j => (m j).isSome) k (alive v) := by
  funext j
  by_cases hj : j = k
  · subst hj
    cases ha : alive v <;> simp [final, ha]
  · simp [final, Function.update_of_ne hj]

theorem isSome_final_del (alive : V → Bool) (load : V → W) (m : K → Option W) (k : K) :
    (fun j => (final alive load m [.del k] j).isSome) = Function.update (fun j => (m j).isSome) k false := by
  funext j
  by_cases hj : j = k
  · subst hj
    simp [final]
  · simp [final, Function.update_of_ne hj]

/-- Commands that do nothing change nothing. -/
theorem final_effective (alive : V → Bool) (load : V → W) (cs : List (Cmd K V)) {m : K → Option W} {b : K → Bool}
    (h : ∀ k, (m k).isSome = true → b k = true) : final alive load m (effective b cs) = final alive load m cs := by
  induction cs generalizing m b with
  | nil => rfl
  | cons c cs ih =>
      cases c with
      | put k v =>
          refine ih fun j hj => ?_
          by_cases hjk : j = k
          · simp [hjk]
          · rw [Function.update_of_ne hjk] at hj ⊢
            exact h j hj
      | del k =>
          have hm : ∀ j, (Function.update m k none j).isSome = true → Function.update b k false j = true := by
            intro j hj
            by_cases hjk : j = k
            · simp [hjk] at hj
            · rw [Function.update_of_ne hjk] at hj ⊢
              exact h j hj
          cases hb : b k with
          | true =>
              simp only [effective, hb, if_true, final]
              exact ih hm
          | false =>
              have hk : m k = none := by
                by_contra hn
                have := h k (Option.isSome_iff_ne_none.mpr hn)
                simp [hb] at this
              have hu : Function.update m k none = m := by
                rw [← hk, Function.update_eq_self]
              simp only [effective, hb, Bool.false_eq_true, if_false, final, hu]
              exact ih h

/-- Deletions count for, creations against. -/
def Event.weight : Event K V → Int
  | set _ _ created => if created then -1 else 0
  | del _ => 1

def weight (t : List (Event K V)) : Int := (t.map Event.weight).sum

variable {alive : V → Bool}

theorem le_update {e b : K → Bool} (h : ∀ k, e k = true → b k = true) (k : K) {x y : Bool} (hxy : x = true → y = true) :
    ∀ j, Function.update e k x j = true → Function.update b k y j = true := by
  intro j
  by_cases hj : j = k
  · subst hj
    simpa using hxy
  · simpa [Function.update_of_ne hj] using h j

theorem weight_told_le (cs : List (Cmd K V)) {e b : K → Bool} (h : ∀ k, e k = true → b k = true) :
    weight (told alive e cs) ≤ weight (shadowed b cs) := by
  induction cs generalizing e b with
  | nil => exact le_rfl
  | cons c cs ih =>
      cases c with
      | put k v =>
          have hi := ih (le_update h k (x := alive v) (y := true) fun _ => rfl)
          have hk := h k
          simp only [told, shadowed, weight, List.map_cons, List.sum_cons, Event.weight] at hi ⊢
          cases he : e k with
          | true => simpa [hk he] using hi
          | false => cases b k <;> simp <;> omega
      | del k =>
          have hk := h k
          simp only [told, shadowed]
          cases he : e k with
          | true =>
              have hi := ih (le_update h k (x := false) (y := false) id)
              simpa [hk he, weight, Event.weight] using hi
          | false =>
              cases hb : b k with
              | true =>
                  have hi : weight (told alive e cs) ≤ weight (shadowed (Function.update b k false) cs) := by
                    refine ih fun j hj => ?_
                    by_cases hjk : j = k
                    · subst hjk
                      simp [he] at hj
                    · simpa [Function.update_of_ne hjk] using h j hj
                  simp only [weight, Event.weight, List.map_cons, List.sum_cons, if_true, Bool.false_eq_true,
                    if_false] at hi ⊢
                  omega
              | false => simpa using ih h

/-- The two tell the same exactly when no command looks for a key that only the
shadow holds. -/
theorem shadowed_eq_told (cs : List (Cmd K V)) {e b : K → Bool} (h : ∀ k, e k = true → b k = true) :
    shadowed b cs = told alive e cs ↔ (∀ c ∈ cs, b c.key = e c.key) ∧ stale alive cs = false := by
  induction cs generalizing e b with
  | nil => simp [shadowed, told, stale]
  | cons c cs ih =>
      rw [List.forall_mem_cons]
      cases c with
      | put k v =>
          have hi := ih (le_update h k (x := alive v) (y := true) fun _ => rfl)
          simp only [shadowed, told, List.cons.injEq, Event.set.injEq, true_and, hi, stale, Bool.or_eq_false_iff,
            key_put, Bool.not_inj_iff]
          by_cases hk : b k = e k
          · rw [and_iff_right hk, and_iff_right hk]
            cases ha : alive v with
            | true =>
                simp only [Bool.not_true, Bool.false_and, true_and]
                refine and_congr_left fun _ => forall₂_congr fun c _ => ?_
                by_cases hc : c.key = k
                · simp [hc, hk]
                · simp [Function.update_of_ne hc]
            | false =>
                simp only [Bool.not_false, Bool.true_and, List.any_eq_false, decide_eq_true_eq]
                rw [← and_assoc]
                refine and_congr_left fun _ => ?_
                rw [← forall₂_and]
                refine forall₂_congr fun c _ => ?_
                by_cases hc : c.key = k
                · simp [hc]
                · simp [hc]
          · simp [hk]
      | del k =>
          simp only [shadowed, told, stale, key_del]
          cases he : e k with
          | true =>
              have hb := h k he
              have hi := ih (le_update h k (x := false) (y := false) id)
              simp only [hb, if_true, List.cons.injEq, true_and, hi]
              refine and_congr_left fun _ => forall₂_congr fun c _ => ?_
              by_cases hc : c.key = k
              · simp [hc, hb, he]
              · simp [Function.update_of_ne hc]
          | false =>
              cases hb : b k with
              | true =>
                  refine iff_of_false (fun heq => ?_) (by simp)
                  have hw : weight (told alive e cs) ≤ weight (shadowed (Function.update b k false) cs) := by
                    refine weight_told_le cs fun j hj => ?_
                    by_cases hjk : j = k
                    · subst hjk
                      simp [he] at hj
                    · simpa [Function.update_of_ne hjk] using h j hj
                  have hwe := congrArg weight heq
                  simp only [if_true, Bool.false_eq_true, if_false] at hwe
                  simp only [weight, List.map_cons, List.sum_cons, Event.weight] at hw hwe
                  omega
              | false => simpa using ih h

/-- Told the same from the same keys: exactly when nothing stale is looked for
again. -/
theorem shadowed_eq_told_iff (e : K → Bool) (cs : List (Cmd K V)) :
    shadowed e cs = told alive e cs ↔ stale alive cs = false := by
  rw [shadowed_eq_told cs fun _ h => h]
  simp

end KivaDb.Lib.Shadow
