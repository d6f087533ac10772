import Mathlib.Logic.Relation

namespace KivaDb.Lib.Runs

variable {σ α : Type*} (step : σ → α → Option σ)

/-- The state a list of actions leads to, if each of them can be taken. -/
def run : σ → List α → Option σ
  | s, [] => some s
  | s, a :: as => (step s a).bind fun t => run t as

/-- Every action is taken from a state in which `P` holds of it. -/
def Along (P : σ → α → Prop) : σ → List α → Prop
  | _, [] => True
  | s, a :: as => P s a ∧ ∀ t, step s a = some t → Along P t as

instance decidableAlong (P : σ → α → Prop) [∀ s a, Decidable (P s a)] :
    (s : σ) → (as : List α) → Decidable (Along step P s as)
  | _, [] => isTrue trivial
  | s, a :: as =>
      match h : step s a with
      | none => decidable_of_iff (P s a) (by simp [Along, h])
      | some t =>
          haveI := decidableAlong P t as
          decidable_of_iff (P s a ∧ Along step P t as) (by simp [Along, h])

variable {step}

theorem run_cons {s t : σ} {a : α} {as : List α} :
    run step s (a :: as) = some t ↔ ∃ r, step s a = some r ∧ run step r as = some t := by
  rw [run]
  exact Option.bind_eq_some_iff

theorem run_append {s t : σ} {as bs : List α} :
    run step s (as ++ bs) = some t ↔ ∃ r, run step s as = some r ∧ run step r bs = some t := by
  induction as generalizing s with
  | nil => simp [run]
  | cons a as ih =>
      rw [List.cons_append, run_cons]
      constructor
      · rintro ⟨r, hr, ht⟩
        obtain ⟨q, hq, hb⟩ := ih.mp ht
        exact ⟨q, run_cons.mpr ⟨r, hr, hq⟩, hb⟩
      · rintro ⟨q, hq, hb⟩
        obtain ⟨r, hr, ht⟩ := run_cons.mp hq
        exact ⟨r, hr, ih.mpr ⟨q, ht, hb⟩⟩

theorem run_snoc {s t : σ} {a : α} {as : List α} :
    run step s (as ++ [a]) = some t ↔ ∃ r, run step s as = some r ∧ step r a = some t := by
  rw [run_append]
  simp [run]

theorem Along.append {P : σ → α → Prop} {s r : σ} {as bs : List α} (hr : run step s as = some r) :
    Along step P s (as ++ bs) ↔ Along step P s as ∧ Along step P r bs := by
  induction as generalizing s with
  | nil =>
      obtain rfl : s = r := by simpa [run] using hr
      simp [Along]
  | cons a as ih =>
      obtain ⟨t, ht, hrun⟩ := run_cons.mp hr
      rw [List.cons_append, Along, Along]
      constructor
      · rintro ⟨hp, h⟩
        obtain ⟨h1, h2⟩ := (ih hrun).mp (h t ht)
        refine ⟨⟨hp, fun u hu => ?_⟩, h2⟩
        obtain rfl : t = u := Option.some.inj (ht.symm.trans hu)
        exact h1
      · rintro ⟨⟨hp, h⟩, h2⟩
        refine ⟨hp, fun u hu => ?_⟩
        obtain rfl : t = u := Option.some.inj (ht.symm.trans hu)
        exact (ih hrun).mpr ⟨h t ht, h2⟩

theorem along_true (s : σ) (as : List α) : Along step (fun _ _ => True) s as := by
  induction as generalizing s with
  | nil => trivial
  | cons a as ih => exact ⟨trivial, fun t _ => ih t⟩

/-- What each step that meets `P` keeps holds after every run of such steps. -/
theorem invariant {P : σ → α → Prop} {I : σ → Prop}
    (keeps : ∀ {s a t}, I s → P s a → step s a = some t → I t) {s t : σ} {as : List α}
    (hs : I s) (hp : Along step P s as) (hr : run step s as = some t) : I t := by
  induction as generalizing s with
  | nil =>
      obtain rfl : s = t := by simpa [run] using hr
      exact hs
  | cons a as ih =>
      obtain ⟨r, hstep, hrun⟩ := run_cons.mp hr
      exact ih (keeps hs hp.1 hstep) (hp.2 r hstep) hrun

/-- What every step keeps holds after every run. -/
theorem preserved {I : σ → Prop} (keeps : ∀ {s a t}, I s → step s a = some t → I t) {s t : σ} {as : List α}
    (hs : I s) (hr : run step s as = some t) : I t := by
  exact invariant (fun hi _ h => keeps hi h) hs (along_true s as) hr

end KivaDb.Lib.Runs
