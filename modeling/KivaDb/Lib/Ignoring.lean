import KivaDb.Lib.Fallible

namespace KivaDb.Lib.Ignoring

variable {ε σ α β : Type} {φ : σ → σ}

/-- The outcome, the state it leaves changed by `φ`. -/
def mapState (φ : σ → σ) : EStateM.Result ε σ α → EStateM.Result ε σ α
  | .ok a s => .ok a (φ s)
  | .error e s => .error e (φ s)

/-- Run from `s`, `m` does not notice `φ`: it may come before or after. -/
def IgnoresAt (φ : σ → σ) (m : EStateM ε σ α) (s : σ) : Prop := m (φ s) = mapState φ (m s)

def Ignores (φ : σ → σ) (m : EStateM ε σ α) : Prop := ∀ s, IgnoresAt φ m s

theorem IgnoresAt.bind {m : EStateM ε σ α} {f : α → EStateM ε σ β} {s : σ} (hm : IgnoresAt φ m s)
    (hf : ∀ a t, m s = .ok a t → IgnoresAt φ (f a) t) : IgnoresAt φ (m >>= f) s := by
  unfold IgnoresAt at hm ⊢
  simp only [Bind.bind, EStateM.bind, hm]
  cases h : m s with
  | ok a t => exact hf a t h
  | error e t => rfl

/-- A state that `φ` leaves alone is led to one that `φ` leaves alone. -/
theorem IgnoresAt.fixed {m : EStateM ε σ α} {s : σ} (hm : IgnoresAt φ m s) (hs : φ s = s) :
    φ (Fallible.left m s) = Fallible.left m s := by
  unfold IgnoresAt at hm
  rw [hs] at hm
  unfold Fallible.left
  cases h : m s with
  | ok a t =>
      rw [h] at hm
      exact (EStateM.Result.ok.inj hm).2.symm
  | error e t =>
      rw [h] at hm
      exact (EStateM.Result.error.inj hm).2.symm

namespace Ignores

theorem pure (a : α) : Ignores φ (pure a : EStateM ε σ α) := fun _ => rfl

theorem throw (e : ε) : Ignores φ (throw e : EStateM ε σ α) := fun _ => rfl

theorem bind {m : EStateM ε σ α} {f : α → EStateM ε σ β} (hm : Ignores φ m) (hf : ∀ a, Ignores φ (f a)) :
    Ignores φ (m >>= f) := fun s => (hm s).bind fun a t _ => hf a t

/-- What is read of the state is the same before and after `φ`. -/
theorem get_bind {f : σ → EStateM ε σ β} (hsame : ∀ s, f (φ s) = f s) (hf : ∀ s, Ignores φ (f s)) :
    Ignores φ (get >>= f) := by
  intro s
  show f (φ s) (φ s) = mapState φ (f s s)
  rw [hsame]
  exact hf s s

theorem modify {f : σ → σ} (hf : ∀ s, f (φ s) = φ (f s)) : Ignores φ (modify f : EStateM ε σ PUnit) := by
  intro s
  show EStateM.Result.ok () (f (φ s)) = .ok () (φ (f s))
  rw [hf]

end Ignores

/-- From states that `φ` makes equal, the outcomes are the same and `φ` makes the
states left equal. -/
def Alike (φ : σ → σ) (m m' : EStateM ε σ α) : Prop := ∀ s t, φ s = φ t → mapState φ (m s) = mapState φ (m' t)

theorem Ignores.alike {m : EStateM ε σ α} (hm : Ignores φ m) : Alike φ m m := by
  intro s t h
  rw [← hm s, ← hm t, h]

namespace Alike

theorem bind {m m' : EStateM ε σ α} {f f' : α → EStateM ε σ β} (hm : Alike φ m m') (hf : ∀ a, Alike φ (f a) (f' a)) :
    Alike φ (m >>= f) (m' >>= f') := by
  intro s t h
  have hst := hm s t h
  simp only [Bind.bind, EStateM.bind]
  cases hs : m s with
  | ok a s' =>
      cases ht : m' t with
      | ok b t' =>
          simp only [hs, ht, mapState, EStateM.Result.ok.injEq] at hst
          obtain ⟨rfl, hst⟩ := hst
          exact hf a s' t' hst
      | error e t' => simp [hs, ht, mapState] at hst
  | error e s' =>
      cases ht : m' t with
      | ok b t' => simp [hs, ht, mapState] at hst
      | error e' t' =>
          simp only [hs, ht, mapState, EStateM.Result.error.injEq] at hst
          obtain ⟨rfl, hst⟩ := hst
          simp only [mapState, hst]

/-- A step that only one side takes, and that `φ` hides. -/
theorem bind_left {m : EStateM ε σ α} {f : α → EStateM ε σ β} {m' : EStateM ε σ β}
    (hm : ∀ s, ∃ a t, m s = .ok a t ∧ φ t = φ s) (hf : ∀ a, Alike φ (f a) m') : Alike φ (m >>= f) m' := by
  intro s t h
  obtain ⟨a, s', hs, hφ⟩ := hm s
  have hrun : (m >>= f) s = f a s' := by simp only [Bind.bind, EStateM.bind, hs]
  rw [hrun]
  exact hf a s' t (hφ.trans h)

theorem self {m m' : EStateM ε σ α} (h : Alike φ m m') : Alike φ m m :=
  fun s t hst => (h s t hst).trans (h t t rfl).symm

end Alike

end KivaDb.Lib.Ignoring
