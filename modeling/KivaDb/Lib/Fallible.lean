import Mathlib.Logic.Relation
import Std.Do
import Std.Internal.Do

namespace KivaDb.Lib.Fallible

variable {ε σ α β : Type}

theorem except_bind_ok {m : Except ε α} {f : α → Except ε β} {b : β} :
    m >>= f = .ok b ↔ ∃ a, m = .ok a ∧ f a = .ok b := by
  cases m with
  | ok a => simp [bind, Except.bind]
  | error e => simp [bind, Except.bind]

theorem bind_of_ok {m : Except ε α} {a : α} (h : m = .ok a) (f : α → Except ε β) : m >>= f = f a := by
  rw [h]
  rfl

theorem toOption_eq_some {m : Except ε α} {a : α} : m.toOption = some a ↔ m = .ok a := by
  cases m with
  | ok b => exact ⟨fun h => congrArg _ (Option.some.inj h), fun h => congrArg _ (Except.ok.inj h)⟩
  | error e => exact ⟨fun h => (nomatch h), fun h => (nomatch h)⟩

/-- The state a call leaves, whether it succeeds or fails. -/
def left (m : EStateM ε σ α) (s : σ) : σ :=
  match m s with
  | .ok _ s' => s'
  | .error _ s' => s'

theorem left_of_ok {m : EStateM ε σ α} {s s' : σ} {a : α} (h : m s = .ok a s') : left m s = s' := by
  simp [left, h]

theorem left_of_error {m : EStateM ε σ α} {s s' : σ} {e : ε} (h : m s = .error e s') : left m s = s' := by
  simp [left, h]

def succeeds (m : EStateM ε σ α) (s : σ) : Bool :=
  match m s with
  | .ok _ _ => true
  | .error _ _ => false

theorem ok_of_succeeds {m : EStateM ε σ Unit} {s : σ} (h : succeeds m s = true) : m s = .ok () (left m s) := by
  cases hm : m s with
  | ok a s' => rw [left_of_ok hm]
  | error e s' => simp [succeeds, hm] at h

theorem bind_ok {m : EStateM ε σ α} {f : α → EStateM ε σ β} {s s' : σ} {b : β} :
    (m >>= f) s = .ok b s' ↔ ∃ a t, m s = .ok a t ∧ f a t = .ok b s' := by
  simp only [bind, EStateM.bind]
  cases h : m s with
  | ok a t => simp [and_assoc]
  | error e t => simp

theorem run_bind_of_ok {m : EStateM ε σ α} {s t : σ} {a : α} (h : m s = .ok a t) (f : α → EStateM ε σ β) :
    (m >>= f) s = f a t := by
  simp only [bind, EStateM.bind, h]

theorem left_bind_ok {m : EStateM ε σ α} {f : α → EStateM ε σ β} {s t : σ} {a : α} (h : m s = .ok a t) :
    left (m >>= f) s = left (f a) t := by
  simp [left, bind, EStateM.bind, h]

theorem left_bind_error {m : EStateM ε σ α} {f : α → EStateM ε σ β} {s t : σ} {e : ε} (h : m s = .error e t) :
    left (m >>= f) s = t := by
  simp [left, bind, EStateM.bind, h]

theorem left_bind_pure (m : EStateM ε σ α) (g : α → β) (s : σ) : left (m >>= fun a => pure (g a)) s = left m s := by
  cases h : m s with
  | ok a t =>
      rw [left_bind_ok h, left_of_ok h]
      rfl
  | error e t => rw [left_bind_error h, left_of_error h]

theorem bind_error {m : EStateM ε σ α} {f : α → EStateM ε σ β} {s s' : σ} {e : ε} :
    (m >>= f) s = .error e s' ↔ m s = .error e s' ∨ ∃ a t, m s = .ok a t ∧ f a t = .error e s' := by
  simp only [bind, EStateM.bind]
  cases h : m s with
  | ok a t => simp [and_assoc]
  | error e t => simp

@[simp] theorem pure_ok {a b : α} {s s' : σ} : (pure a : EStateM ε σ α) s = .ok b s' ↔ a = b ∧ s = s' := by
  simp [pure, EStateM.pure]

@[simp] theorem pure_error {a : α} {s s' : σ} {e : ε} : (pure a : EStateM ε σ α) s = .error e s' ↔ False := by
  simp [pure, EStateM.pure]

@[simp] theorem throw_ok {e : ε} {b : α} {s s' : σ} : (throw e : EStateM ε σ α) s = .ok b s' ↔ False := by
  simp [throw, throwThe, MonadExceptOf.throw, EStateM.throw]

@[simp] theorem throw_error {e e' : ε} {s s' : σ} :
    (throw e : EStateM ε σ α) s = .error e' s' ↔ e = e' ∧ s = s' := by
  simp [throw, throwThe, MonadExceptOf.throw, EStateM.throw]

@[simp] theorem get_ok {a s s' : σ} : (get : EStateM ε σ σ) s = .ok a s' ↔ s = a ∧ s = s' := by
  simp [get, getThe, MonadStateOf.get, EStateM.get]

@[simp] theorem get_error {s s' : σ} {e : ε} : (get : EStateM ε σ σ) s = .error e s' ↔ False := by
  simp [get, getThe, MonadStateOf.get, EStateM.get]

@[simp] theorem set_ok {a s s' : σ} {u : PUnit} : (set a : EStateM ε σ PUnit) s = .ok u s' ↔ a = s' := by
  simp [set, MonadStateOf.set, EStateM.set]

@[simp] theorem set_error {a s s' : σ} {e : ε} : (set a : EStateM ε σ PUnit) s = .error e s' ↔ False := by
  simp [set, MonadStateOf.set, EStateM.set]

@[simp] theorem modify_ok {g : σ → σ} {s s' : σ} {u : PUnit} :
    (modify g : EStateM ε σ PUnit) s = .ok u s' ↔ g s = s' := by
  simp [modify, modifyGet, MonadStateOf.modifyGet, EStateM.modifyGet]

@[simp] theorem modify_error {g : σ → σ} {s s' : σ} {e : ε} :
    (modify g : EStateM ε σ PUnit) s = .error e s' ↔ False := by
  simp [modify, modifyGet, MonadStateOf.modifyGet, EStateM.modifyGet]

/-- Whatever comes of it, the call moves the state by steps of `r`. -/
def Within (r : σ → σ → Prop) (m : EStateM ε σ α) : Prop := ∀ s, Relation.ReflTransGen r s (left m s)

section

variable {r : σ → σ → Prop}

theorem within_of {m : EStateM ε σ α} (hok : ∀ s a s', m s = .ok a s' → Relation.ReflTransGen r s s')
    (herr : ∀ s e s', m s = .error e s' → Relation.ReflTransGen r s s') : Within r m := by
  intro s
  cases h : m s with
  | ok a s' =>
      rw [left_of_ok h]
      exact hok s a s' h
  | error e s' =>
      rw [left_of_error h]
      exact herr s e s' h

theorem Within.ok {m : EStateM ε σ α} (hm : Within r m) {s s' : σ} {a : α} (h : m s = .ok a s') :
    Relation.ReflTransGen r s s' := left_of_ok h ▸ hm s

theorem Within.error {m : EStateM ε σ α} (hm : Within r m) {s s' : σ} {e : ε} (h : m s = .error e s') :
    Relation.ReflTransGen r s s' := left_of_error h ▸ hm s

theorem Within.mono {r' : σ → σ → Prop} {m : EStateM ε σ α} (hm : Within r m) (h : ∀ s t, r s t → r' s t) :
    Within r' m := fun s => Relation.ReflTransGen.mono h _ _ (hm s)

theorem Within.pure (a : α) : Within r (pure a : EStateM ε σ α) := fun _ => .refl

theorem Within.throw (e : ε) : Within r (throw e : EStateM ε σ α) := fun _ => .refl

theorem Within.get : Within r (get : EStateM ε σ σ) := fun _ => .refl

theorem Within.bind_of {m : EStateM ε σ α} {f : α → EStateM ε σ β} (hm : Within r m)
    (hf : ∀ s a t, m s = .ok a t → Within r (f a)) : Within r (m >>= f) := by
  apply within_of
  · intro s b s' h
    obtain ⟨a, t, h1, h2⟩ := bind_ok.mp h
    exact (hm.ok h1).trans ((hf s a t h1).ok h2)
  · intro s e s' h
    rcases bind_error.mp h with h | ⟨a, t, h1, h2⟩
    · exact hm.error h
    · exact (hm.ok h1).trans ((hf s a t h1).error h2)

theorem Within.bind {m : EStateM ε σ α} {f : α → EStateM ε σ β} (hm : Within r m) (hf : ∀ a, Within r (f a)) :
    Within r (m >>= f) := hm.bind_of fun _ a _ _ => hf a

end

/-- Whatever error it ends in is one of `p`. -/
def ErrorIn (p : ε → Prop) (r : Except ε α) : Prop := ∀ e, r = .error e → p e

def FailsIn (p : ε → Prop) (m : EStateM ε σ α) : Prop := ∀ s e s', m s = .error e s' → p e

section

variable {p : ε → Prop}

theorem ErrorIn.ok (a : α) : ErrorIn p (.ok a) := fun _ h => nomatch h

theorem ErrorIn.error {e : ε} (h : p e) : ErrorIn p (.error e : Except ε α) := by
  intro e' he
  obtain rfl := Except.error.inj he
  exact h

theorem ErrorIn.bind {r : Except ε α} {f : α → Except ε β} (hr : ErrorIn p r) (hf : ∀ a, ErrorIn p (f a)) :
    ErrorIn p (r >>= f) := by
  intro e h
  cases r with
  | ok a => exact hf a e h
  | error e' =>
      obtain rfl := Except.error.inj h
      exact hr e' rfl

theorem ErrorIn.foldlM {f : β → α → Except ε β} (hf : ∀ b a, ErrorIn p (f b a)) (l : List α) (b : β) :
    ErrorIn p (l.foldlM f b) := by
  induction l generalizing b with
  | nil => exact .ok b
  | cons a l ih => exact .bind (hf b a) ih

theorem ErrorIn.forM {f : α → Except ε PUnit} (hf : ∀ a, ErrorIn p (f a)) (l : List α) : ErrorIn p (l.forM f) := by
  induction l with
  | nil => exact .ok _
  | cons a l ih => exact .bind (hf a) fun _ => ih

theorem FailsIn.pure (a : α) : FailsIn p (pure a : EStateM ε σ α) := fun _ _ _ h => (pure_error.mp h).elim

theorem FailsIn.get : FailsIn p (get : EStateM ε σ σ) := fun _ _ _ h => (get_error.mp h).elim

theorem FailsIn.set (a : σ) : FailsIn p (set a : EStateM ε σ PUnit) := fun _ _ _ h => (set_error.mp h).elim

theorem FailsIn.modify (g : σ → σ) : FailsIn p (modify g : EStateM ε σ PUnit) := fun _ _ _ h => (modify_error.mp h).elim

theorem FailsIn.throw {e : ε} (h : p e) : FailsIn p (throw e : EStateM ε σ α) := by
  intro s e' s' he
  obtain ⟨rfl, -⟩ := throw_error.mp he
  exact h

theorem FailsIn.bind {m : EStateM ε σ α} {f : α → EStateM ε σ β} (hm : FailsIn p m) (hf : ∀ a, FailsIn p (f a)) :
    FailsIn p (m >>= f) := by
  intro s e s' h
  rcases bind_error.mp h with h | ⟨a, t, -, h⟩
  · exact hm s e s' h
  · exact hf a t e s' h

end

theorem mapM_eq_ok {f : α → Except ε β} {l : List α} {r : List β} : l.mapM f = .ok r ↔ l.map f = r.map .ok := by
  induction l generalizing r with
  | nil => cases r <;> simp [pure, Except.pure]
  | cons a l ih =>
      rw [List.mapM_cons, except_bind_ok, List.map_cons]
      constructor
      · rintro ⟨b, ha, h⟩
        obtain ⟨rest, hl, h⟩ := except_bind_ok.mp h
        obtain rfl := Except.ok.inj h
        rw [List.map_cons, ha, ih.mp hl]
      · intro h
        cases r with
        | nil => exact nomatch h
        | cons b rest =>
            obtain ⟨ha, hl⟩ := List.cons.inj h
            exact ⟨b, ha, except_bind_ok.mpr ⟨rest, ih.mpr hl, rfl⟩⟩

end KivaDb.Lib.Fallible
