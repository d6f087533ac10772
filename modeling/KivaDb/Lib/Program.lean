import Mathlib.Logic.Basic

namespace KivaDb.Lib.Program

/-- A program that asks its surroundings for one thing after the other; what it
asks for next depends on the answers. -/
inductive Prog (Op : Type) (Ans : Op → Type) (ε α : Type) : Type
  | ret (a : α)
  | fail (e : ε)
  | call (op : Op) (k : Ans op → Prog Op Ans ε α)

namespace Prog

variable {Op : Type} {Ans : Op → Type} {ε α β σ τ : Type}

def bind : Prog Op Ans ε α → (α → Prog Op Ans ε β) → Prog Op Ans ε β
  | ret a, f => f a
  | fail e, _ => fail e
  | call op k, f => call op fun a => (k a).bind f

instance : Monad (Prog Op Ans ε) where
  pure := ret
  bind := bind

def ask (op : Op) : Prog Op Ans ε (Ans op) := call op ret

def ofExcept : Except ε α → Prog Op Ans ε α
  | .ok a => ret a
  | .error e => fail e

/-- The outcome of the program and the state it leaves, when `h` answers. -/
def run (h : (op : Op) → σ → Ans op × σ) : Prog Op Ans ε α → σ → Except ε α × σ
  | ret a, s => (.ok a, s)
  | fail e, s => (.error e, s)
  | call op k, s => run h (k (h op s).1) (h op s).2

/-- Everything the program asks for in a run meets `P` at that moment. -/
def Along (h : (op : Op) → σ → Ans op × σ) (P : σ → Op → Prop) : Prog Op Ans ε α → σ → Prop
  | ret _, _ => True
  | fail _, _ => True
  | call op k, s => P s op ∧ Along h P (k (h op s).1) (h op s).2

/-- All the program ever asks for is among `P`, whatever the answers are. -/
def Asks (P : Op → Prop) : Prog Op Ans ε α → Prop
  | ret _ => True
  | fail _ => True
  | call op k => P op ∧ ∀ a, (k a).Asks P

/-- What the program asks for in a run, with the answers. -/
def exchanges (h : (op : Op) → σ → Ans op × σ) : Prog Op Ans ε α → σ → List ((op : Op) × Ans op)
  | ret _, _ => []
  | fail _, _ => []
  | call op k, s => ⟨op, (h op s).1⟩ :: exchanges h (k (h op s).1) (h op s).2

variable {h : (op : Op) → σ → Ans op × σ} {g : (op : Op) → τ → Ans op × τ}

@[simp] theorem run_pure (a : α) (s : σ) : run h (pure a : Prog Op Ans ε α) s = (.ok a, s) := rfl

@[simp] theorem run_fail (e : ε) (s : σ) : run h (fail e : Prog Op Ans ε α) s = (.error e, s) := rfl

@[simp] theorem run_ask (op : Op) (s : σ) : run h (ask op : Prog Op Ans ε _) s = (.ok (h op s).1, (h op s).2) := rfl

@[simp] theorem run_ofExcept (r : Except ε α) (s : σ) : run h (ofExcept r : Prog Op Ans ε α) s = (r, s) := by
  cases r <;> rfl

@[simp] theorem pure_bind (a : α) (f : α → Prog Op Ans ε β) : (pure a : Prog Op Ans ε α) >>= f = f a := rfl

@[simp] theorem fail_bind (e : ε) (f : α → Prog Op Ans ε β) : (fail e : Prog Op Ans ε α) >>= f = fail e := rfl

@[simp] theorem ofExcept_ok_bind (a : α) (f : α → Prog Op Ans ε β) : ofExcept (.ok a) >>= f = f a := rfl

@[simp] theorem ofExcept_error_bind (e : ε) (f : α → Prog Op Ans ε β) : ofExcept (.error e) >>= f = fail e := rfl

theorem run_bind (p : Prog Op Ans ε α) (f : α → Prog Op Ans ε β) (s : σ) :
    run h (p >>= f) s = match run h p s with
      | (.ok a, t) => run h (f a) t
      | (.error e, t) => (.error e, t) := by
  induction p generalizing s with
  | ret a => rfl
  | fail e => rfl
  | call op k ih => exact ih (h op s).1 (h op s).2

theorem run_bind_ok {p : Prog Op Ans ε α} {f : α → Prog Op Ans ε β} {s t : σ} {a : α} (hp : run h p s = (.ok a, t)) :
    run h (p >>= f) s = run h (f a) t := by
  rw [run_bind, hp]

theorem run_bind_error {p : Prog Op Ans ε α} {f : α → Prog Op Ans ε β} {s t : σ} {e : ε}
    (hp : run h p s = (.error e, t)) : run h (p >>= f) s = (.error e, t) := by
  rw [run_bind, hp]

/-- What every call that meets `P` keeps holds after the whole program. -/
theorem run_keeps {P : σ → Op → Prop} {I : σ → Prop} (keeps : ∀ op s, I s → P s op → I (h op s).2)
    (p : Prog Op Ans ε α) {s : σ} (hs : I s) (hp : Along h P p s) : I (run h p s).2 := by
  induction p generalizing s with
  | ret a => exact hs
  | fail e => exact hs
  | call op k ih => exact ih _ (keeps op s hs hp.1) hp.2

/-- What each exchange does to the state adds up over the whole program. -/
theorem run_exchanges {P : Op → Prop} {I : σ → Prop} {R : List ((op : Op) × Ans op) → σ → σ → Prop}
    (nil : ∀ s, R [] s s)
    (cons : ∀ op s {xs t}, I s → P op → R xs (h op s).2 t → R (⟨op, (h op s).1⟩ :: xs) s t)
    (keeps : ∀ op s, I s → P op → I (h op s).2)
    (p : Prog Op Ans ε α) {s : σ} (hs : I s) (hp : p.Asks P) : R (exchanges h p s) s (run h p s).2 := by
  induction p generalizing s with
  | ret a => exact nil s
  | fail e => exact nil s
  | call op k ih => exact cons op s hs hp.1 (ih _ (keeps op s hs hp.1) (hp.2 _))

theorem Asks.bind {P : Op → Prop} {p : Prog Op Ans ε α} {f : α → Prog Op Ans ε β} (hp : p.Asks P)
    (hf : ∀ a, (f a).Asks P) : (p >>= f).Asks P := by
  induction p with
  | ret a => exact hf a
  | fail e => trivial
  | call op k ih => exact ⟨hp.1, fun a => ih a (hp.2 a)⟩

theorem Asks.mono {P Q : Op → Prop} (hPQ : ∀ op, P op → Q op) {p : Prog Op Ans ε α} (hp : p.Asks P) : p.Asks Q := by
  induction p with
  | ret a => trivial
  | fail e => trivial
  | call op k ih => exact ⟨hPQ op hp.1, fun a => ih a (hp.2 a)⟩

theorem Asks.of_mem {P : Op → Prop} {p : Prog Op Ans ε α} (hp : p.Asks P) {s : σ} {x : (op : Op) × Ans op}
    (hx : x ∈ exchanges h p s) : P x.1 := by
  induction p generalizing s with
  | ret a => exact absurd hx List.not_mem_nil
  | fail e => exact absurd hx List.not_mem_nil
  | call op k ih =>
      obtain rfl | hx := List.mem_cons.mp hx
      · exact hp.1
      · exact ih _ (hp.2 _) hx

/-- Two surroundings that answer alike in related states: the outcomes are the
same and the states stay related. -/
theorem run_alike {P : σ → Op → Prop} {R : σ → τ → Prop}
    (alike : ∀ op s t, R s t → P s op → (h op s).1 = (g op t).1 ∧ R (h op s).2 (g op t).2)
    (p : Prog Op Ans ε α) {s : σ} {t : τ} (hst : R s t) (hp : Along h P p s) :
    (run h p s).1 = (run g p t).1 ∧ R (run h p s).2 (run g p t).2 := by
  induction p generalizing s t with
  | ret a => exact ⟨rfl, hst⟩
  | fail e => exact ⟨rfl, hst⟩
  | call op k ih =>
      obtain ⟨hans, hnext⟩ := alike op s t hst hp.1
      rw [run, run, ← hans]
      exact ih _ hnext hp.2

theorem along_true (p : Prog Op Ans ε α) (s : σ) : Along h (fun _ _ => True) p s := by
  induction p generalizing s with
  | ret a => trivial
  | fail e => trivial
  | call op k ih => exact ⟨trivial, ih _ _⟩

end Prog

end KivaDb.Lib.Program

namespace KivaDb.Lib.Program.Prog

/-- What was asked for so far, with the answers. -/
abbrev History (Op : Type) (Ans : Op → Type) := List ((op : Op) × Ans op)

variable {Op : Type} {Ans : Op → Type} {ε α β σ : Type}

/-- Whatever the answers are, all the program asks for meets `P`, given the answers before, and
what it returns meets `Q`. -/
def Meets (P : History Op Ans → Op → Prop) (Q : History Op Ans → α → Prop) : History Op Ans → Prog Op Ans ε α → Prop
  | h, ret a => Q h a
  | _, fail _ => True
  | h, call op k => P h op ∧ ∀ a, Meets P Q (h ++ [⟨op, a⟩]) (k a)

variable {P : History Op Ans → Op → Prop} {Q : History Op Ans → α → Prop} {R : History Op Ans → β → Prop}
  {h : History Op Ans}

@[simp] theorem meets_pure (a : α) : Meets P Q h (pure a : Prog Op Ans ε α) ↔ Q h a := Iff.rfl

@[simp] theorem meets_fail (e : ε) : Meets P Q h (fail e : Prog Op Ans ε α) := trivial

theorem meets_ask {Q : (op : Op) → History Op Ans → Ans op → Prop} {op : Op} :
    Meets P (Q op) h (ask op : Prog Op Ans ε _) ↔ P h op ∧ ∀ a, Q op (h ++ [⟨op, a⟩]) a := Iff.rfl

theorem meets_bind {p : Prog Op Ans ε α} {f : α → Prog Op Ans ε β} :
    Meets P R h (p >>= f) ↔ Meets P (fun h a => Meets P R h (f a)) h p := by
  induction p generalizing h with
  | ret a => exact Iff.rfl
  | fail e => exact Iff.rfl
  | call op k ih =>
      constructor
      · exact fun hp => ⟨hp.1, fun a => (ih a).mp (hp.2 a)⟩
      · exact fun hp => ⟨hp.1, fun a => (ih a).mpr (hp.2 a)⟩

theorem meets_ofExcept {r : Except ε α} : Meets P Q h (ofExcept r) ↔ ∀ a, r = .ok a → Q h a := by
  cases r with
  | ok a => exact ⟨fun hq b hb => Except.ok.inj hb ▸ hq, fun hq => hq a rfl⟩
  | error e => exact ⟨fun _ b hb => (nomatch hb), fun _ => trivial⟩

theorem meets_of_forall (hP : ∀ h op, P h op) (hQ : ∀ h a, Q h a) (p : Prog Op Ans ε α) : Meets P Q h p := by
  induction p generalizing h with
  | ret a => exact hQ h a
  | fail e => trivial
  | call op k ih => exact ⟨hP h op, fun a => ih a⟩

theorem Meets.mono {Q' : History Op Ans → α → Prop} {p : Prog Op Ans ε α} (hp : Meets P Q h p)
    (hQ : ∀ h' a, h <+: h' → Q h' a → Q' h' a) : Meets P Q' h p := by
  induction p generalizing h with
  | ret a => exact hQ h a List.prefix_rfl hp
  | fail e => trivial
  | call op k ih =>
      exact ⟨hp.1, fun a => ih a (hp.2 a) fun h' b hpre => hQ h' b ((List.prefix_append h _).trans hpre)⟩

/-- All that is asked for in a run meets `P`, given the answers before it. -/
theorem Meets.asked {hd : (op : Op) → σ → Ans op × σ} {p : Prog Op Ans ε α} (hp : Meets P Q h p) {s : σ}
    {before after : History Op Ans} {x : (op : Op) × Ans op} (hx : exchanges hd p s = before ++ x :: after) :
    P (h ++ before) x.1 := by
  induction p generalizing h s before with
  | ret a => exact absurd hx (by simp [exchanges])
  | fail e => exact absurd hx (by simp [exchanges])
  | call op k ih =>
      cases before with
      | nil =>
          rw [List.append_nil, ← (List.cons.inj hx).1]
          exact hp.1
      | cons y before =>
          obtain ⟨rfl, hrest⟩ := List.cons.inj hx
          have hnext := ih _ (hp.2 _) hrest
          rwa [List.append_assoc] at hnext

/-- What a run returns meets `Q`, given all the answers. -/
theorem Meets.returned {hd : (op : Op) → σ → Ans op × σ} {p : Prog Op Ans ε α} (hp : Meets P Q h p) {s : σ} {a : α}
    (ha : (run hd p s).1 = .ok a) : Q (h ++ exchanges hd p s) a := by
  induction p generalizing h s with
  | ret b =>
      rw [exchanges, List.append_nil, ← Except.ok.inj ha]
      exact hp
  | fail e => exact nomatch ha
  | call op k ih =>
      have hnext := ih _ (hp.2 _) ha
      rwa [List.append_assoc] at hnext

end KivaDb.Lib.Program.Prog
