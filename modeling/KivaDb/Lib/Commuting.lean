import Mathlib.Data.List.Forall2
import Std.Data.ExtTreeMap
import KivaDb.Lib.Fallible

namespace KivaDb.Lib.Commuting

open Std Fallible

section Folds

variable {σ α ε : Type} (r : σ → σ → Prop) (f : σ → α → Except ε σ) (p : α → Prop)

/-- States that are alike make the same steps, to states that are alike. -/
def Respects : Prop := ∀ s t a s', p a → r s t → f s a = .ok s' → ∃ t', f t a = .ok t' ∧ r s' t'

/-- Two steps can be made in the other order. -/
def Commutes : Prop :=
  ∀ s t a b s₁ s₂, p a → p b → r s t → f s a = .ok s₁ → f s₁ b = .ok s₂ →
    ∃ t₁ t₂, f t b = .ok t₁ ∧ f t₁ a = .ok t₂ ∧ r s₂ t₂

variable {r f p}

theorem Respects.foldlM (h : Respects r f p) {l : List α} (hl : ∀ a ∈ l, p a) {s t s' : σ} (hst : r s t)
    (hs : l.foldlM f s = .ok s') : ∃ t', l.foldlM f t = .ok t' ∧ r s' t' := by
  induction l generalizing s t with
  | nil =>
      obtain rfl := Except.ok.inj hs
      exact ⟨t, rfl, hst⟩
  | cons a l ih =>
      rw [List.foldlM_cons] at hs
      obtain ⟨s₁, h1, h2⟩ := except_bind_ok.mp hs
      obtain ⟨t₁, ht, hr⟩ := h s t a s₁ (hl a List.mem_cons_self) hst h1
      obtain ⟨t', ht', hr'⟩ := ih (fun b hb => hl b (List.mem_cons_of_mem _ hb)) hr h2
      refine ⟨t', ?_, hr'⟩
      rw [List.foldlM_cons]
      exact except_bind_ok.mpr ⟨t₁, ht, ht'⟩

theorem Respects.commutes (hr : Respects r f p) (htrans : ∀ s t u, r s t → r t u → r s u)
    (h : ∀ s a b s₁ s₂, p a → p b → r s s → f s a = .ok s₁ → f s₁ b = .ok s₂ →
      ∃ t₁ t₂, f s b = .ok t₁ ∧ f t₁ a = .ok t₂ ∧ r s₂ t₂) (hsymm : ∀ s t, r s t → r t s) : Commutes r f p := by
  intro s t a b s₁ s₂ ha hb hst h1 h2
  obtain ⟨u₁, u₂, hu1, hu2, hr₂⟩ := h s a b s₁ s₂ ha hb (htrans s t s hst (hsymm s t hst)) h1 h2
  obtain ⟨t₁, ht1, hr₁⟩ := hr s t b u₁ hb hst hu1
  obtain ⟨t₂, ht2, hr₃⟩ := hr u₁ t₁ a u₂ ha hr₁ hu2
  exact ⟨t₁, t₂, ht1, ht2, htrans s₂ u₂ t₂ hr₂ hr₃⟩

/-- Steps that commute come to the same in every order. -/
theorem Commutes.foldlM_perm (hc : Commutes r f p) (hr : Respects r f p) (hsymm : ∀ s t, r s t → r t s)
    (htrans : ∀ s t u, r s t → r t u → r s u) {l l' : List α} (hp : l.Perm l') (hl : ∀ a ∈ l, p a) {s t s' : σ}
    (hst : r s t) (hs : l.foldlM f s = .ok s') : ∃ t', l'.foldlM f t = .ok t' ∧ r s' t' := by
  induction hp generalizing s t s' with
  | nil => exact hr.foldlM hl hst hs
  | cons a hp ih =>
      rw [List.foldlM_cons] at hs
      obtain ⟨s₁, h1, h2⟩ := except_bind_ok.mp hs
      obtain ⟨t₁, ht, hr₁⟩ := hr s t a s₁ (hl a List.mem_cons_self) hst h1
      obtain ⟨t', ht', hr'⟩ := ih (fun b hb => hl b (List.mem_cons_of_mem _ hb)) hr₁ h2
      refine ⟨t', ?_, hr'⟩
      rw [List.foldlM_cons]
      exact except_bind_ok.mpr ⟨t₁, ht, ht'⟩
  | swap a b l =>
      rw [List.foldlM_cons] at hs
      obtain ⟨s₁, h1, hs⟩ := except_bind_ok.mp hs
      rw [List.foldlM_cons] at hs
      obtain ⟨s₂, h2, h3⟩ := except_bind_ok.mp hs
      obtain ⟨t₁, t₂, ht1, ht2, hr₂⟩ := hc s t b a s₁ s₂ (hl b List.mem_cons_self)
        (hl a (List.mem_cons_of_mem _ List.mem_cons_self)) hst h1 h2
      obtain ⟨t', ht', hr'⟩ := hr.foldlM (fun c hc => hl c (List.mem_cons_of_mem _ (List.mem_cons_of_mem _ hc))) hr₂ h3
      refine ⟨t', ?_, hr'⟩
      rw [List.foldlM_cons]
      refine except_bind_ok.mpr ⟨t₁, ht1, ?_⟩
      rw [List.foldlM_cons]
      exact except_bind_ok.mpr ⟨t₂, ht2, ht'⟩
  | trans hp₁ hp₂ ih₁ ih₂ =>
      obtain ⟨t₁, ht1, hr₁⟩ := ih₁ hl hst hs
      have hpeer : r t t := htrans t s t (hsymm s t hst) hst
      obtain ⟨t', ht', hr'⟩ := ih₂ (fun a ha => hl a (hp₁.mem_iff.mpr ha)) hpeer ht1
      exact ⟨t', ht', htrans s' t₁ t' hr₁ hr'⟩

end Folds

section Maps

variable {α β γ δ ε : Type} {r : α → β → Prop} {q : γ → δ → Prop} {f : α → Except ε γ} {g : β → Except ε δ}

theorem mapM_forall₂ (h : ∀ a b c, r a b → f a = .ok c → ∃ d, g b = .ok d ∧ q c d) {l : List α} {l' : List β}
    (hl : List.Forall₂ r l l') {cs : List γ} (hcs : l.mapM f = .ok cs) : ∃ ds, l'.mapM g = .ok ds ∧ List.Forall₂ q cs ds := by
  induction hl generalizing cs with
  | nil =>
      obtain rfl := Except.ok.inj hcs
      exact ⟨[], rfl, .nil⟩
  | cons hab _ ih =>
      rw [List.mapM_cons] at hcs
      obtain ⟨c, hc, hcs⟩ := except_bind_ok.mp hcs
      obtain ⟨cs', hcs', heq⟩ := except_bind_ok.mp hcs
      obtain rfl := Except.ok.inj heq
      obtain ⟨d, hd, hq⟩ := h _ _ c hab hc
      obtain ⟨ds, hds, hqs⟩ := ih hcs'
      refine ⟨d :: ds, ?_, .cons hq hqs⟩
      rw [List.mapM_cons]
      exact except_bind_ok.mpr ⟨d, hd, except_bind_ok.mpr ⟨ds, hds, rfl⟩⟩

end Maps

theorem forall₂_trans {α : Type} {r : α → α → Prop} (hr : ∀ x y z, r x y → r y z → r x z) {l₁ l₂ l₃ : List α}
    (h : List.Forall₂ r l₁ l₂) (h' : List.Forall₂ r l₂ l₃) : List.Forall₂ r l₁ l₃ := by
  induction h generalizing l₃ with
  | nil => exact h'
  | cons hxy _ ih =>
      cases h' with
      | cons hyz h' => exact .cons (hr _ _ _ hxy hyz) (ih h')

section Best

variable {α : Type} {cmp : α → α → Ordering} [TransCmp cmp]

/-- The first of the least so far. -/
def least (cmp : α → α → Ordering) (best : Option α) (x : α) : Option α :=
  match best with
  | none => some x
  | some b => if cmp x b = .lt then some x else some b

omit [TransCmp cmp] in
theorem least_cases (best : Option α) (x : α) : least cmp best x = some x ∨ least cmp best x = best := by
  unfold least
  split
  · exact .inl rfl
  · split
    · exact .inl rfl
    · exact .inr rfl

theorem least_congr {b c : Option α} {x : α} (h : Option.Rel (fun y z => cmp y z = .eq) b c) :
    Option.Rel (fun y z => cmp y z = .eq) (least cmp b x) (least cmp c x) := by
  cases h with
  | none => exact .some ReflCmp.compare_self
  | some h =>
      rw [least, least, TransCmp.congr_right h]
      split
      · exact .some ReflCmp.compare_self
      · exact .some h

theorem least_comm (best : Option α) (x y : α) :
    Option.Rel (fun y z => cmp y z = .eq) (least cmp (least cmp best x) y) (least cmp (least cmp best y) x) := by
  have hpair : Option.Rel (fun y z => cmp y z = .eq) (least cmp (some x) y) (least cmp (some y) x) := by
    rw [least, least]
    rcases h : cmp x y with _ | _ | _
    · rw [if_neg (by rw [@OrientedCmp.eq_swap _ cmp, h]; decide), if_pos rfl]
      exact .some ReflCmp.compare_self
    · rw [if_neg (by rw [@OrientedCmp.eq_swap _ cmp, h]; decide), if_neg (by decide)]
      exact .some h
    · rw [if_pos (by rw [@OrientedCmp.eq_swap _ cmp, h]; rfl), if_neg (by decide)]
      exact .some ReflCmp.compare_self
  cases best with
  | none => exact hpair
  | some b =>
      by_cases hx : cmp x b = .lt
      · by_cases hy : cmp y b = .lt
        · have hbx : least cmp (some b) x = some x := if_pos hx
          have hby : least cmp (some b) y = some y := if_pos hy
          rw [hbx, hby]
          exact hpair
        · have hbx : least cmp (some b) x = some x := if_pos hx
          have hby : least cmp (some b) y = some b := if_neg hy
          have hxy : least cmp (some x) y = some x := if_neg fun h => hy (TransCmp.lt_trans h hx)
          rw [hbx, hby, hxy, hbx]
          exact .some ReflCmp.compare_self
      · by_cases hy : cmp y b = .lt
        · have hbx : least cmp (some b) x = some b := if_neg hx
          have hby : least cmp (some b) y = some y := if_pos hy
          have hyx : least cmp (some y) x = some y := if_neg fun h => hx (TransCmp.lt_trans h hy)
          rw [hbx, hby, hyx]
          exact .some ReflCmp.compare_self
        · have hbx : least cmp (some b) x = some b := if_neg hx
          have hby : least cmp (some b) y = some b := if_neg hy
          rw [hbx, hby, hbx]
          exact .some ReflCmp.compare_self

end Best

section Entries

variable {κ β : Type} {cmp : κ → κ → Ordering} [TransCmp cmp]

/-- Maps that hold alike values under the same keys. -/
def SameEntries (r : β → β → Prop) (m n : ExtTreeMap κ β cmp) : Prop := ∀ k : κ, Option.Rel r m[k]? n[k]?

variable {r : β → β → Prop}

/-- Lists in strict order, each with the entries of the other, are alike. -/
theorem forall₂_of_sorted {l l' : List (κ × β)} (hl : l.Pairwise fun a b => cmp a.1 b.1 = .lt)
    (hl' : l'.Pairwise fun a b => cmp a.1 b.1 = .lt)
    (h : ∀ a ∈ l, ∃ b ∈ l', cmp a.1 b.1 = .eq ∧ r a.2 b.2) (h' : ∀ b ∈ l', ∃ a ∈ l, cmp a.1 b.1 = .eq ∧ r a.2 b.2) :
    List.Forall₂ (fun a b => cmp a.1 b.1 = .eq ∧ r a.2 b.2) l l' := by
  induction l generalizing l' with
  | nil =>
      cases l' with
      | nil => exact .nil
      | cons b l' =>
          obtain ⟨a, ha, -⟩ := h' b List.mem_cons_self
          exact nomatch ha
  | cons a l ih =>
      cases l' with
      | nil =>
          obtain ⟨b, hb, -⟩ := h a List.mem_cons_self
          exact nomatch hb
      | cons b l' =>
          obtain ⟨hal, hl⟩ := List.pairwise_cons.mp hl
          obtain ⟨hbl, hl'⟩ := List.pairwise_cons.mp hl'
          have hself {x : κ} (hlt : cmp x x = .lt) : False := nomatch hlt.symm.trans ReflCmp.compare_self
          have hne {x y : κ} (hlt : cmp x y = .lt) (heq : cmp x y = .eq) : False := nomatch hlt.symm.trans heq
          have hab : cmp a.1 b.1 = .eq ∧ r a.2 b.2 := by
            obtain ⟨c, hc, hac⟩ := h a List.mem_cons_self
            obtain ⟨d, hd, hdb⟩ := h' b List.mem_cons_self
            rcases List.mem_cons.mp hc with rfl | hc
            · exact hac
            · rcases List.mem_cons.mp hd with rfl | hd
              · exact hdb
              · -- the firsts would each be below the other
                have hda : cmp d.1 a.1 = .lt := by
                  rw [TransCmp.congr_left hdb.1, TransCmp.congr_right hac.1]
                  exact hbl c hc
                exact (hself (TransCmp.lt_trans (hal d hd) hda)).elim
          refine .cons hab (ih hl hl' ?_ ?_)
          · intro x hx
            obtain ⟨y, hy, hxy⟩ := h x (List.mem_cons_of_mem _ hx)
            rcases List.mem_cons.mp hy with rfl | hy
            · refine (hne (hal x hx) ?_).elim
              rw [TransCmp.congr_left hab.1]
              exact OrientedCmp.eq_symm hxy.1
            · exact ⟨y, hy, hxy⟩
          · intro y hy
            obtain ⟨x, hx, hxy⟩ := h' y (List.mem_cons_of_mem _ hy)
            rcases List.mem_cons.mp hx with rfl | hx
            · refine (hne (hbl y hy) ?_).elim
              rw [← TransCmp.congr_left hab.1]
              exact hxy.1
            · exact ⟨x, hx, hxy⟩

theorem SameEntries.symm (hr : ∀ x y, r x y → r y x) {m n : ExtTreeMap κ β cmp} (h : SameEntries r m n) :
    SameEntries r n m := by
  intro k
  have hk := h k
  generalize m[k]? = x at hk
  generalize n[k]? = y at hk
  cases hk with
  | none => exact .none
  | some hxy => exact .some (hr _ _ hxy)

theorem SameEntries.mem_toList {m n : ExtTreeMap κ β cmp} (h : SameEntries r m n) {a : κ × β} (ha : a ∈ m.toList) :
    ∃ b ∈ n.toList, cmp a.1 b.1 = .eq ∧ r a.2 b.2 := by
  have hm : m[a.1]? = some a.2 :=
    ExtTreeMap.getElem?_eq_some_iff_exists_compare_eq_eq_and_mem_toList.mpr ⟨a.1, ReflCmp.compare_self, ha⟩
  have hk := h a.1
  rw [hm] at hk
  generalize hn : n[a.1]? = y at hk
  cases hk with
  | some hr =>
      obtain ⟨k, hcmp, hmem⟩ := ExtTreeMap.getElem?_eq_some_iff_exists_compare_eq_eq_and_mem_toList.mp hn
      exact ⟨_, hmem, hcmp, hr⟩

theorem SameEntries.toList (hr : ∀ x y, r x y → r y x) {m n : ExtTreeMap κ β cmp} (h : SameEntries r m n) :
    List.Forall₂ (fun a b => cmp a.1 b.1 = .eq ∧ r a.2 b.2) m.toList n.toList := by
  refine forall₂_of_sorted ExtTreeMap.ordered_keys_toList ExtTreeMap.ordered_keys_toList (fun a => h.mem_toList) ?_
  intro b hb
  obtain ⟨a, ha, hcmp, hba⟩ := (h.symm hr).mem_toList hb
  exact ⟨a, ha, OrientedCmp.eq_symm hcmp, hr _ _ hba⟩

theorem SameEntries.size (hr : ∀ x y, r x y → r y x) {m n : ExtTreeMap κ β cmp} (h : SameEntries r m n) :
    m.size = n.size := by
  rw [← ExtTreeMap.length_toList, ← ExtTreeMap.length_toList]
  exact (h.toList hr).length_eq

theorem SameEntries.trans (hr : ∀ x y z, r x y → r y z → r x z) {l m n : ExtTreeMap κ β cmp} (h : SameEntries r l m)
    (h' : SameEntries r m n) : SameEntries r l n := by
  intro k
  have hk := h k
  have hk' := h' k
  generalize l[k]? = x at hk
  generalize m[k]? = y at hk hk'
  generalize n[k]? = z at hk'
  cases hk with
  | none => exact hk'
  | some hxy =>
      cases hk' with
      | some hyz => exact .some (hr _ _ _ hxy hyz)

theorem SameEntries.getD {m n : ExtTreeMap κ β cmp} (h : SameEntries r m n) {e : β} (he : r e e) (k : κ) :
    r (m[k]?.getD e) (n[k]?.getD e) := by
  have hk := h k
  generalize m[k]? = x at hk
  generalize n[k]? = y at hk
  cases hk with
  | none => exact he
  | some hxy => exact hxy

/-- The value of a key, under the key it already has. -/
def put (m : ExtTreeMap κ β cmp) (k : κ) (v : β) : ExtTreeMap κ β cmp :=
  match m[k]? with
  | some _ => m.modify k fun _ => v
  | none => m.insert k v

theorem get_put (m : ExtTreeMap κ β cmp) (k a : κ) (v : β) :
    (put m k v)[a]? = if cmp k a = .eq then some v else m[a]? := by
  unfold put
  split
  · next hk =>
      rw [ExtTreeMap.getElem?_modify]
      rw [hk, Option.map_some]
  · exact ExtTreeMap.getElem?_insert

theorem size_put (m : ExtTreeMap κ β cmp) (k : κ) (v : β) :
    (put m k v).size = if m[k]? = none then m.size + 1 else m.size := by
  unfold put
  split
  · next hk => rw [ExtTreeMap.size_modify, hk, if_neg (by simp)]
  · next hk =>
      rw [ExtTreeMap.size_insert, ExtTreeMap.contains_eq_isSome_getElem?, hk, if_neg (by simp), if_pos rfl]

variable {ε α : Type} {max : Nat} {full : ε} {e : β} {g : α → β → Except ε β} {key : α → κ} {p : α → Prop}

/-- Folds into the value of a key, from `e` for a new one, of which there may be `max`. -/
def upsert (max : Nat) (full : ε) (e : β) (f : β → Except ε β) (m : ExtTreeMap κ β cmp) (k : κ) :
    Except ε (ExtTreeMap κ β cmp) :=
  match m[k]? with
  | some b => (f b).map (put m k)
  | none => if max ≤ m.size then .error full else (f e).map (put m k)

theorem upsert_ok {f : β → Except ε β} {m m' : ExtTreeMap κ β cmp} {k : κ} : upsert max full e f m k = .ok m' ↔
    ∃ b, (m[k]? = none → m.size < max) ∧ f (m[k]?.getD e) = .ok b ∧ m' = put m k b := by
  have hmap {x : Except ε β} : x.map (put m k) = .ok m' ↔ ∃ b, x = .ok b ∧ m' = put m k b := by
    cases x with
    | ok b => exact ⟨fun h => ⟨b, rfl, (Except.ok.inj h).symm⟩, fun ⟨c, hc, h⟩ => by rw [h, Except.ok.inj hc]; rfl⟩
    | error _ => exact ⟨fun h => (nomatch h), fun ⟨_, hc, _⟩ => (nomatch hc)⟩
  unfold upsert
  rcases m[k]? with _ | b
  · by_cases hfull : max ≤ m.size
    · simp only [if_pos hfull]
      exact ⟨fun h => (nomatch h), fun ⟨_, h, _⟩ => absurd (h trivial) (Nat.not_lt.mpr hfull)⟩
    · simp only [if_neg hfull, hmap]
      exact exists_congr fun c => ⟨fun h => ⟨fun _ => Nat.not_le.mp hfull, h⟩, fun h => h.2⟩
  · simp only [hmap]
    exact exists_congr fun c => ⟨fun h => ⟨fun h => (nomatch h), h⟩, fun h => h.2⟩

theorem SameEntries.put {m n : ExtTreeMap κ β cmp} (h : SameEntries r m n) {a b : κ} (hab : cmp a b = .eq) {v w : β}
    (hr : r v w) : SameEntries r (put m a v) (put n b w) := by
  intro k
  rw [get_put, get_put, TransCmp.congr_left hab]
  split
  · exact .some hr
  · exact h k

theorem upsert_respects (hsymm : ∀ x y, r x y → r y x) (he : r e e) (hg : Respects r (fun b a => g a b) p) :
    Respects (SameEntries r) (fun (m : ExtTreeMap κ β cmp) a => upsert max full e (g a) m (key a)) p := by
  intro m n a m' ha hmn hm
  obtain ⟨b, hsize, hb, rfl⟩ := upsert_ok.mp hm
  obtain ⟨c, hc, hbc⟩ := hg _ _ a b ha (hmn.getD he (key a)) hb
  refine ⟨_, upsert_ok.mpr ⟨c, fun hnone => ?_, hc, rfl⟩, hmn.put ReflCmp.compare_self hbc⟩
  rw [← hmn.size hsymm]
  apply hsize
  have hk := hmn (key a)
  rw [hnone] at hk
  generalize m[key a]? = x at hk
  cases hk
  rfl

theorem upsert_commutes (hsymm : ∀ x y, r x y → r y x) (htrans : ∀ x y z, r x y → r y z → r x z) (he : r e e)
    (hg : Respects r (fun b a => g a b) p) (hc : Commutes r (fun b a => g a b) p) :
    Commutes (SameEntries r) (fun (m : ExtTreeMap κ β cmp) a => upsert max full e (g a) m (key a)) p := by
  refine (upsert_respects hsymm he hg).commutes (fun _ _ _ => SameEntries.trans htrans) ?_
    fun _ _ => SameEntries.symm hsymm
  intro m a b m₁ m₂ ha hb hmm h1 h2
  obtain ⟨v, hsize, hv, rfl⟩ := upsert_ok.mp h1
  obtain ⟨w, hsize', hw, rfl⟩ := upsert_ok.mp h2
  rw [size_put] at hsize'
  rw [get_put] at hw hsize'
  have hself {c : α} (hc : p c) {x y : β} (hx : r x x) (hxy : g c x = .ok y) : r y y := by
    obtain ⟨z, hz, hyz⟩ := hg x x c y hc hx hxy
    rwa [Except.ok.inj (hz.symm.trans hxy)] at hyz
  have hva := hself ha (hmm.getD he (key a)) hv
  by_cases hkey : cmp (key a) (key b) = .eq
  · rw [if_pos hkey, Option.getD_some] at hw
    obtain ⟨c₁, c₂, hc1, hc2, hr⟩ := hc _ _ a b v w ha hb (hmm.getD he (key a)) hv hw
    have hba := OrientedCmp.eq_symm hkey
    rw [ExtTreeMap.getElem?_congr hkey] at hc1 hsize
    refine ⟨_, _, upsert_ok.mpr ⟨c₁, hsize, hc1, rfl⟩, upsert_ok.mpr ⟨c₂, ?_, ?_, rfl⟩, ?_⟩
    · rw [get_put, if_pos hba]
      exact fun h => (nomatch h)
    · rw [get_put, if_pos hba]
      exact hc2
    · intro k
      rw [get_put, get_put, get_put, get_put, TransCmp.congr_left hkey]
      split
      · exact .some hr
      · exact hmm k
  · have hba : ¬ cmp (key b) (key a) = .eq := fun h => hkey (OrientedCmp.eq_symm h)
    rw [if_neg hkey] at hw hsize'
    have hwb := hself hb (hmm.getD he (key b)) hw
    refine ⟨_, _, upsert_ok.mpr ⟨w, fun h => ?_, hw, rfl⟩, upsert_ok.mpr ⟨v, fun h => ?_, ?_, rfl⟩, ?_⟩
    · have := hsize' h
      split at this
      · omega
      · exact this
    · rw [get_put, if_neg hba] at h
      rw [size_put]
      rw [if_pos h] at hsize'
      split
      · next hnone => exact hsize' hnone
      · exact hsize h
    · rw [get_put, if_neg hba]
      exact hv
    · intro k
      rw [get_put, get_put, get_put, get_put]
      by_cases ha' : cmp (key a) k = .eq
      · have hb' : ¬ cmp (key b) k = .eq := fun h => hba (TransCmp.eq_trans h (OrientedCmp.eq_symm ha'))
        rw [if_neg hb', if_pos ha', if_pos ha']
        exact .some hva
      · rw [if_neg ha', if_neg ha']
        split
        · exact .some hwb
        · exact hmm k

end Entries

end KivaDb.Lib.Commuting
