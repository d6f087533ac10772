import KivaDb.Query.Aggregate
import KivaDb.Decimals

namespace KivaDb

open Std Arithmetic Lib.Fallible Lib.Commuting

section

variable [Chrono]

/-- Nothing that a sum would round or refuse in one order alone: a decimal is one that an
integer beyond the signed range is read as. -/
def Leaf.IsInteger (v : Leaf) : Prop :=
  match v.decimal? with
  | some d => d.scale = 0 ∧ 0 ≤ d.mantissa
  | none => ∀ x, v.toJson = .number x → (Sum.whole x).isSome

namespace Sum

omit [Chrono]

theorem push_comm {x y : Number} (hx : (whole x).isSome) (hy : (whole y).isSome) (s : Sum) :
    (s.push x).push y = (s.push y).push x := by
  obtain ⟨i, hi⟩ := Option.isSome_iff_exists.mp hx
  obtain ⟨j, hj⟩ := Option.isSome_iff_exists.mp hy
  simp only [push, hi, hj, Int.add_assoc, Int.add_comm i j]

end Sum

section

variable [Arithmetic]

/-- What `rust_decimal` says of sums without a fraction: exact, or refused. -/
def WholeSums : Prop :=
  ∀ x y : Decimal, x.scale = 0 → y.scale = 0 → checkedAdd x y =
    if h : (x.mantissa + y.mantissa).natAbs < 2 ^ 96 then some ⟨x.mantissa + y.mantissa, 0, h, Decimal.zero_scale⟩ else none

/-- What a document brings to an aggregate. -/
structure Share where
  counted : Nat
  decimal : Option Decimal
  number : Option Number
  amount : Option Amount

namespace Share

def Whole (s : Share) : Prop :=
  (∀ d, s.decimal = some d → d.scale = 0 ∧ 0 ≤ d.mantissa) ∧ ∀ x, s.number = some x → (Sum.whole x).isSome

end Share

namespace Acc

def addDecimal (total : Option Decimal) : Option Decimal → Option (Option Decimal)
  | none => some total
  | some d => (checkedAdd (total.getD .zero) d).map some

def extreme (cmp : Amount → Amount → Ordering) (best : Option Amount) : Option Amount → Option Amount
  | none => best
  | some v => least cmp best v

def add (cmp : Amount → Amount → Ordering) (s : Share) (acc : Acc) : Option Acc :=
  (addDecimal acc.decimals s.decimal).map fun total =>
    ⟨acc.n + s.counted, s.number.elim acc.sum acc.sum.push, total, extreme cmp acc.best s.amount⟩

def WholeTotal (total : Option Decimal) : Prop := ∀ d, total = some d → d.scale = 0 ∧ 0 ≤ d.mantissa

omit [Chrono] [Arithmetic] in
theorem WholeTotal.getD {total : Option Decimal} (h : WholeTotal total) :
    (total.getD .zero).scale = 0 ∧ 0 ≤ (total.getD .zero).mantissa := by
  cases total with
  | none => exact ⟨rfl, le_rfl⟩
  | some d => exact h d rfl

omit [Chrono] in
theorem addDecimal_some (hs : WholeSums) {total : Option Decimal} {d : Decimal} (ht : WholeTotal total)
    (hd : d.scale = 0 ∧ 0 ≤ d.mantissa) {total' : Option Decimal} : addDecimal total (some d) = some total' ↔
      ∃ h : ((total.getD .zero).mantissa + d.mantissa).natAbs < 2 ^ 96,
        total' = some ⟨(total.getD .zero).mantissa + d.mantissa, 0, h, by decide⟩ := by
  rw [addDecimal, hs _ _ ht.getD.1 hd.1]
  constructor
  · intro h
    split at h
    · next hlt => exact ⟨hlt, (Option.some.inj h).symm⟩
    · cases h
  · rintro ⟨h, rfl⟩
    rw [dif_pos h]
    rfl

omit [Chrono] in
theorem addDecimal_whole (hs : WholeSums) {total total' : Option Decimal} {o : Option Decimal} (ht : WholeTotal total)
    (ho : WholeTotal o) (h : addDecimal total o = some total') : WholeTotal total' := by
  cases o with
  | none =>
      obtain rfl := Option.some.inj h
      exact ht
  | some d =>
      obtain ⟨hlt, rfl⟩ := (addDecimal_some hs ht (ho d rfl)).mp h
      intro e he
      obtain rfl := Option.some.inj he
      exact ⟨rfl, add_nonneg ht.getD.2 (ho d rfl).2⟩

omit [Chrono] in
/-- Decimals that are not negative are refused in both orders or in neither. -/
theorem addDecimal_comm (hs : WholeSums) {total t₁ t₂ : Option Decimal} {o o' : Option Decimal} (ht : WholeTotal total)
    (ho : WholeTotal o) (ho' : WholeTotal o') (h1 : addDecimal total o = some t₁) (h2 : addDecimal t₁ o' = some t₂) :
    ∃ u, addDecimal total o' = some u ∧ addDecimal u o = some t₂ := by
  have ht₁ := addDecimal_whole hs ht ho h1
  cases o with
  | none =>
      obtain rfl := Option.some.inj h1
      exact ⟨t₂, h2, rfl⟩
  | some d =>
      cases o' with
      | none =>
          obtain rfl := Option.some.inj h2
          exact ⟨total, rfl, h1⟩
      | some e =>
          have hd := ho d rfl
          have he := ho' e rfl
          have htotal := ht.getD
          obtain ⟨hlt, rfl⟩ := (addDecimal_some hs ht hd).mp h1
          obtain ⟨hlt', rfl⟩ := (addDecimal_some hs ht₁ he).mp h2
          simp only [Option.getD_some] at hlt' ⊢
          have hother : ((total.getD .zero).mantissa + e.mantissa).natAbs < 2 ^ 96 := by omega
          have hu := (addDecimal_some hs ht he).mpr ⟨hother, rfl⟩
          refine ⟨_, hu, (addDecimal_some hs (addDecimal_whole hs ht ho' hu) hd).mpr ⟨?_, ?_⟩⟩
          · show ((total.getD .zero).mantissa + e.mantissa + d.mantissa).natAbs < 2 ^ 96
            omega
          · simp only [Option.getD_some, Option.some.injEq, Decimal.mk.injEq, and_true]
            omega

/-- Amounts of fields of documents. -/
def OfLeaf (o : Option Amount) : Prop := ∀ x, o = some x → ∃ v : Leaf, x = v.amount

/-- What was found of the same documents. -/
structure Same (a b : Acc) : Prop where
  n : a.n = b.n
  sum : a.sum = b.sum
  decimals : a.decimals = b.decimals
  whole : WholeTotal a.decimals
  best : Option.Rel (fun x y => Query.orderValues x y = .eq) a.best b.best
  left : OfLeaf a.best
  right : OfLeaf b.best

omit [Chrono] [Arithmetic] in
theorem rel_symm {cmp : Amount → Amount → Ordering} [TransCmp cmp] {o o' : Option Amount}
    (h : Option.Rel (fun x y => cmp x y = .eq) o o') : Option.Rel (fun x y => cmp x y = .eq) o' o := by
  cases h with
  | none => exact .none
  | some h => exact .some (OrientedCmp.eq_symm h)

omit [Chrono] [Arithmetic] in
theorem rel_trans {cmp : Amount → Amount → Ordering} [TransCmp cmp] {o₁ o₂ o₃ : Option Amount}
    (h : Option.Rel (fun x y => cmp x y = .eq) o₁ o₂) (h' : Option.Rel (fun x y => cmp x y = .eq) o₂ o₃) :
    Option.Rel (fun x y => cmp x y = .eq) o₁ o₃ := by
  cases h with
  | none => exact h'
  | some h =>
      cases h' with
      | some h' => exact .some (TransCmp.eq_trans h h')

theorem Same.symm {a b : Acc} (h : Same a b) : Same b a where
  n := h.n.symm
  sum := h.sum.symm
  decimals := h.decimals.symm
  whole := h.decimals ▸ h.whole
  best := rel_symm h.best
  left := h.right
  right := h.left

theorem Same.trans {a b c : Acc} (h : Same a b) (h' : Same b c) : Same a c where
  n := h.n.trans h'.n
  sum := h.sum.trans h'.sum
  decimals := h.decimals.trans h'.decimals
  whole := h.whole
  best := rel_trans h.best h'.best
  left := h.left
  right := h'.right

end Acc

namespace Agg

/-- The order that the best value is the first of. -/
def cmp (agg : Agg) : Amount → Amount → Ordering :=
  if agg.func = .min then Query.orderValues else fun x y => Query.orderValues y x

instance (agg : Agg) : TransCmp agg.cmp := by
  unfold cmp
  split
  · infer_instance
  · exact TransCmp.opposite

omit [Chrono] in
theorem cmp_eq_iff (agg : Agg) (x y : Amount) : agg.cmp x y = .eq ↔ Query.orderValues x y = .eq := by
  unfold cmp
  split
  · exact Iff.rfl
  · exact ⟨OrientedCmp.eq_symm, OrientedCmp.eq_symm⟩

omit [Chrono] in
/-- The better of a value and of what was found. -/
theorem least_cmp (agg : Agg) (best : Option Amount) (v : Amount) :
    (if agg.better best v then some v else best) = least agg.cmp best v := by
  cases best with
  | none => rfl
  | some b =>
      rw [better, Option.all_some, least, cmp]
      by_cases h : agg.func = .min
      · simp only [if_pos h, decide_eq_true_eq]
      · have hswap : Query.orderValues v b = .gt ↔ Query.orderValues b v = .lt := OrientedCmp.gt_iff_lt
        simp only [if_neg h, decide_eq_true_eq, hswap]

/-- What a value brings. -/
def shareOf (agg : Agg) (v : Leaf) : Share :=
  match agg.func with
  | .count => ⟨1, none, none, none⟩
  | .sum | .avg =>
      match v.decimal? with
      | some d => ⟨1, some d, none, none⟩
      | none =>
          match v.toJson with
          | .number x => ⟨1, none, some x, none⟩
          | _ => ⟨0, none, none, none⟩
  | .min | .max =>
      if v.compared then ⟨1, none, none, some v.amount⟩ else ⟨0, none, none, none⟩

def share (agg : Agg) (doc : DocView) : Share :=
  if agg.field.isNone then ⟨1, none, none, none⟩
  else ((doc.get agg.path).map agg.shareOf).getD ⟨0, none, none, none⟩

theorem foldLeaf_ok {agg : Agg} {v : Leaf} {acc acc' : Acc} :
    agg.foldLeaf v acc = .ok acc' ↔ Acc.add agg.cmp (agg.shareOf v) acc = some acc' := by
  have hnone {s : Sum} {t : Option Decimal} {n : Nat} {b : Option Amount} :
      (.ok ⟨n, s, t, b⟩ : Except String Acc) = .ok acc' ↔ some (⟨n, s, t, b⟩ : Acc) = some acc' := by
    rw [Except.ok.injEq, Option.some.injEq]
  unfold foldLeaf shareOf
  rcases agg.func
  case count => exact hnone
  case min =>
    rw [least_cmp]
    rcases v.compared
    · exact hnone
    · exact hnone
  case max =>
    rw [least_cmp]
    rcases v.compared
    · exact hnone
    · exact hnone
  all_goals
    rcases v.decimal? with _ | d
    · rcases v.toJson with _ | _ | _ | _ | _ | _ <;> exact hnone
    · dsimp only [Acc.add, Acc.addDecimal]
      rcases checkedAdd (acc.decimals.getD .zero) d with _ | t
      · exact ⟨fun h => (nomatch h), fun h => (nomatch h)⟩
      · exact hnone

/-- Folding a document in adds its share. -/
theorem fold_ok {agg : Agg} {doc : DocView} {acc acc' : Acc} :
    agg.fold doc acc = .ok acc' ↔ Acc.add agg.cmp (agg.share doc) acc = some acc' := by
  unfold fold share
  split
  · simp [Acc.add, Acc.addDecimal, Acc.extreme]
  · rcases doc.get agg.path with _ | v
    · simp [Acc.add, Acc.addDecimal, Acc.extreme]
    · exact foldLeaf_ok

/-- What the document has in the field that is summed is an integer. -/
def Sums (agg : Agg) (doc : DocView) : Prop :=
  agg.func = .sum ∨ agg.func = .avg → ∀ v, doc.get agg.path = some v → v.IsInteger

omit [Arithmetic] in
theorem shareOf_whole {agg : Agg} {v : Leaf} (h : agg.func = .sum ∨ agg.func = .avg → v.IsInteger) :
    (agg.shareOf v).Whole := by
  have hnone {n : Nat} {o : Option Amount} : (⟨n, none, none, o⟩ : Share).Whole :=
    ⟨fun _ h => (nomatch h), fun _ h => (nomatch h)⟩
  unfold shareOf
  rcases hf : agg.func
  case count => exact hnone
  case min =>
    rcases v.compared
    · exact hnone
    · exact hnone
  case max =>
    rcases v.compared
    · exact hnone
    · exact hnone
  all_goals
    have hv := h (by simp [hf])
    unfold Leaf.IsInteger at hv
    rcases hd : v.decimal? with _ | d
    · rw [hd] at hv
      rcases hj : v.toJson with _ | _ | x | _ | _ | _
      case number =>
        refine ⟨fun _ h => (nomatch h), fun y hy => ?_⟩
        obtain rfl := Option.some.inj hy
        exact hv x hj
      all_goals exact hnone
    · rw [hd] at hv
      refine ⟨fun e he => ?_, fun _ h => (nomatch h)⟩
      obtain rfl := Option.some.inj he
      exact hv

omit [Arithmetic] in
theorem share_whole {agg : Agg} {doc : DocView} (h : agg.Sums doc) : (agg.share doc).Whole := by
  have hnone {n : Nat} : (⟨n, none, none, none⟩ : Share).Whole := ⟨fun _ h => (nomatch h), fun _ h => (nomatch h)⟩
  unfold share
  split
  · exact hnone
  · rcases hv : doc.get agg.path with _ | v
    · exact hnone
    · exact shareOf_whole fun hf => h hf v hv

omit [Arithmetic] in
theorem share_amount (agg : Agg) (doc : DocView) : Acc.OfLeaf (agg.share doc).amount := by
  have hnone {s : Share} (h : s.amount = none) : Acc.OfLeaf s.amount := fun _ hx => nomatch h.symm.trans hx
  unfold share
  split
  · exact hnone rfl
  · rcases doc.get agg.path with _ | v
    · exact hnone rfl
    · show Acc.OfLeaf (agg.shareOf v).amount
      unfold shareOf
      rcases agg.func
      case count => exact hnone rfl
      case min =>
        rcases v.compared
        · exact hnone rfl
        · exact fun x hx => ⟨v, (Option.some.inj hx).symm⟩
      case max =>
        rcases v.compared
        · exact hnone rfl
        · exact fun x hx => ⟨v, (Option.some.inj hx).symm⟩
      all_goals
        rcases v.decimal? with _ | d
        · rcases v.toJson <;> exact hnone rfl
        · exact hnone rfl

end Agg

namespace Acc

variable {agg : Agg} {s s' : Share}

omit [Chrono] in
theorem extreme_rel (agg : Agg) {b c : Option Amount} (o : Option Amount)
    (h : Option.Rel (fun x y => Query.orderValues x y = .eq) b c) :
    Option.Rel (fun x y => Query.orderValues x y = .eq) (extreme agg.cmp b o) (extreme agg.cmp c o) := by
  cases o with
  | none => exact h
  | some v =>
      simp only [← agg.cmp_eq_iff] at h ⊢
      exact least_congr h

omit [Arithmetic] in
theorem extreme_ofLeaf {cmp : Amount → Amount → Ordering} {b o : Option Amount} (hb : OfLeaf b) (ho : OfLeaf o) :
    OfLeaf (extreme cmp b o) := by
  cases o with
  | none => exact hb
  | some v =>
      rcases @least_cases _ cmp b v with h | h
      · rw [extreme, h]
        exact ho
      · rw [extreme, h]
        exact hb

omit [Chrono] in
theorem extreme_comm (agg : Agg) (b o o' : Option Amount) :
    Option.Rel (fun x y => Query.orderValues x y = .eq) (extreme agg.cmp (extreme agg.cmp b o) o')
      (extreme agg.cmp (extreme agg.cmp b o') o) := by
  have hrefl (c : Option Amount) : Option.Rel (fun x y => Query.orderValues x y = .eq) c c := by
    cases c with
    | none => exact .none
    | some x => exact .some ReflCmp.compare_self
  cases o with
  | none => exact hrefl _
  | some x =>
      cases o' with
      | none => exact hrefl _
      | some y =>
          simp only [← agg.cmp_eq_iff]
          exact least_comm b x y

omit [Chrono] in
theorem add_ok {cmp : Amount → Amount → Ordering} {a a' : Acc} : add cmp s a = some a' ↔
    ∃ total, addDecimal a.decimals s.decimal = some total ∧
      a' = ⟨a.n + s.counted, s.number.elim a.sum a.sum.push, total, extreme cmp a.best s.amount⟩ := by
  rw [add, Option.map_eq_some_iff]
  exact exists_congr fun total => and_congr_right fun _ => eq_comm

theorem add_respects (hs : WholeSums) (hw : s.Whole) (ho : OfLeaf s.amount) {a b a' : Acc} (h : Same a b)
    (ha : add agg.cmp s a = some a') : ∃ b', add agg.cmp s b = some b' ∧ Same a' b' := by
  obtain ⟨total, htotal, rfl⟩ := add_ok.mp ha
  refine ⟨_, add_ok.mpr ⟨total, h.decimals ▸ htotal, rfl⟩, ?_⟩
  exact {
    n := congrArg (· + s.counted) h.n
    sum := by
      show s.number.elim a.sum a.sum.push = s.number.elim b.sum b.sum.push
      rw [h.sum]
    decimals := rfl
    whole := addDecimal_whole hs h.whole hw.1 htotal
    best := extreme_rel agg s.amount h.best
    left := extreme_ofLeaf h.left ho
    right := extreme_ofLeaf h.right ho }

theorem add_comm (hs : WholeSums) (hw : s.Whole) (hw' : s'.Whole) (ho : OfLeaf s.amount) (ho' : OfLeaf s'.amount)
    {a a₁ a₂ : Acc} (h : Same a a) (h1 : add agg.cmp s a = some a₁) (h2 : add agg.cmp s' a₁ = some a₂) :
    ∃ b₁ b₂, add agg.cmp s' a = some b₁ ∧ add agg.cmp s b₁ = some b₂ ∧ Same a₂ b₂ := by
  obtain ⟨t₁, ht1, rfl⟩ := add_ok.mp h1
  obtain ⟨t₂, ht2, rfl⟩ := add_ok.mp h2
  have hwhole₁ := addDecimal_whole hs h.whole hw.1 ht1
  obtain ⟨u, hu1, hu2⟩ := addDecimal_comm hs h.whole hw.1 hw'.1 ht1 ht2
  refine ⟨_, _, add_ok.mpr ⟨u, hu1, rfl⟩, add_ok.mpr ⟨t₂, hu2, rfl⟩, ?_⟩
  exact {
    n := Nat.add_right_comm ..
    sum := by
      dsimp only
      rcases hx : s.number with _ | x
      · rfl
      · rcases hy : s'.number with _ | y
        · rfl
        · exact Sum.push_comm (hw.2 x hx) (hw'.2 y hy) a.sum
    decimals := rfl
    whole := addDecimal_whole hs hwhole₁ hw'.1 ht2
    best := extreme_comm agg a.best s.amount s'.amount
    left := extreme_ofLeaf (extreme_ofLeaf h.left ho) ho'
    right := extreme_ofLeaf (extreme_ofLeaf h.left ho') ho }

end Acc

/-- What every aggregate sums of a document is an integer. -/
def SumsIntegers (aggs : List Agg) (doc : DocView) : Prop := ∀ agg ∈ aggs, agg.Sums doc

namespace Agg

theorem fold_respects (hs : WholeSums) (agg : Agg) :
    Respects Acc.Same (fun acc doc => agg.fold doc acc) fun doc => agg.Sums doc := by
  intro a b doc a' hdoc h ha
  obtain ⟨b', hb, hr⟩ := Acc.add_respects hs (share_whole hdoc) (share_amount agg doc) h (fold_ok.mp ha)
  exact ⟨b', fold_ok.mpr hb, hr⟩

theorem fold_commutes (hs : WholeSums) (agg : Agg) :
    Commutes Acc.Same (fun acc doc => agg.fold doc acc) fun doc => agg.Sums doc := by
  refine (fold_respects hs agg).commutes (fun _ _ _ => Acc.Same.trans) ?_ fun _ _ => Acc.Same.symm
  intro a doc doc' a₁ a₂ hd hd' h h1 h2
  obtain ⟨b₁, b₂, hb1, hb2, hr⟩ := Acc.add_comm hs (share_whole hd) (share_whole hd') (share_amount agg doc)
    (share_amount agg doc') h (fold_ok.mp h1) (fold_ok.mp h2)
  exact ⟨b₁, b₂, fold_ok.mpr hb1, fold_ok.mpr hb2, hr⟩

theorem foldAll_ok {doc : DocView} {agg : Agg} {aggs : List Agg} {acc : Acc} {accs l : List Acc} :
    foldAll doc (agg :: aggs) (acc :: accs) = .ok l ↔
      ∃ a as, agg.fold doc acc = .ok a ∧ foldAll doc aggs accs = .ok as ∧ l = a :: as := by
  rw [foldAll, except_bind_ok]
  refine exists_congr fun a => ?_
  rw [except_bind_ok]
  constructor
  · rintro ⟨ha, as, has, h⟩
    exact ⟨as, ha, has, (Except.ok.inj h).symm⟩
  · rintro ⟨as, ha, has, rfl⟩
    exact ⟨ha, as, has, rfl⟩

theorem foldAll_respects (hs : WholeSums) (aggs : List Agg) :
    Respects (List.Forall₂ Acc.Same) (fun accs doc => foldAll doc aggs accs) (SumsIntegers aggs) := by
  induction aggs with
  | nil =>
      intro l l' doc s _ h hok
      obtain rfl := Except.ok.inj hok
      exact ⟨l', rfl, h⟩
  | cons agg aggs ih =>
      intro l l' doc s hdoc h hok
      cases h with
      | nil =>
          obtain rfl := Except.ok.inj hok
          exact ⟨[], rfl, .nil⟩
      | cons hab hl =>
          obtain ⟨a, as, ha, has, rfl⟩ := foldAll_ok.mp hok
          obtain ⟨b, hb, hr⟩ := fold_respects hs agg _ _ doc a (hdoc agg List.mem_cons_self) hab ha
          obtain ⟨bs, hbs, hrs⟩ := ih _ _ doc as (fun x hx => hdoc x (List.mem_cons_of_mem _ hx)) hl has
          exact ⟨b :: bs, foldAll_ok.mpr ⟨b, bs, hb, hbs, rfl⟩, .cons hr hrs⟩

theorem foldAll_commutes (hs : WholeSums) (aggs : List Agg) :
    Commutes (List.Forall₂ Acc.Same) (fun accs doc => foldAll doc aggs accs) (SumsIntegers aggs) := by
  induction aggs with
  | nil =>
      intro l l' doc doc' s₁ s₂ _ _ h h1 h2
      obtain rfl := Except.ok.inj h1
      obtain rfl := Except.ok.inj h2
      exact ⟨l', l', rfl, rfl, h⟩
  | cons agg aggs ih =>
      intro l l' doc doc' s₁ s₂ hd hd' h h1 h2
      cases h with
      | nil =>
          obtain rfl := Except.ok.inj h1
          obtain rfl := Except.ok.inj h2
          exact ⟨[], [], rfl, rfl, .nil⟩
      | cons hab hl =>
          obtain ⟨a, as, ha, has, rfl⟩ := foldAll_ok.mp h1
          obtain ⟨a', as', ha', has', rfl⟩ := foldAll_ok.mp h2
          obtain ⟨b, b', hb, hb', hr⟩ := fold_commutes hs agg _ _ doc doc' a a' (hd agg List.mem_cons_self)
            (hd' agg List.mem_cons_self) hab ha ha'
          obtain ⟨bs, bs', hbs, hbs', hrs⟩ := ih _ _ doc doc' as as' (fun x hx => hd x (List.mem_cons_of_mem _ hx))
            (fun x hx => hd' x (List.mem_cons_of_mem _ hx)) hl has has'
          exact ⟨b :: bs, b' :: bs', foldAll_ok.mpr ⟨b, bs, hb, hbs, rfl⟩, foldAll_ok.mpr ⟨b', bs', hb', hbs', rfl⟩,
            .cons hr hrs⟩

end Agg

/-- Buckets of the same documents. -/
structure Bucket.Same (b c : Bucket) : Prop where
  matches_ : b.matches_ = c.matches_
  accs : List.Forall₂ Acc.Same b.accs c.accs

namespace Bucket

theorem Same.symm {b c : Bucket} (h : Same b c) : Same c b where
  matches_ := h.matches_.symm
  accs := h.accs.flip.imp fun _ _ => Acc.Same.symm

theorem Same.trans {b c d : Bucket} (h : Same b c) (h' : Same c d) : Same b d where
  matches_ := h.matches_.trans h'.matches_
  accs := forall₂_trans (r := Acc.Same) (fun _ _ _ => Acc.Same.trans) h.accs h'.accs

end Bucket

namespace Aggregation

theorem foldBucket_ok {aggs : List Agg} {doc : DocView} {b b' : Bucket} : foldBucket aggs doc b = .ok b' ↔
    ∃ accs, Agg.foldAll doc aggs b.accs = .ok accs ∧ b' = ⟨b.matches_ + 1, accs⟩ := by
  rw [foldBucket, except_bind_ok]
  refine exists_congr fun accs => and_congr_right fun _ => ?_
  exact ⟨fun h => (Except.ok.inj h).symm, fun h => h ▸ rfl⟩

theorem foldBucket_respects (hs : WholeSums) (aggs : List Agg) :
    Respects Bucket.Same (fun b doc => foldBucket aggs doc b) (SumsIntegers aggs) := by
  intro b c doc b' hdoc h hb
  obtain ⟨accs, haccs, rfl⟩ := foldBucket_ok.mp hb
  obtain ⟨accs', haccs', hr⟩ := Agg.foldAll_respects hs aggs _ _ doc accs hdoc h.accs haccs
  exact ⟨_, foldBucket_ok.mpr ⟨accs', haccs', rfl⟩, congrArg (· + 1) h.matches_, hr⟩

theorem foldBucket_commutes (hs : WholeSums) (aggs : List Agg) :
    Commutes Bucket.Same (fun b doc => foldBucket aggs doc b) (SumsIntegers aggs) := by
  intro b c doc doc' b₁ b₂ hd hd' h h1 h2
  obtain ⟨accs₁, haccs₁, rfl⟩ := foldBucket_ok.mp h1
  obtain ⟨accs₂, haccs₂, rfl⟩ := foldBucket_ok.mp h2
  obtain ⟨l₁, l₂, hl1, hl2, hr⟩ := Agg.foldAll_commutes hs aggs _ _ doc doc' accs₁ accs₂ hd hd' h.accs haccs₁ haccs₂
  exact ⟨_, _, foldBucket_ok.mpr ⟨l₁, hl1, rfl⟩, foldBucket_ok.mpr ⟨l₂, hl2, rfl⟩,
    congrArg (· + 1 + 1) h.matches_, hr⟩

theorem empty_same (aggs : List Agg) : (emptyBucket aggs).Same (emptyBucket aggs) where
  matches_ := rfl
  accs := by
    refine List.forall₂_same.mpr fun acc hacc => ?_
    obtain ⟨agg, -, rfl⟩ := List.mem_map.mp hacc
    exact ⟨rfl, rfl, rfl, fun _ h => (nomatch h), .none, fun _ h => (nomatch h), fun _ h => (nomatch h)⟩

/-- Aggregations of the same documents, for what `q` asks. -/
structure Same (q a b : Aggregation) : Prop where
  aggs : a.aggs = q.aggs
  groupBy : a.groupBy = q.groupBy
  aggs' : b.aggs = q.aggs
  groupBy' : b.groupBy = q.groupBy
  groups : SameEntries Bucket.Same a.groups b.groups
  matches_ : a.matches_ = b.matches_

variable {q : Aggregation}

theorem Same.symm {a b : Aggregation} (h : Same q a b) : Same q b a :=
  ⟨h.aggs', h.groupBy', h.aggs, h.groupBy, h.groups.symm fun _ _ => Bucket.Same.symm, h.matches_.symm⟩

theorem Same.trans {a b c : Aggregation} (h : Same q a b) (h' : Same q b c) : Same q a c where
  aggs := h.aggs
  groupBy := h.groupBy
  aggs' := h'.aggs'
  groupBy' := h'.groupBy'
  groups := SameEntries.trans (r := Bucket.Same) (fun _ _ _ => Bucket.Same.trans) h.groups h'.groups
  matches_ := h.matches_.trans h'.matches_

variable [Zones] {zone : Zones.Zone}

/-- The groups after a document, for what `q` asks. -/
def addTo (q : Aggregation) (zone : Zones.Zone) (groups : ExtTreeMap GroupKey Bucket GroupKey.cmp) (doc : DocView) :
    Except String (ExtTreeMap GroupKey Bucket GroupKey.cmp) :=
  upsert maxGroups q.tooMany (emptyBucket q.aggs) (foldBucket q.aggs doc) groups (q.keyOf zone doc)

theorem addView_ok {a a' : Aggregation} {doc : DocView} (h : a.aggs = q.aggs) (h' : a.groupBy = q.groupBy) :
    a.addView zone doc = .ok a' ↔
      ∃ groups, q.addTo zone a.groups doc = .ok groups ∧ a' = ⟨q.aggs, q.groupBy, groups, a.matches_ + 1⟩ := by
  obtain ⟨aggs, groupBy, groups, n⟩ := a
  obtain rfl : aggs = q.aggs := h
  obtain rfl : groupBy = q.groupBy := h'
  rw [addView, except_bind_ok]
  refine exists_congr fun groups => and_congr_right fun _ => ?_
  exact ⟨fun h => (Except.ok.inj h).symm, fun h => h ▸ rfl⟩

theorem addView_respects (hs : WholeSums) :
    Respects (Same q) (fun a doc => a.addView zone doc) (SumsIntegers q.aggs) := by
  intro a b doc a' hdoc h ha
  obtain ⟨groups, hg, rfl⟩ := (addView_ok h.aggs h.groupBy).mp ha
  obtain ⟨groups', hg', hr⟩ := upsert_respects (r := Bucket.Same) (fun _ _ => Bucket.Same.symm)
    (empty_same q.aggs) (foldBucket_respects hs q.aggs) a.groups b.groups doc groups hdoc h.groups hg
  exact ⟨_, (addView_ok h.aggs' h.groupBy').mpr ⟨groups', hg', rfl⟩, rfl, rfl, rfl, rfl, hr,
    congrArg (· + 1) h.matches_⟩

theorem addView_commutes (hs : WholeSums) :
    Commutes (Same q) (fun a doc => a.addView zone doc) (SumsIntegers q.aggs) := by
  intro a b doc doc' a₁ a₂ hd hd' h h1 h2
  obtain ⟨m₁, hm1, rfl⟩ := (addView_ok h.aggs h.groupBy).mp h1
  obtain ⟨m₂, hm2, rfl⟩ := (addView_ok (q := q) (a := ⟨q.aggs, q.groupBy, m₁, a.matches_ + 1⟩) rfl rfl).mp h2
  obtain ⟨n₁, n₂, hn1, hn2, hr⟩ := upsert_commutes (r := Bucket.Same) (fun _ _ => Bucket.Same.symm)
    (fun _ _ _ => Bucket.Same.trans) (empty_same q.aggs) (foldBucket_respects hs q.aggs) (foldBucket_commutes hs q.aggs) a.groups b.groups doc doc'
    m₁ m₂ hd hd' h.groups hm1 hm2
  exact ⟨_, _, (addView_ok h.aggs' h.groupBy').mpr ⟨n₁, hn1, rfl⟩,
    (addView_ok (q := q) (a := ⟨q.aggs, q.groupBy, n₁, b.matches_ + 1⟩) rfl rfl).mpr ⟨n₂, hn2, rfl⟩, rfl, rfl, rfl, rfl, hr, congrArg (· + 1 + 1) h.matches_⟩

end Aggregation

/-- Equal values of fields, or none. -/
inductive LevelValues : Json → Json → Prop
  | null : LevelValues .null .null
  | leaf {v w : Leaf} : Query.orderValues v.amount w.amount = .eq → LevelValues v.toJson w.toJson

/-- Results of an aggregate: the least and the largest are compared by value. -/
def Agg.SameValue (agg : Agg) (v w : Json) : Prop :=
  match agg.func with
  | .min | .max => LevelValues v w
  | _ => v = w

def SameValues : List Agg → List (String × Json × Nat) → List (String × Json × Nat) → Prop
  | agg :: aggs, p :: l, r :: l' => p.1 = r.1 ∧ agg.SameValue p.2.1 r.2.1 ∧ p.2.2 = r.2.2 ∧ SameValues aggs l l'
  | _, l, l' => l = l'

structure GroupResult.Same (aggs : List Agg) (g h : GroupResult) : Prop where
  key : Option.Rel (fun a b => GroupKey.cmp ⟨a⟩ ⟨b⟩ = .eq) g.key h.key
  matches_ : g.matches_ = h.matches_
  values : SameValues aggs g.values h.values

structure Aggregated.Same (aggs : List Agg) (r s : Aggregated) : Prop where
  matches_ : r.matches_ = s.matches_
  groups : List.Forall₂ (GroupResult.Same aggs) r.groups s.groups

namespace Agg

variable [Quotients]

omit [Quotients] in
theorem best_level {a b : Acc} (h : a.Same b) :
    LevelValues ((a.best.map Prod.fst).getD .null) ((b.best.map Prod.fst).getD .null) := by
  obtain ⟨-, -, -, -, hbest, hleft, hright⟩ := h
  generalize a.best = o at hbest hleft
  generalize b.best = o' at hbest hright
  cases hbest with
  | none => exact .null
  | some hxy =>
      obtain ⟨v, rfl⟩ := hleft _ rfl
      obtain ⟨w, rfl⟩ := hright _ rfl
      exact .leaf hxy

theorem value_same {agg : Agg} {a b : Acc} {v : Json} (h : a.Same b) (hv : agg.value a = .ok v) :
    ∃ w, agg.value b = .ok w ∧ agg.SameValue v w := by
  have hbest := best_level h
  obtain ⟨n, sum, decimals, best⟩ := a
  obtain ⟨_, _, _, best'⟩ := b
  obtain ⟨rfl, rfl, rfl, -, -, -, -⟩ := h
  revert hv
  unfold value SameValue
  rcases agg.func
  case count => exact fun hv => ⟨v, hv, rfl⟩
  case sum => exact fun hv => ⟨v, hv, rfl⟩
  case avg => exact fun hv => ⟨v, hv, rfl⟩
  all_goals
    intro hv
    obtain rfl := Except.ok.inj hv
    exact ⟨_, rfl, hbest⟩

end Agg

namespace Aggregation

variable [Quotients] [Zones]

omit [Chrono] [Zones] in
theorem valueOf_ok {agg : Agg} {acc : Acc} {p : String × Json × Nat} :
    valueOf agg acc = .ok p ↔ ∃ v, agg.value acc = .ok v ∧ p = (agg.name, v, acc.n) := by
  rw [valueOf, except_bind_ok]
  refine exists_congr fun v => and_congr_right fun _ => ?_
  exact ⟨fun h => (Except.ok.inj h).symm, fun h => h ▸ rfl⟩

omit [Zones] in
theorem values_same {aggs : List Agg} {l l' : List Acc} (h : List.Forall₂ Acc.Same l l') {ps : List (String × Json × Nat)}
    (hps : (aggs.zip l).mapM (fun p => valueOf p.1 p.2) = .ok ps) :
    ∃ rs, (aggs.zip l').mapM (fun p => valueOf p.1 p.2) = .ok rs ∧ SameValues aggs ps rs := by
  induction h generalizing aggs ps with
  | nil =>
      rw [List.zip_nil_right] at hps
      obtain rfl := Except.ok.inj hps
      rw [List.zip_nil_right]
      refine ⟨[], rfl, ?_⟩
      cases aggs <;> rfl
  | cons hab _ ih =>
      cases aggs with
      | nil =>
          obtain rfl := Except.ok.inj hps
          exact ⟨[], rfl, rfl⟩
      | cons agg aggs =>
          rw [List.zip_cons_cons, List.mapM_cons] at hps
          obtain ⟨p, hp, hps⟩ := except_bind_ok.mp hps
          obtain ⟨ps', hps', heq⟩ := except_bind_ok.mp hps
          obtain rfl := Except.ok.inj heq
          obtain ⟨v, hv, rfl⟩ := valueOf_ok.mp hp
          obtain ⟨w, hw, hsame⟩ := Agg.value_same hab hv
          obtain ⟨rs, hrs, hrest⟩ := ih hps'
          refine ⟨(agg.name, w, _) :: rs, ?_, rfl, hsame, hab.n, hrest⟩
          rw [List.zip_cons_cons, List.mapM_cons]
          exact except_bind_ok.mpr ⟨_, valueOf_ok.mpr ⟨w, hw, rfl⟩, except_bind_ok.mpr ⟨rs, hrs, rfl⟩⟩

variable {q : Aggregation}

omit [Zones] in
theorem groupResult_same {a b : Aggregation} (h : Same q a b) {g g' : GroupKey × Bucket} (hkey : g.1.cmp g'.1 = .eq)
    (hb : g.2.Same g'.2) {r : GroupResult} (hr : a.groupResult g = .ok r) :
    ∃ s, b.groupResult g' = .ok s ∧ r.Same q.aggs s := by
  rw [groupResult, except_bind_ok] at hr
  obtain ⟨ps, hps, heq⟩ := hr
  obtain rfl := Except.ok.inj heq
  rw [h.aggs] at hps
  obtain ⟨rs, hrs, hsame⟩ := values_same hb.accs hps
  refine ⟨⟨if b.groupBy.isSome then some g'.1.value else none, g'.2.matches_, rs⟩, ?_, ?_, hb.matches_, hsame⟩
  · rw [groupResult, h.aggs', except_bind_ok]
    exact ⟨rs, hrs, rfl⟩
  · show Option.Rel _ (if a.groupBy.isSome then _ else _) (if b.groupBy.isSome then _ else _)
    rw [h.groupBy, h.groupBy']
    split
    · exact .some hkey
    · exact .none

omit [Zones] in
theorem finish_same {a b : Aggregation} (h : Same q a b) {r : Aggregated} (hr : a.finish = .ok r) :
    ∃ s, b.finish = .ok s ∧ r.Same q.aggs s := by
  rw [finish, except_bind_ok] at hr
  obtain ⟨rs, hrs, heq⟩ := hr
  obtain rfl := Except.ok.inj heq
  obtain ⟨ss, hss, hsame⟩ := mapM_forall₂ (fun g g' r hg hr => groupResult_same h hg.1 hg.2 hr)
    (h.groups.toList fun _ _ => Bucket.Same.symm) hrs
  refine ⟨⟨b.matches_, ss⟩, ?_, h.matches_, hsame⟩
  rw [finish, except_bind_ok]
  exact ⟨ss, hss, rfl⟩

omit [Quotients] [Zones] in
theorem new_same {aggs : List Agg} {groupBy : Option String} (h : new aggs groupBy = .ok q) : Same q q q := by
  refine ⟨rfl, rfl, rfl, rfl, ?_, rfl⟩
  have hnone : SameEntries Bucket.Same (∅ : ExtTreeMap GroupKey Bucket GroupKey.cmp) ∅ := fun k => by
    rw [ExtTreeMap.getElem?_empty]
    exact .none
  unfold new at h
  by_cases hempty : aggs.isEmpty
  · rw [if_pos hempty] at h
    exact nomatch h
  · rw [if_neg hempty] at h
    cases groupBy with
    | none =>
        obtain rfl := Except.ok.inj h
        intro k
        show Option.Rel _ (ExtTreeMap.insert ∅ _ _)[k]? (ExtTreeMap.insert ∅ _ _)[k]?
        rw [ExtTreeMap.getElem?_insert]
        split
        · exact .some (empty_same aggs)
        · exact hnone k
    | some f =>
        obtain ⟨_, -, h⟩ := except_bind_ok.mp h
        obtain ⟨path, -, h⟩ := except_bind_ok.mp h
        obtain rfl := Except.ok.inj h
        exact hnone

omit [Chrono] [Quotients] [Zones] in
theorem new_aggs {aggs : List Agg} {groupBy : Option String} (h : new aggs groupBy = .ok q) : q.aggs = aggs := by
  unfold new at h
  by_cases hempty : aggs.isEmpty
  · rw [if_pos hempty] at h
    exact nomatch h
  · rw [if_neg hempty] at h
    cases groupBy with
    | none =>
        obtain rfl := Except.ok.inj h
        rfl
    | some f =>
        obtain ⟨_, -, h⟩ := except_bind_ok.mp h
        obtain ⟨path, -, h⟩ := except_bind_ok.mp h
        obtain rfl := Except.ok.inj h
        rfl

/-- What documents come to, in the order they are received. -/
def aggregate (q : Aggregation) (zone : Zones.Zone) (docs : List DocView) : Except String Aggregated := do
  let a ← docs.foldlM (fun a doc => a.addView zone doc) q
  a.finish

/-- Integers come to the same in every order. -/
theorem aggregate_perm (hs : WholeSums) {aggs : List Agg} {groupBy : Option String} (hq : new aggs groupBy = .ok q)
    (zone : Zones.Zone) {docs docs' : List DocView} (hp : docs.Perm docs')
    (hdocs : ∀ doc ∈ docs, SumsIntegers q.aggs doc) {r : Aggregated} (hr : q.aggregate zone docs = .ok r) :
    ∃ s, q.aggregate zone docs' = .ok s ∧ r.Same q.aggs s := by
  obtain ⟨a, ha, hr⟩ := except_bind_ok.mp hr
  obtain ⟨b, hb, hsame⟩ := (addView_commutes hs).foldlM_perm (addView_respects hs) (fun _ _ => Same.symm)
    (fun _ _ _ => Same.trans) hp hdocs (new_same hq) ha
  obtain ⟨s, hs, hsame⟩ := finish_same hsame hr
  exact ⟨s, except_bind_ok.mpr ⟨b, hb, hs⟩, hsame⟩

end Aggregation

/-- Documents are grouped by value, under keys in one order, and what their groups come to
is of the documents and not of their order. -/
theorem groups_by_value [Zones] [Quotients] (ht : Query.TagsApart) (hs : WholeSums) :
    (∀ (v w : Leaf) (x y : NumKey), Query.numKey v.amount = some x → Query.numKey w.amount = some y →
      (GroupKey.cmp ⟨Query.groupValue v⟩ ⟨Query.groupValue w⟩ = .eq ↔ x.value = y.value)) ∧
    TransCmp GroupKey.cmp ∧
    ∀ (aggs : List Agg) (groupBy : Option String) (q : Aggregation) (zone : Zones.Zone) (docs docs' : List DocView),
      Aggregation.new aggs groupBy = .ok q → docs.Perm docs' → (∀ doc ∈ docs, SumsIntegers aggs doc) →
      ∀ r, q.aggregate zone docs = .ok r → ∃ s, q.aggregate zone docs' = .ok s ∧ r.Same aggs s := by
  refine ⟨fun v w x y => Query.groupValue_eq ht, inferInstance, ?_⟩
  intro aggs groupBy q zone docs docs' hq hp hdocs r hr
  have haggs := Aggregation.new_aggs hq
  subst haggs
  exact Aggregation.aggregate_perm hs hq zone hp hdocs hr

end

end

section Samples

open Reference

local instance plainSums : Arithmetic where
  checkedAdd := Doc.added
  jsonText := jsonText

local instance noQuotients : Quotients where
  checkedDiv _ _ := none

local instance noZones : Zones where
  Zone := Unit
  utc := ()
  parseDate _ := none
  parseDatetime _ _ := none
  wall _ t := nomatch t
  cmpDateTime t := nomatch t
  cmpTime t := nomatch t
  hour t := nomatch t
  minute t := nomatch t
  second t := nomatch t

theorem plainSums_whole : WholeSums := by
  intro x y hx hy
  show Doc.added x y = _
  simp only [Doc.added, hx, hy, Nat.max_self, Nat.sub_self, pow_zero, mul_one, Doc.fit]

theorem tags_apart : Query.TagsApart := by
  intro s t h
  have hchars : jsonChars (.object [("$decimal", .string s)]) = jsonChars (.object [("$decimal", .string t)]) :=
    String.ofList_injective h
  simpa [jsonChars, membersChars, String.toList_inj] using hchars

def sumOfN : Agg := ⟨"total", .sum, some "n", [.key "n"]⟩

def withN (n : UInt64) : DocView := .json (.object [("n", .number (.posInt n))])

theorem withN_integer (n : UInt64) : SumsIntegers [sumOfN] (withN n) := by
  intro agg hagg _ v hv
  obtain rfl := List.mem_singleton.mp hagg
  obtain rfl := Option.some.inj hv
  intro x hx
  obtain rfl := Json.number.inj hx
  rfl

theorem three_in_both_orders :
    (GroupKey.cmp ⟨Query.groupValue (.doc (.decimal ⟨1050, 2, by decide, by decide⟩))⟩
      ⟨Query.groupValue (.json (.number (.posInt 3)))⟩ = .eq ↔ (1050 : ℚ) / 10 ^ 2 = 3) ∧
    ∃ s, Aggregation.aggregate ⟨[sumOfN], none, ExtTreeMap.empty.insert ⟨.null⟩ (Aggregation.emptyBucket [sumOfN]), 0⟩ ()
        [withN 2, withN 1] = .ok s ∧
      Aggregated.Same [sumOfN] ⟨2, [⟨none, 2, [("total", .number (.posInt 3), 2)]⟩]⟩ s := by
  obtain ⟨hkeys, -, horder⟩ := groups_by_value tags_apart plainSums_whole
  refine ⟨?_, horder [sumOfN] none _ () [withN 1, withN 2] _ rfl (List.Perm.swap _ _ _) ?_ _ ?_⟩
  · exact hkeys _ _ (.decimal ⟨1050, 2, by decide, by decide⟩) (.json (.posInt 3)) rfl rfl
  · rintro doc hdoc
    rcases List.mem_pair.mp hdoc with rfl | rfl
    · exact withN_integer 1
    · exact withN_integer 2
  · rfl

end Samples

end KivaDb
