import KivaDb.Streams.Held

namespace KivaDb.Streams

open Std (ExtTreeMap)
open Lib.Fallible Resp

/-- The build that checks its arithmetic. -/
abbrev debug : Build := ⟨true⟩

/-- The build that wraps around. -/
abbrev release : Build := ⟨false⟩

/-- Where `x` gives something, `y` gives the same. -/
def Follows {α : Type} (x y : Option α) : Prop := ∀ a, x = some a → y = some a

section

variable {α β : Type} {x y : Option α}

theorem Follows.refl : Follows x x := fun _ h => h

theorem Follows.bind {f g : α → Option β} (h : Follows x y) (hf : ∀ a, Follows (f a) (g a)) : Follows (x.bind f) (y.bind g) := by
  intro b hb
  obtain ⟨a, hx, ha⟩ := Option.bind_eq_some_iff.mp hb
  rw [h a hx]
  exact hf a b ha

theorem Follows.map {f : α → β} (h : Follows x y) : Follows (x.map f) (y.map f) := by
  intro b hb
  obtain ⟨a, hx, rfl⟩ := Option.map_eq_some_iff.mp hb
  rw [h a hx]
  rfl

theorem Follows.ite {p : Prop} [Decidable p] {x' y' : Option α} (h : Follows x y) (h' : Follows x' y') :
    Follows (if p then x else x') (if p then y else y') := by
  split
  · exact h
  · exact h'

end

section

variable {now minIdle : Int64} {consumer : String} {entries : Entries} {set : ClaimSettings} {pending : Pel}

theorem sub_follows (a b : Int64) : Follows (@sub debug a b) (@sub release a b) := by
  intro d hd
  unfold sub at hd ⊢
  split at hd
  · exact nomatch hd
  · rw [if_neg fun h => Bool.false_ne_true h.1]
    exact hd

theorem mul_follows (a b : UInt64) : Follows (@mul debug a b) (@mul release a b) := by
  intro d hd
  unfold mul at hd ⊢
  split at hd
  · exact nomatch hd
  · rw [if_neg fun h => Bool.false_ne_true h.1]
    exact hd

theorem pendingRows_follows {idle : Int64} {consumer : Option String} (rows : List (Id × Pending)) (n : Nat) :
    Follows (@pendingRows debug now idle consumer rows n) (@pendingRows release now idle consumer rows n) := by
  induction rows generalizing n with
  | nil => cases n <;> exact .refl
  | cons row rows ih =>
      cases n with
      | zero => exact .refl
      | succ n =>
          apply Follows.ite
          · exact (sub_follows now row.2.delivered).bind fun since => .ite ((ih n).bind fun rest => .refl) (ih (n + 1))
          · exact ih (n + 1)

theorem claimSettings_follows (opts : List ClaimOption) (set : ClaimSettings) :
    Follows (@claimSettings debug now opts set) (@claimSettings release now opts set) := by
  induction opts generalizing set with
  | nil => exact .refl
  | cons opt opts ih =>
      cases opt with
      | idle n => exact (sub_follows now n).bind fun delivered => ih _
      | time n => exact ih _
      | retryCount n => exact ih _
      | lastId id => exact ih _
      | force => exact ih _
      | justId => exact ih _

theorem claimPending_follows (pending : Pel) (id : Id) (p : Pending) :
    Follows (@claimPending debug now minIdle consumer set entries pending id p)
      (@claimPending release now minIdle consumer set entries pending id p) := by
  unfold claimPending
  split
  · exact .refl
  · exact (sub_follows now p.delivered).bind fun idle => .refl

theorem claimOne_follows (pending : Pel) (id : Id) :
    Follows (@claimOne debug now minIdle consumer set entries pending id) (@claimOne release now minIdle consumer set entries pending id) := by
  unfold claimOne
  split
  · exact claimPending_follows pending id _
  · exact .ite (claimPending_follows _ id _) .refl

theorem claimAll_follows (ids : List Id) (pending : Pel) :
    Follows (@claimAll debug now minIdle consumer set entries ids pending)
      (@claimAll release now minIdle consumer set entries ids pending) := by
  induction ids generalizing pending with
  | nil => exact .refl
  | cons id ids ih => exact (claimOne_follows pending id).bind fun r => (ih r.1).bind fun out => .refl

theorem sweepFrom_follows {justId full : Bool} {count : Nat} (ids : List Id) (w : Sweep) :
    Follows (@sweepFrom debug now minIdle consumer justId entries count full ids w)
      (@sweepFrom release now minIdle consumer justId entries count full ids w) := by
  induction ids generalizing w with
  | nil => exact .refl
  | cons id ids ih =>
      apply Follows.ite .refl
      generalize (if ids = [] ∧ full = true then { w with next := id.next.getD .zero } else w) = v
      dsimp only
      split
      · exact ih _
      · exact .refl
      · next p _ _ => exact (sub_follows now p.delivered).bind fun idle => .ite (ih _) (ih _)

end

section

variable {e : Env} {group consumer : String} {minIdle : Int64} {stream : Option Stream}

theorem xpending_follows (idle : Int64) (lo hi : Id) (count : Nat) (consumer : Option String) :
    Follows (@xpending debug e group idle lo hi count consumer stream) (@xpending release e group idle lo hi count consumer stream) := by
  unfold xpending
  split
  · exact .refl
  · exact (pendingRows_follows _ count).map

theorem xclaim_follows (ids : List Id) (opts : List ClaimOption) :
    Follows (@xclaim debug e group consumer minIdle ids opts stream) (@xclaim release e group consumer minIdle ids opts stream) := by
  apply (claimSettings_follows opts _).bind
  intro set
  split
  · exact .refl
  · exact (claimAll_follows ids _).bind fun r => .refl

theorem xautoclaim_follows (start : Id) (count : Int64) (justId : Bool) :
    Follows (@xautoclaim debug e group consumer minIdle start count justId stream)
      (@xautoclaim release e group consumer minIdle start count justId stream) := by
  unfold xautoclaim
  split
  · exact .refl
  · exact (mul_follows _ 10).bind fun window => (sweepFrom_follows _ _).bind fun w => .refl

theorem step_follows (act : Act) : Follows (@step debug e stream act) (@step release e stream act) := by
  cases act with
  | pending group idle lo hi count consumer => exact (xpending_follows idle lo hi count consumer).map
  | claim group consumer minIdle ids opts => exact (xclaim_follows ids opts).map
  | autoclaim group consumer minIdle start count justId => exact (xautoclaim_follows start count justId).map
  | _ => exact .refl

/-- Where no arithmetic overflows, it is the same whether overflows are checked or not. -/
theorem run_follows (acts : List (Env × Act)) (stream : Option Stream) : Follows (@run debug acts stream) (@run release acts stream) := by
  induction acts generalizing stream with
  | nil => exact .refl
  | cons x acts ih => exact (step_follows x.2).bind fun r => (ih r.1).bind fun rest => .refl

end

/-- No delivery is dated so early that the time since then overflows, up to the year 146 million. -/
def Timely (p : Pending) : Prop := -2 ^ 62 < p.delivered.toInt

/-- When the entries claimed are said to have been delivered. -/
def deliveryTime (now : Int64) : List ClaimOption → Option Int
  | [] => none
  | .idle n :: opts => (deliveryTime now opts).or (some (now.toInt - n.toInt))
  | .time n :: opts => (deliveryTime now opts).or (some n.toInt)
  | _ :: opts => deliveryTime now opts

/-- Commands with times and counts that leave room to compute. -/
def Act.Modest (now : Int64) : Act → Prop
  | .claim _ _ _ _ opts =>
      (∀ n, .idle n ∈ opts → now.toInt - n.toInt < 2 ^ 63) ∧ ∀ d, deliveryTime now opts = some d → -2 ^ 62 < d
  | .autoclaim _ _ _ _ count _ => count.toInt * 10 < 2 ^ 64
  | _ => True

theorem timely_now {now : Int64} {consumer : String} {count : UInt64} (hnow : 0 ≤ now) : Timely ⟨consumer, now, count⟩ := by
  have hlow : 0 ≤ now.toInt := Int64.le_iff_toInt_le.mp hnow
  unfold Timely
  dsimp only
  omega

section

variable [Build] {now minIdle : Int64} {consumer : String} {entries : Entries} {set : ClaimSettings} {pending : Pel}

theorem sub_some {a b : Int64} (h : -2 ^ 63 ≤ a.toInt - b.toInt) (h' : a.toInt - b.toInt < 2 ^ 63) : sub a b = some (a - b) := by
  unfold sub
  rw [if_neg fun hno => hno.2 ⟨h, h'⟩]

theorem since_some {p : Pending} (hnow : 0 ≤ now) (hclock : now.toInt ≤ 2 ^ 62) (hp : Timely p) :
    sub now p.delivered = some (now - p.delivered) := by
  have hlow : 0 ≤ now.toInt := Int64.le_iff_toInt_le.mp hnow
  have hhigh := Int64.toInt_lt p.delivered
  unfold Timely at hp
  exact sub_some (by omega) (by omega)

theorem pendingRows_some {idle : Int64} {consumer : Option String} {rows : List (Id × Pending)} (hnow : 0 ≤ now)
    (hclock : now.toInt ≤ 2 ^ 62) (h : ∀ row ∈ rows, Timely row.2) (n : Nat) : ∃ found, pendingRows now idle consumer rows n = some found := by
  induction rows generalizing n with
  | nil => cases n <;> exact ⟨[], rfl⟩
  | cons row rows ih =>
      have hlater : ∀ row ∈ rows, Timely row.2 := fun x hx => h x (List.mem_cons_of_mem _ hx)
      cases n with
      | zero => exact ⟨[], rfl⟩
      | succ n =>
          obtain ⟨found, hfound⟩ := ih hlater n
          rw [pendingRows, since_some hnow hclock (h row List.mem_cons_self)]
          split
          · rw [Option.bind_eq_bind, Option.bind_some]
            split
            · exact ⟨_, by rw [hfound]; rfl⟩
            · exact ih hlater (n + 1)
          · exact ih hlater (n + 1)

theorem claimSettings_some {opts : List ClaimOption} (hnow : 0 ≤ now) (h : ∀ n, .idle n ∈ opts → now.toInt - n.toInt < 2 ^ 63)
    (set : ClaimSettings) : ∃ set', claimSettings now opts set = some set' ∧
      set'.delivered.map Int64.toInt = (deliveryTime now opts).or (set.delivered.map Int64.toInt) := by
  have hlow : 0 ≤ now.toInt := Int64.le_iff_toInt_le.mp hnow
  induction opts generalizing set with
  | nil => exact ⟨set, rfl, rfl⟩
  | cons opt opts ih =>
      have hlater : ∀ n, .idle n ∈ opts → now.toInt - n.toInt < 2 ^ 63 := fun n hn => h n (List.mem_cons_of_mem _ hn)
      cases opt with
      | idle n =>
          have hhigh := Int64.toInt_lt n
          have hn := h n List.mem_cons_self
          have hsub : sub now n = some (now - n) := sub_some (by omega) hn
          have hexact : (now - n).toInt = now.toInt - n.toInt := by
            rw [Int64.toInt_sub, Int.bmod_def]
            omega
          obtain ⟨set', hset', htime⟩ := ih hlater { set with delivered := some (now - n) }
          refine ⟨set', ?_, ?_⟩
          · rw [claimSettings, hsub]
            exact hset'
          · rw [htime, deliveryTime, Option.or_assoc, Option.map_some, hexact]
            rfl
      | time n =>
          obtain ⟨set', hset', htime⟩ := ih hlater { set with delivered := some n }
          refine ⟨set', hset', ?_⟩
          rw [htime, deliveryTime, Option.or_assoc]
          rfl
      | retryCount n => exact ih hlater _
      | lastId id => exact ih hlater _
      | force => exact ih hlater _
      | justId => exact ih hlater _

theorem claimPending_some {id : Id} {p : Pending} (hnow : 0 ≤ now) (hclock : now.toInt ≤ 2 ^ 62)
    (hset : ∀ d, set.delivered = some d → -2 ^ 62 < d.toInt) (h : Pel.Held Timely pending) (hp : Timely p) :
    ∃ pending' r, claimPending now minIdle consumer set entries pending id p = some (pending', r) ∧ Pel.Held Timely pending' := by
  unfold claimPending
  split
  · exact ⟨_, _, rfl, h.erase⟩
  · rw [since_some hnow hclock hp, Option.bind_eq_bind, Option.bind_some]
    split
    · exact ⟨_, _, rfl, h⟩
    · refine ⟨_, _, rfl, h.insert ?_⟩
      unfold Timely
      dsimp only
      cases hd : set.delivered with
      | none =>
          have hlow : 0 ≤ now.toInt := Int64.le_iff_toInt_le.mp hnow
          rw [Option.getD_none]
          omega
      | some d => exact hset d hd

theorem claimOne_some {id : Id} (hnow : 0 ≤ now) (hclock : now.toInt ≤ 2 ^ 62)
    (hset : ∀ d, set.delivered = some d → -2 ^ 62 < d.toInt) (h : Pel.Held Timely pending) :
    ∃ pending' r, claimOne now minIdle consumer set entries pending id = some (pending', r) ∧ Pel.Held Timely pending' := by
  unfold claimOne
  split
  · next p hp => exact claimPending_some hnow hclock hset h (h id p hp)
  · split
    · exact claimPending_some hnow hclock hset (h.insert (timely_now hnow)) (timely_now hnow)
    · exact ⟨_, _, rfl, h⟩

theorem claimAll_some {ids : List Id} (hnow : 0 ≤ now) (hclock : now.toInt ≤ 2 ^ 62)
    (hset : ∀ d, set.delivered = some d → -2 ^ 62 < d.toInt) (h : Pel.Held Timely pending) :
    ∃ pending' out, claimAll now minIdle consumer set entries ids pending = some (pending', out) ∧ Pel.Held Timely pending' := by
  induction ids generalizing pending with
  | nil => exact ⟨_, _, rfl, h⟩
  | cons id ids ih =>
      obtain ⟨middle, r, hone, hmiddle⟩ := @claimOne_some _ now minIdle consumer entries set pending id hnow hclock hset h
      obtain ⟨last, out, hall, hlast⟩ := ih hmiddle
      refine ⟨last, (r.toList.map fun fields => (id, fields)) ++ out, ?_, hlast⟩
      rw [claimAll, hone, Option.bind_eq_bind, Option.bind_some]
      dsimp only
      rw [hall]
      rfl

theorem sweepFrom_some {P : Pending → Prop} {justId full : Bool} {count : Nat} {ids : List Id} {w : Sweep}
    (hsub : ∀ p, P p → ∃ idle, sub now p.delivered = some idle) (hgiven : ∀ n, P ⟨consumer, now, n⟩)
    (hids : ids.Nodup) (hmem : ∀ id ∈ ids, id ∈ w.pending) (h : Pel.Held P w.pending) :
    ∃ w', sweepFrom now minIdle consumer justId entries count full ids w = some w' ∧ Pel.Held P w'.pending := by
  induction ids generalizing w with
  | nil => exact ⟨w, rfl, h⟩
  | cons id ids ih =>
      obtain ⟨hnot, hnodup⟩ := List.nodup_cons.mp hids
      rw [sweepFrom]
      by_cases hfull : count ≤ w.taken
      · rw [if_pos hfull]
        exact ⟨_, rfl, h⟩
      · rw [if_neg hfull]
        obtain ⟨v, hv, hpending⟩ : ∃ v : Sweep, (if ids = [] ∧ full then { w with next := id.next.getD .zero } else w) = v ∧
            v.pending = w.pending := by
          refine ⟨_, rfl, ?_⟩
          split <;> rfl
        dsimp only
        rw [hv]
        rw [← hpending] at hmem h
        have hlater : ∀ i ∈ ids, ∀ pending' : Pel, (i ≠ id → pending'[i]? = v.pending[i]?) → i ∈ pending' := by
          intro i hi pending' hsame
          have hne : i ≠ id := fun heq => hnot (heq ▸ hi)
          rw [ExtTreeMap.mem_iff_isSome_getElem?, hsame hne, ← ExtTreeMap.mem_iff_isSome_getElem?]
          exact hmem i (List.mem_cons_of_mem _ hi)
        cases entries[id]? with
        | none =>
            refine ih hnodup (fun i hi => hlater i hi _ fun hne => ?_) h.erase
            rw [ExtTreeMap.getElem?_erase, if_neg fun heq => hne (compare_eq_iff_eq.mp heq).symm]
        | some fields =>
            obtain ⟨p, hp⟩ := Option.isSome_iff_exists.mp (ExtTreeMap.mem_iff_isSome_getElem?.mp (hmem id List.mem_cons_self))
            obtain ⟨idle, hidle⟩ := hsub p (h id p hp)
            rw [hp]
            dsimp only
            rw [hidle, Option.bind_eq_bind, Option.bind_some]
            split
            · exact ih hnodup (fun i hi => hlater i hi _ fun _ => rfl) h
            · exact ih hnodup (fun i hi => hlater i hi _ getElem?_insert_ne) (h.insert (hgiven _))

end

theorem toNat_toCount (count : Int64) : ((toCount (atLeast 1 count)).toNat : Int) = max 1 count.toInt := by
  have hpos : 0 ≤ atLeast 1 count := Int64.le_trans (by decide) (atLeast_le 1 count)
  have hint : 0 ≤ (atLeast 1 count).toInt := Int64.le_iff_toInt_le.mp hpos
  have hvalue : (toCount (atLeast 1 count)).toNat = (atLeast 1 count).toInt.toNat := by
    unfold toCount
    rw [if_pos hpos]
    exact Int64.toNat_toUInt64_of_le hpos
  rw [hvalue, Int.toNat_of_nonneg hint]
  unfold atLeast
  split
  · next hlt =>
      have hone : (1 : Int64).toInt = 1 := rfl
      have hlt' := Int64.lt_iff_toInt_lt.mp hlt
      omega
  · next hle =>
      have hone : (1 : Int64).toInt = 1 := rfl
      have hle' := mt Int64.lt_iff_toInt_lt.mpr hle
      omega

section

variable {stream : Option Stream}

/-- The pending entries of the stream there may be are timely. -/
def AllTimely (stream : Option Stream) : Prop := ∀ s, stream = some s → s.Held Timely

/-- What is settled is timely if what is stored is. -/
theorem settle_timely {α : Type} {answer : α → Answer} {r : Except Reply (Stream × α)} (h : AllTimely stream)
    (hstored : ∀ s a, r = .ok (s, a) → s.Held Timely) : AllTimely (settle stream answer r).1 := by
  cases r with
  | error why => exact h
  | ok x =>
      intro s hs
      cases hs
      exact hstored x.1 x.2 rfl

theorem settleOk_timely {r : Except Reply Stream} (h : AllTimely stream) (hstored : ∀ s, r = .ok s → s.Held Timely) :
    AllTimely (settleOk stream r).1 := by
  cases r with
  | error why => exact h
  | ok x =>
      intro s hs
      cases hs
      exact hstored x rfl

theorem settleCount_timely {f : Stream → Except Reply (Stream × Nat)} (h : AllTimely stream)
    (hstored : ∀ s s' n, s.Held Timely → f s = .ok (s', n) → s'.Held Timely) : AllTimely (settleCount stream f).1 := by
  cases stream with
  | none => exact h
  | some s => exact settle_timely h fun s' n hok => hstored s s' n (h s rfl) hok

theorem AllTimely.getD (h : AllTimely stream) : (stream.getD .empty).Held Timely := by
  cases stream with
  | none => exact .empty
  | some s => exact h s rfl

end

section

variable [Build] {e : Env} {group consumer : String} {minIdle : Int64} {stream : Option Stream}

theorem xpending_some {idle : Int64} {lo hi : Id} {count : Nat} {consumer : Option String} (hclock : e.now.toInt ≤ 2 ^ 62)
    (h : AllTimely stream) : ∃ r, xpending e group idle lo hi count consumer stream = some r := by
  unfold xpending
  rcases groupOf_cases e group stream with hof | ⟨s, g, rfl, hg, hof⟩
  · rw [hof]
    exact ⟨_, rfl⟩
  · rw [hof]
    have hrows : ∀ row ∈ g.pending.toList.filter (fun x => lo ≤ x.1 ∧ x.1 ≤ hi), Timely row.2 := by
      intro row hrow
      exact h s rfl group g hg row.1 row.2 (ExtTreeMap.mem_toList_iff_getElem?_eq_some.mp (List.mem_of_mem_filter hrow))
    obtain ⟨found, hfound⟩ := @pendingRows_some _ e.now idle consumer _ e.now_nonneg hclock hrows count
    dsimp only
    rw [hfound]
    exact ⟨_, rfl⟩

theorem window_some {count : Int64} (h : count.toInt * 10 < 2 ^ 64) :
    mul (toCount (atLeast 1 count)) 10 = some (toCount (atLeast 1 count) * 10) := by
  have hten : (10 : UInt64).toNat = 10 := rfl
  have hcount := toNat_toCount count
  unfold mul
  rw [if_neg fun hno => ?_]
  have hno' := hno.2
  rw [hten] at hno'
  omega

theorem xclaim_some {ids : List Id} {opts : List ClaimOption} (hclock : e.now.toInt ≤ 2 ^ 62)
    (hidle : ∀ n, .idle n ∈ opts → e.now.toInt - n.toInt < 2 ^ 63) (htime : ∀ d, deliveryTime e.now opts = some d → -2 ^ 62 < d)
    (h : AllTimely stream) :
    ∃ r, xclaim e group consumer minIdle ids opts stream = some r ∧ ∀ s out, r = .ok (s, out) → s.Held Timely := by
  obtain ⟨set, hset, hdelivered⟩ := claimSettings_some e.now_nonneg hidle ⟨none, none, false, false⟩
  have htimes : ∀ d, set.delivered = some d → -2 ^ 62 < d.toInt := by
    intro d hd
    rw [hd, Option.map_none, Option.or_none] at hdelivered
    exact htime d.toInt hdelivered.symm
  unfold xclaim
  rw [hset, Option.bind_eq_bind, Option.bind_some]
  rcases groupOf_cases e group stream with hof | ⟨s, g, rfl, hg, hof⟩
  · rw [hof]
    exact ⟨_, rfl, fun s out hno => nomatch hno⟩
  · rw [hof]
    obtain ⟨pending, out, hall, hheld⟩ := @claimAll_some _ e.now (atLeast 0 minIdle) consumer s.entries set g.pending ids
      e.now_nonneg hclock htimes (h s rfl group g hg)
    dsimp only
    rw [hall]
    refine ⟨_, rfl, fun s' out' hok => ?_⟩
    obtain ⟨rfl, -⟩ := map_storeStream_ok hok
    exact (h s rfl).setGroup hheld

theorem xautoclaim_some {P : Pending → Prop} {start : Id} {count : Int64} {justId : Bool}
    (hsub : ∀ p, P p → ∃ idle, sub e.now p.delivered = some idle) (hgiven : ∀ n, P ⟨consumer, e.now, n⟩)
    (hcount : count.toInt * 10 < 2 ^ 64) (h : ∀ s g, stream = some s → s.groups[group]? = some g → Pel.Held P g.pending) :
    ∃ r, xautoclaim e group consumer minIdle start count justId stream = some r ∧
      ∀ s' a, r = .ok (s', a) → ∃ s g', stream = some s ∧ s' = s.setGroup group g' ∧ Pel.Held P g'.pending := by
  unfold xautoclaim
  rcases groupOf_cases e group stream with hof | ⟨s, g, rfl, hg, hof⟩
  · rw [hof]
    exact ⟨_, rfl, fun s a hno => nomatch hno⟩
  · rw [hof]
    dsimp only
    rw [window_some hcount, Option.bind_eq_bind, Option.bind_some]
    set scanned := range g.pending start (toCount (atLeast 1 count) * 10).toNat
    have hnodup : (scanned.map Prod.fst).Nodup := scanned_sorted.imp fun {_ _} hlt => ne_of_lt hlt
    have hmem : ∀ id ∈ scanned.map Prod.fst, id ∈ g.pending := fun id hid => (mem_scanned hid).1
    obtain ⟨w, hw, hheld⟩ := @sweepFrom_some _ e.now (atLeast 0 minIdle) consumer s.entries P justId
      ((scanned.map Prod.fst).length = (toCount (atLeast 1 count) * 10).toNat) (toCount (atLeast 1 count)).toNat
      (scanned.map Prod.fst) ⟨g.pending, .zero, 0, [], []⟩ hsub hgiven hnodup hmem (h s g rfl hg)
    rw [hw]
    refine ⟨_, rfl, fun s' a hok => ?_⟩
    obtain ⟨rfl, -⟩ := map_storeStream_ok hok
    exact ⟨s, _, rfl, rfl, hheld⟩

theorem step_some {act : Act} (hclock : e.now.toInt ≤ 2 ^ 62) (hact : act.Modest e.now) (h : AllTimely stream) :
    ∃ stream' answer, step e stream act = some (stream', answer) ∧ AllTimely stream' := by
  cases act with
  | add noMkStream trim id fields =>
      refine ⟨_, _, rfl, ?_⟩
      split
      · exact h
      · next s id hok =>
          intro t ht
          cases ht
          exact h.getD.of_groups ((xadd_inv hok).2.groups)
      · exact h
  | del ids => exact ⟨_, _, rfl, settleCount_timely h fun s s' n hs hok => hs.of_groups (xdel_inv hok).groups⟩
  | trim t => exact ⟨_, _, rfl, settleCount_timely h fun s s' n hs hok => hs.of_groups (xtrim_inv hok).groups⟩
  | setId id =>
      refine ⟨_, _, rfl, settleOk_timely h fun s' hok => ?_⟩
      obtain ⟨s, rfl, -, rfl⟩ := xsetid_inv hok
      exact (h s rfl).of_groups rfl
  | groupCreate group id entriesRead mkStream =>
      refine ⟨_, _, rfl, settleOk_timely h fun s' hok => ?_⟩
      obtain ⟨g, rfl, -, hpending, -⟩ := xgroupCreate_inv hok
      exact h.getD.setGroup (hpending ▸ .empty)
  | groupSetId group id entriesRead =>
      refine ⟨_, _, rfl, settleOk_timely h fun s' hok => ?_⟩
      obtain ⟨s, g, g', rfl, hg, rfl, -, hpending, -⟩ := xgroupSetId_inv hok
      exact (h s rfl).setGroup (hpending ▸ h s rfl group g hg)
  | groupDestroy group =>
      refine ⟨_, _, rfl, settleCount_timely h fun s s' n hs hok => ?_⟩
      rcases xgroupDestroy_inv hok with rfl | rfl
      · intro name g hg
        rw [ExtTreeMap.getElem?_erase] at hg
        split at hg
        · exact nomatch hg
        · exact hs name g hg
      · exact hs
  | groupCreateConsumer group consumer =>
      refine ⟨_, _, rfl, settle_timely h fun s' n hok => ?_⟩
      obtain ⟨s, g, rfl, hg, rfl | ⟨consumers, rfl⟩⟩ := xgroupCreateConsumer_inv hok
      · exact h s' rfl
      · exact (h s rfl).setGroup (h s rfl group g hg)
  | groupDelConsumer group consumer =>
      refine ⟨_, _, rfl, settle_timely h fun s' n hok => ?_⟩
      obtain ⟨s, g, consumers, rfl, hg, rfl⟩ := xgroupDelConsumer_inv hok
      exact (h s rfl).setGroup (h s rfl group g hg).filter
  | ack group ids =>
      refine ⟨_, _, rfl, settleCount_timely h fun s s' n hs hok => ?_⟩
      obtain rfl | ⟨g, hg, rfl⟩ := xack_inv hok
      · exact hs
      · exact hs.setGroup (hs group g hg).ackAll
  | readNew group consumer limit noack =>
      refine ⟨_, _, rfl, settle_timely h fun s' new hok => ?_⟩
      obtain ⟨s, g, rfl, hg, -, ⟨rfl, -⟩ | ⟨g', rfl, hread⟩⟩ := readNew_inv hok
      · exact h s' rfl
      · apply (h s rfl).setGroup
        rw [hread.pending]
        split
        · exact h s rfl group g hg
        · exact (h s rfl group g hg).deliver (timely_now e.now_nonneg)
  | readOwn group consumer limit after =>
      refine ⟨_, _, rfl, settle_timely h fun s' items hok => ?_⟩
      obtain ⟨s, g, rfl, hg, rfl | ⟨mine, g', rfl, -, -, hpending⟩⟩ := readOwn_inv hok
      · exact h s' rfl
      · apply (h s rfl).setGroup
        rw [hpending]
        exact (h s rfl group g hg).redeliver fun _ _ => timely_now e.now_nonneg
  | pending group idle lo hi count consumer =>
      obtain ⟨r, hr⟩ := @xpending_some _ e group stream idle lo hi count consumer hclock h
      refine ⟨_, _, by rw [step, hr]; rfl, ?_⟩
      cases r <;> exact h
  | claim group consumer minIdle ids opts =>
      obtain ⟨r, hr, hstored⟩ := @xclaim_some _ e group consumer minIdle stream ids opts hclock hact.1 hact.2 h
      exact ⟨_, _, by rw [step, hr]; rfl, settle_timely h fun s a hok => hstored s a hok⟩
  | autoclaim group consumer minIdle start count justId =>
      obtain ⟨r, hr, hstored⟩ := @xautoclaim_some _ e group consumer minIdle stream Timely start count justId
        (fun p hp => ⟨_, since_some e.now_nonneg hclock hp⟩) (fun n => timely_now e.now_nonneg) hact
        fun s g hs hg => h s hs group g hg
      refine ⟨_, _, by rw [step, hr]; rfl, settle_timely h fun s' a hok => ?_⟩
      obtain ⟨s, g', rfl, rfl, hheld⟩ := hstored s' a hok
      exact (h s rfl).setGroup hheld

theorem run_some {acts : List (Env × Act)} (h : AllTimely stream) (hclock : ∀ x ∈ acts, x.1.now.toInt ≤ 2 ^ 62)
    (hacts : ∀ x ∈ acts, x.2.Modest x.1.now) : ∃ r, run acts stream = some r := by
  induction acts generalizing stream with
  | nil => exact ⟨_, rfl⟩
  | cons x acts ih =>
      obtain ⟨stream', answer, hstep, hnext⟩ := step_some (hclock x List.mem_cons_self) (hacts x List.mem_cons_self) h
      obtain ⟨r, hr⟩ := ih hnext (fun y hy => hclock y (List.mem_cons_of_mem _ hy)) fun y hy => hacts y (List.mem_cons_of_mem _ hy)
      refine ⟨(r.1, answer :: r.2), ?_⟩
      rw [run, hstep, Option.bind_eq_bind, Option.bind_some]
      dsimp only
      rw [hr]
      rfl

end

/-- No run of modest commands overflows: none of them ends in a panic, and without the checks the
run is the same, to every reply. -/
theorem run_in_range {acts : List (Env × Act)} (hclock : ∀ x ∈ acts, x.1.now.toInt ≤ 2 ^ 62) (hacts : ∀ x ∈ acts, x.2.Modest x.1.now) :
    ∃ r, @run debug acts none = some r ∧ @run release acts none = some r := by
  obtain ⟨r, hr⟩ := @run_some debug none acts (by rintro _ ⟨⟩) hclock hacts
  exact ⟨r, hr, run_follows acts none r hr⟩

section Samples

/-- An entry that is read for a consumer, and what follows. -/
def afterRead (acts : List Act) : List (Env × Act) :=
  (Act.add false none (.exactly ⟨1, 0⟩) ["task", "a"] :: .groupCreate "workers" (some .zero) none false ::
    .readNew "workers" "bob" 10 false :: acts).map fun act => (claimsEnv, act)

theorem claimsEnv_now : claimsEnv.now.toInt ≤ 2 ^ 62 := by decide

/-- One client dates a delivery to the far past, and the next command that asks how long ago that was
overflows; so do an idle time and a count at the ends of their types. -/
theorem afterRead_overflows :
    (∀ acts, ∀ x ∈ afterRead acts, 0 ≤ x.1.now ∧ x.1.now.toInt ≤ 2 ^ 62) ∧
    @run debug (afterRead [.claim "workers" "ada" 0 [⟨1, 0⟩] [.time Int64.minValue], .pending "workers" 0 .zero .max 10 none]) none = none ∧
    @run debug (afterRead [.claim "workers" "ada" 0 [⟨1, 0⟩] [.idle Int64.minValue]]) none = none ∧
    @run debug (afterRead [.autoclaim "workers" "ada" 0 .zero Int64.maxValue false]) none = none := by
  refine ⟨?_, ?_, ?_, ?_⟩
  · intro acts x hx
    obtain ⟨act, -, rfl⟩ := List.mem_map.mp hx
    exact ⟨claimsEnv.now_nonneg, claimsEnv_now⟩
  · exact Option.isNone_iff_eq_none.mp (by decide)
  · exact Option.isNone_iff_eq_none.mp (by decide)
  · exact Option.isNone_iff_eq_none.mp (by decide)

theorem afterRead_in_range : ∃ r,
    @run debug (afterRead [.claim "workers" "ada" 0 [⟨1, 0⟩] [.time 5, .justId], .autoclaim "workers" "bob" 900 .zero 10 false]) none = some r ∧
    @run release (afterRead [.claim "workers" "ada" 0 [⟨1, 0⟩] [.time 5, .justId], .autoclaim "workers" "bob" 900 .zero 10 false]) none =
      some r := by
  apply run_in_range
  · intro x hx
    obtain ⟨act, -, rfl⟩ := List.mem_map.mp hx
    exact claimsEnv_now
  · intro x hx
    simp only [afterRead, List.map_cons, List.map_nil, List.mem_cons, List.not_mem_nil, or_false] at hx
    rcases hx with rfl | rfl | rfl | rfl | rfl
    · trivial
    · trivial
    · trivial
    · refine ⟨fun n hn => ?_, fun d hd => ?_⟩
      · simp at hn
      · cases hd
        decide
    · have hten : (10 : Int64).toInt * 10 < 2 ^ 64 := by decide
      exact hten

end Samples

end KivaDb.Streams
