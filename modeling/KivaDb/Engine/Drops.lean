import KivaDb.Engine.Batch
import KivaDb.Lib.Fallible

namespace KivaDb

open Lib.Fallible Glob Relation

theorem Entry.isExpired_mono {e : Entry} {t t' : Int64} (ht : t ≤ t') (h : e.isExpired t = true) :
    e.isExpired t' = true := by
  simp only [Entry.isExpired, Bool.and_eq_true, decide_eq_true_eq] at h ⊢
  exact ⟨h.1, Int64.le_trans h.2 ht⟩

variable [External] [Chrono] [Vectors]

/-- A key whose TTL has elapsed at `now` is dropped. -/
inductive Drop (now : Int64) : Inner → Inner → Prop
  | key {i : Inner} {key : String} {e : Entry} (he : i.index[key]? = some e) (hx : e.isExpired now = true) :
      Drop now i (i.idxRemove key)

theorem Drop.mono {t t' : Int64} {i i' : Inner} (ht : t ≤ t') (h : Drop t i i') : Drop t' i i' := by
  obtain ⟨he, hx⟩ := h
  exact .key he (Entry.isExpired_mono ht hx)

namespace Inner

theorem idxRemove_eq {i : Inner} {key : String} {e : Entry} (he : i.index[key]? = some e) :
    i.idxRemove key =
      { i with
        table := i.table.remove key
        sec := i.sec.map (·.remove key)
        vecs := i.vecs.map fun v => Vectors.remove v key } := by
  simp [idxRemove, he]

theorem idxRemove_frame (i : Inner) (key : String) :
    i.idxRemove key =
      { i with
        table := (i.idxRemove key).table
        sec := (i.idxRemove key).sec
        vecs := (i.idxRemove key).vecs } := by
  unfold idxRemove
  split <;> rfl

theorem getElem?_idxRemove (i : Inner) (key k : String) :
    (i.idxRemove key).index[k]? = if key = k then none else i.index[k]? := by
  cases he : i.index[key]? with
  | none =>
      have hr : i.idxRemove key = i := by simp [idxRemove, he]
      rw [hr]
      split
      · rename_i hk
        rw [← hk, he]
      · rfl
  | some e =>
      rw [idxRemove_eq he]
      exact Table.getElem?_erase i.table.index key k

/-- What the index says of `key` at `now`: an entry whose TTL has elapsed says
nothing. -/
def at? (i : Inner) (key : String) (now : Int64) : Option Entry := (i.index[key]?).filter fun e => ¬ e.isExpired now

theorem at?_idxRemove {i : Inner} {key : String} {e : Entry} {now : Int64} (he : i.index[key]? = some e)
    (hx : e.isExpired now = true) (k : String) : (i.idxRemove key).at? k now = i.at? k now := by
  rw [at?, at?, getElem?_idxRemove]
  split
  · rename_i hk
    simp [← hk, he, hx, Option.filter]
  · rfl

end Inner

namespace Drop

variable {now : Int64} {i i' : Inner}

theorem cases (h : Drop now i i') :
    ∃ key e, i.index[key]? = some e ∧ e.isExpired now = true ∧ i' = i.idxRemove key := by
  obtain ⟨he, hx⟩ := h
  exact ⟨_, _, he, hx, rfl⟩

/-- Everything but what is listed of the keys stays as it was. -/
theorem frame (h : Drop now i i') : i' = { i with table := i'.table, sec := i'.sec, vecs := i'.vecs } := by
  obtain ⟨he, hx⟩ := h
  rw [Inner.idxRemove_eq he]

theorem frame_star (h : ReflTransGen (Drop now) i i') :
    i' = { i with table := i'.table, sec := i'.sec, vecs := i'.vecs } := by
  induction h with
  | refl => rfl
  | tail hab hbc ih => rw [hbc.frame, ih]

/-- No key that is live at `now` or later is touched. -/
theorem at?_star (h : ReflTransGen (Drop now) i i') {t : Int64} (ht : now ≤ t) (k : String) :
    i'.at? k t = i.at? k t := by
  induction h with
  | refl => rfl
  | tail hab hbc ih =>
      obtain ⟨he, hx⟩ := hbc
      rw [Inner.at?_idxRemove he (Entry.isExpired_mono ht hx), ih]

/-- A key is as it was, or is gone because its TTL had elapsed. -/
theorem index_star (h : ReflTransGen (Drop now) i i') (k : String) :
    i'.index[k]? = i.index[k]? ∨
      i'.index[k]? = none ∧ ∃ e, i.index[k]? = some e ∧ e.isExpired now = true := by
  induction h with
  | refl => exact .inl rfl
  | tail hab hbc ih =>
      obtain ⟨key, e, he, hx, rfl⟩ := hbc.cases
      rw [Inner.getElem?_idxRemove]
      split
      · rename_i hk
        subst hk
        refine .inr ⟨rfl, e, ?_, hx⟩
        rcases ih with ih | ih
        · rw [← ih, he]
        · rw [ih.1] at he
          exact absurd he (by simp)
      · exact ih

theorem mono_star {t t' : Int64} (ht : t ≤ t') (h : ReflTransGen (Drop t) i i') : ReflTransGen (Drop t') i i' :=
  ReflTransGen.mono (fun _ _ hd => Drop.mono ht hd) _ _ h

end Drop

theorem Lib.Fallible.Within.later {α : Type} {t t' : Int64} (ht : t ≤ t') {m : M α} (h : Within (Drop t) m) :
    Within (Drop t') m := fun s => Drop.mono_star ht (h s)

theorem dropExpired_drops (i : Inner) (key : String) (now : Int64) :
    ReflTransGen (Drop now) i (i.dropExpired key now) := by
  unfold Inner.dropExpired
  split
  · rename_i e he
    split
    · rename_i hx
      exact .single (.key he hx)
    · exact .refl
  · exact .refl

theorem live_eq (key : String) (now : Int64) (i : Inner) :
    live key now i = .ok (i.at? key now) (i.dropExpired key now) := rfl

theorem getElem?_dropExpired (i : Inner) (key : String) (now : Int64) :
    (i.dropExpired key now).index[key]? = i.at? key now := by
  unfold Inner.dropExpired Inner.at?
  cases he : i.index[key]? with
  | none => simp [he]
  | some e =>
      by_cases hx : e.isExpired now = true
      · simp [hx, Inner.getElem?_idxRemove, Option.filter]
      · simp [hx, he, Option.filter]

theorem within_live (key : String) (now : Int64) : Within (Drop now) (live key now) := by
  intro i
  rw [left_of_ok (live_eq key now i)]
  exact dropExpired_drops i key now

namespace Lib.Fallible.Within

variable {r : Inner → Inner → Prop} {now : Int64}

theorem refuse (res : Result Unit) : Within r (refuse res) := by
  cases res with
  | ok u => exact .pure ()
  | error e => exact .throw e

theorem attempt {α : Type} (res : Result α) : Within r (attempt res) := by
  cases res with
  | ok a => exact .pure a
  | error e => exact .throw e

theorem checkConflict (beginSeq : Option Nat) (ops : List BatchOp) : Within r (checkConflict beginSeq ops) := by
  cases beginSeq with
  | none => exact .pure _
  | some b => exact .bind .get fun i => refuse _

theorem changed {ws : List WatchedKey} (h : ∀ w ∈ ws, Within r (live w.key now)) : Within r (changed now ws) := by
  induction ws with
  | nil => exact .pure _
  | cons w ws ih =>
      have ih' := ih fun v hv => h v (List.mem_cons_of_mem w hv)
      refine .bind .get fun i => ?_
      split
      · exact .pure _
      · split
        · refine .bind (h w List.mem_cons_self) fun e => ?_
          split
          · exact .pure _
          · exact ih'
        · exact ih'

theorem existsNow {key : String} (h : Within r (live key now)) (shadow : Std.ExtTreeMap String Bool compare) :
    Within r (existsNow shadow key now) := by
  unfold KivaDb.existsNow
  split
  · exact .pure _
  · exact .bind h fun _ => .pure _

theorem checkWatched {watched : Option (List WatchedKey)} (h : ∀ ws ∈ watched, ∀ w ∈ ws, Within r (live w.key now)) :
    Within r (checkWatched watched now) := by
  cases watched with
  | none => exact .pure _
  | some ws =>
      refine .bind (changed (h ws rfl)) fun key => ?_
      cases key with
      | none => exact .pure _
      | some key => exact .throw _

variable [Codec]

theorem conformed {key : String} (h : Within r (live key now)) (value : Value) (at_ : Int64) :
    Within r (conformed key value at_ now) := by
  unfold KivaDb.conformed
  refine .bind .get fun i => ?_
  dsimp only
  split
  · exact .pure _
  · split
    · exact .pure _
    · refine .bind h fun e => ?_
      cases e with
      | none => exact .throw _
      | some e =>
          refine .bind .get fun i => ?_
          split
          · split
            · exact .pure _
            · exact .throw _
          · exact .throw _

theorem conformAll {ops : List BatchOp} (h : ∀ op ∈ ops, Within r (live op.key now)) (at_ : Int64) :
    Within r (conformAll at_ now ops) := by
  induction ops with
  | nil => exact .pure _
  | cons op ops ih =>
      have ih' := ih fun p hp => h p (List.mem_cons_of_mem op hp)
      cases op with
      | put key value expiresAt msgpack =>
          exact .bind (conformed (h _ List.mem_cons_self) value at_) fun v => .bind ih' fun _ => .pure _
      | del key => exact .bind ih' fun _ => .pure _

theorem conformBatch {ops : List BatchOp} (h : ∀ op ∈ ops, Within r (live op.key now)) (at_ : Int64) :
    Within r (conformBatch at_ now ops) := by
  refine .bind .get fun i => ?_
  split
  · exact .pure _
  · exact conformAll h at_

theorem checkLast (ops : List BatchOp) (t : Int64) : Within r (checkLast ops t) := by
  refine .bind .get fun i => ?_
  split
  · exact .bind .get fun _ => refuse _
  · exact .pure _

theorem stage {ops : List BatchOp} (h : ∀ op ∈ ops, Within r (live op.key now)) (ts : Int64)
    (draws : Nat → Crypt.Draw) (n : Nat) (st : Staging) : Within r (stage now ts draws n ops st) := by
  induction ops generalizing n st with
  | nil => exact .pure _
  | cons op ops ih =>
      have ih' := ih fun p hp => h p (List.mem_cons_of_mem op hp)
      have hop := h op List.mem_cons_self
      cases op with
      | put key value expiresAt msgpack =>
          exact .bind .get fun i => .bind (.attempt _) fun _ =>
            .bind (existsNow hop _) fun found => .bind .get fun _ => ih' _ _
      | del key =>
          refine .bind (existsNow hop _) fun found => ?_
          split
          · exact .bind .get fun i => .bind (.attempt _) fun _ => ih' _ _
          · exact ih' _ _

end Lib.Fallible.Within

variable [Codec]

/-- Filling in defaults changes nothing of an operation but its value. -/
theorem conformAll_map {α : Type} {f : BatchOp → α} (hf : ∀ k v v' ex m, f (.put k v ex m) = f (.put k v' ex m))
    {at_ now : Int64} {ops ops' : List BatchOp} {i i' : Inner} (h : conformAll at_ now ops i = .ok ops' i') :
    ops'.map f = ops.map f := by
  induction ops generalizing i ops' with
  | nil =>
      obtain ⟨rfl, rfl⟩ := pure_ok.mp h
      rfl
  | cons op ops ih =>
      cases op with
      | put key value ex msgpack =>
          obtain ⟨v, j, -, h⟩ := bind_ok.mp h
          obtain ⟨rest, k, hr, h⟩ := bind_ok.mp h
          obtain ⟨rfl, rfl⟩ := pure_ok.mp h
          rw [List.map_cons, List.map_cons, ih hr, hf key _ value]
      | del key =>
          obtain ⟨rest, k, hr, h⟩ := bind_ok.mp h
          obtain ⟨rfl, rfl⟩ := pure_ok.mp h
          rw [List.map_cons, List.map_cons, ih hr]

theorem conformBatch_map {α : Type} {f : BatchOp → α} (hf : ∀ k v v' ex m, f (.put k v ex m) = f (.put k v' ex m))
    {at_ now : Int64} {ops ops' : List BatchOp} {i i' : Inner} (h : conformBatch at_ now ops i = .ok ops' i') :
    ops'.map f = ops.map f := by
  obtain ⟨j, _, hg, h⟩ := bind_ok.mp h
  obtain ⟨rfl, rfl⟩ := get_ok.mp hg
  split at h
  · obtain ⟨rfl, rfl⟩ := pure_ok.mp h
    rfl
  · exact conformAll_map hf h

theorem checkBatch_map {α : Type} {f : BatchOp → α} (hf : ∀ k v v' ex m, f (.put k v ex m) = f (.put k v' ex m))
    {ops ops' : List BatchOp} {beginSeq : Option Nat} {watched : Option (List WatchedKey)} {clock : Clock}
    {i i' : Inner} (h : checkBatch ops beginSeq watched clock i = .ok ops' i') : ops'.map f = ops.map f := by
  obtain ⟨_, i₁, -, h⟩ := bind_ok.mp h
  obtain ⟨_, i₂, -, h⟩ := bind_ok.mp h
  obtain ⟨ops₁, i₃, hb, h⟩ := bind_ok.mp h
  obtain ⟨_, i₄, -, h⟩ := bind_ok.mp h
  obtain ⟨rfl, rfl⟩ := pure_ok.mp h
  exact conformBatch_map hf hb

/-- Looking at a key of the batch, or at a watched one, moves the state by steps
of `r`. -/
structure Looks (r : Inner → Inner → Prop) (ops : List BatchOp) (watched : Option (List WatchedKey)) (clock : Clock) :
    Prop where
  ops : ∀ op ∈ ops, ∀ n ≤ 2, Within r (live op.key (clock.now n))
  watched : ∀ ws ∈ watched, ∀ w ∈ ws, Within r (live w.key (clock.now 0))

section

variable {r : Inner → Inner → Prop} {ops : List BatchOp} {watched : Option (List WatchedKey)} {clock : Clock}

theorem Looks.checkBatch (h : Looks r ops watched clock) (beginSeq : Option Nat) :
    Within r (checkBatch ops beginSeq watched clock) :=
  .bind (.checkWatched h.watched) fun _ => .bind (.checkConflict beginSeq ops) fun _ =>
    .bind (.conformBatch (fun op hop => h.ops op hop 2 (by omega)) _) fun _ => .bind (.checkLast _ _) fun _ => .pure _

/-- Before its records are appended, a batch does nothing but look at keys. -/
theorem Looks.stageBatch (h : Looks r ops watched clock) (beginSeq : Option Nat) (draws : Nat → Crypt.Draw) :
    Within r (stageBatch ops beginSeq watched clock draws) := by
  refine .bind_of (h.checkBatch beginSeq) fun i ops' i' hc => ?_
  have hkeys := checkBatch_map (f := BatchOp.key) (fun _ _ _ _ _ => rfl) hc
  refine .bind (.stage (fun op hop => ?_) _ draws 0 _) fun st => ?_
  · have hm : op.key ∈ ops.map BatchOp.key := hkeys ▸ List.mem_map_of_mem hop
    obtain ⟨op₀, hop₀, hk⟩ := List.mem_map.mp hm
    exact hk ▸ h.ops op₀ hop₀ 0 (by omega)
  · split
    · exact .pure _
    · exact .bind .get fun _ => .bind (.refuse _) fun _ => .pure _

end

section

variable (ops : List BatchOp) (beginSeq : Option Nat) (watched : Option (List WatchedKey)) (clock : Clock)

omit [Codec] in
theorem looks_drop : Looks (Drop (clock.now 2)) ops watched clock where
  ops op _ n hn := (within_live op.key _).later (clock.mono n 2 hn)
  watched _ _ w _ := (within_live w.key _).later (clock.mono 0 2 (by omega))

theorem within_checkBatch : Within (Drop (clock.now 2)) (checkBatch ops beginSeq watched clock) :=
  (looks_drop ops watched clock).checkBatch beginSeq

/-- Whatever a batch is refused for before its records are appended, it leaves
the state as it was, but for keys whose TTL had elapsed. -/
theorem within_stageBatch (draws : Nat → Crypt.Draw) :
    Within (Drop (clock.now 2)) (stageBatch ops beginSeq watched clock draws) :=
  (looks_drop ops watched clock).stageBatch beginSeq draws

end

end KivaDb
