import KivaDb.Engine.Commits
import KivaDb.Engine.Maintain
import KivaDb.Engine.Moves

namespace KivaDb

open Lib.LittleEndian Lib.Fallible Crypt Relation

section

variable [External] [Chrono] [Vectors]

/-- A key of `K` whose TTL has elapsed at `now` is dropped. -/
inductive DropOf (K : String → Prop) (now : Int64) : Inner → Inner → Prop
  | key {i : Inner} {key : String} {e : Entry} (hk : K key) (he : i.index[key]? = some e)
      (hx : e.isExpired now = true) : DropOf K now i (i.idxRemove key)

namespace DropOf

variable {K : String → Prop} {now : Int64} {i i' : Inner}

theorem mono {t : Int64} (ht : now ≤ t) (h : DropOf K now i i') : DropOf K t i i' := by
  obtain ⟨hk, he, hx⟩ := h
  exact .key hk he (Entry.isExpired_mono ht hx)

theorem drop_star (h : ReflTransGen (DropOf K now) i i') : ReflTransGen (Drop now) i i' := by
  refine ReflTransGen.mono (fun a b hab => ?_) _ _ h
  obtain ⟨hk, he, hx⟩ := hab
  exact .key he hx

theorem frame_star (h : ReflTransGen (DropOf K now) i i') :
    i' = { i with table := i'.table, sec := i'.sec, vecs := i'.vecs } := Drop.frame_star (drop_star h)

/-- A key is as it was, or is one of `K` and is gone because its TTL had
elapsed. -/
theorem index_star (h : ReflTransGen (DropOf K now) i i') (k : String) :
    i'.index[k]? = i.index[k]? ∨
      i'.index[k]? = none ∧ K k ∧ ∃ e, i.index[k]? = some e ∧ e.isExpired now = true := by
  induction h with
  | refl => exact .inl rfl
  | tail hab hbc ih =>
      obtain ⟨hk, he, hx⟩ := hbc
      rename_i key e
      rw [Inner.getElem?_idxRemove]
      split
      · rename_i hkk
        subst hkk
        rcases ih with ih | ih
        · exact .inr ⟨rfl, hk, e, ih ▸ he, hx⟩
        · exact .inr ⟨rfl, ih.2⟩
      · exact ih

end DropOf

theorem Lib.Fallible.Within.by_ {α : Type} {K : String → Prop} {now t : Int64} (ht : now ≤ t) {m : M α}
    (h : Within (DropOf K now) m) : Within (DropOf K t) m :=
  fun s => ReflTransGen.mono (fun _ _ hd => DropOf.mono ht hd) _ _ (h s)

theorem dropExpired_of {K : String → Prop} {key : String} (hk : K key) (i : Inner) (now : Int64) :
    ReflTransGen (DropOf K now) i (i.dropExpired key now) := by
  unfold Inner.dropExpired
  split
  · rename_i e he
    split
    · rename_i hx
      exact .single (.key hk he hx)
    · exact .refl
  · exact .refl

theorem looks_live {K : String → Prop} {key : String} (hk : K key) (now : Int64) :
    Within (DropOf K now) (live key now) := by
  intro i
  rw [left_of_ok (live_eq key now i)]
  exact dropExpired_of hk i now

theorem looks_all {α : Type} {now : Int64} {m : M α} (h : Within (Drop now) m) :
    Within (DropOf (fun _ => True) now) m := by
  intro i
  refine ReflTransGen.mono (fun a b hab => ?_) _ _ (h i)
  obtain ⟨he, hx⟩ := hab
  exact .key trivial he hx

theorem looks_watchAll {K : String → Prop} {keys : List String} (hk : ∀ k ∈ keys, K k) (now : Int64) (since : Nat) :
    Within (DropOf K now) (watchAll now since keys) := by
  induction keys with
  | nil => exact .pure _
  | cons k ks ih =>
      exact .bind (looks_live (hk k List.mem_cons_self) now) fun _ =>
        .bind (ih fun k' hk' => hk k' (List.mem_cons_of_mem k hk')) fun _ => .pure _

variable [Codec]

/-- What a call of the engine comes to: keys of `K` whose TTL has elapsed by `t`
are dropped, and then records may be appended and applied. -/
def Acts {α : Type} (K : String → Prop) (t : Int64) (m : M α) : Prop :=
  ∀ i, ∃ j, ReflTransGen (DropOf K t) i j ∧ (left m i = j ∨ ∃ recs, left m i = j.commit recs)

namespace Acts

variable {α β : Type} {K : String → Prop} {t : Int64}

theorem of_within {m : M α} (h : Within (DropOf K t) m) : Acts K t m := fun i => ⟨left m i, h i, .inl rfl⟩

theorem bind {m : M α} {f : α → M β} (hm : Within (DropOf K t) m) (hf : ∀ a, Acts K t (f a)) : Acts K t (m >>= f) := by
  intro i
  cases h : m i with
  | ok a j =>
      obtain ⟨j', hd, hj'⟩ := hf a j
      rw [left_bind_ok h]
      exact ⟨j', (hm.ok h).trans hd, hj'⟩
  | error e j =>
      rw [left_bind_error h]
      exact ⟨j, hm.error h, .inl rfl⟩

theorem bind_pure {m : M α} (hm : Acts K t m) (g : α → β) : Acts K t (m >>= fun a => pure (g a)) := by
  intro i
  rw [left_bind_pure]
  exact hm i

end Acts

end

section

variable [External] [Chrono] [Vectors] [Codec] {key : String} {t now ts ex : Int64} {nonce : Draw}

theorem putLocked_acts (ht : now ≤ t) (value : Value) (msgpack : Bool) :
    Acts (· = key) t (putLocked key value ex msgpack ts now nonce) := by
  intro i
  have hd := ReflTransGen.mono (fun _ _ hd => DropOf.mono ht hd) _ _ (dropExpired_of (K := (· = key)) rfl i now)
  cases h : putLocked key value ex msgpack ts now nonce i with
  | ok created i' =>
      obtain ⟨rec, entry, raw, -, -, -, rfl⟩ := putLocked_ok h
      rw [left_of_ok h]
      exact ⟨_, hd, .inr ⟨_, rfl⟩⟩
  | error err i' =>
      rw [left_of_error h]
      rcases putLocked_error h with rfl | rfl
      · exact ⟨i', .refl, .inl rfl⟩
      · exact ⟨_, hd, .inl rfl⟩

theorem put_acts {clock : Clock} (value : Value) (msgpack : Bool) :
    Acts (· = key) (clock.now 4) (put key value ex msgpack clock nonce) :=
  .bind (.conformed ((looks_live (K := (· = key)) rfl _).by_ (clock.mono 2 4 (by omega))) value _) fun _ =>
    .bind .get fun _ => .bind (.refuse _) fun _ => .bind .get fun _ => .bind .get fun _ => .bind (.refuse _) fun _ =>
      putLocked_acts (Int64.le_refl _) _ msgpack

theorem updateWith_acts {α : Type} {clock : Clock} (f : Value → Result (Option Value × α)) :
    Acts (· = key) (clock.now 5) (updateWith key f clock nonce) := by
  refine .bind ((looks_live (K := (· = key)) rfl _).by_ (clock.mono 0 5 (by omega))) fun e => ?_
  cases e with
  | none => exact .of_within (.pure _)
  | some e =>
      refine .bind .get fun _ => .bind (.attempt _) fun _ => .bind (.attempt _) fun r => ?_
      obtain ⟨new, out⟩ := r
      cases new with
      | none => exact .of_within (.pure _)
      | some new =>
          refine .bind (.conformed ((looks_live (K := (· = key)) rfl _).by_ (clock.mono 2 5 (by omega))) new _) fun _ =>
            .bind .get fun _ => .bind (.refuse _) fun _ => .bind .get fun _ => .bind .get fun _ =>
              .bind (.refuse _) fun _ => .bind_pure (putLocked_acts (Int64.le_refl _) _ _) _

theorem delete_acts {clock : Clock} : Acts (· = key) (clock.now 0) (delete key clock nonce) := by
  intro i
  have hd := dropExpired_of (K := (· = key)) rfl i (clock.now 0)
  cases h : delete key clock nonce i with
  | ok found i' =>
      rw [left_of_ok h]
      obtain ⟨-, -, rfl⟩ | ⟨e, rec, -, -, -, -, rfl⟩ := delete_ok h
      · exact ⟨_, hd, .inl rfl⟩
      · exact ⟨_, hd, .inr ⟨_, rfl⟩⟩
  | error err i' =>
      rw [left_of_error h, delete_error h]
      exact ⟨_, hd, .inl rfl⟩

theorem applyBatchWatched_acts {K : String → Prop} {ops : List BatchOp} {watched : Option (List WatchedKey)}
    (hops : ∀ op ∈ ops, K op.key) (hw : ∀ ws ∈ watched, ∀ w ∈ ws, K w.key) (beginSeq : Option Nat) (clock : Clock)
    (draws : Nat → Draw) : Acts K (clock.now 2) (applyBatchWatched ops beginSeq watched clock draws) := by
  have hlooks : Looks (DropOf K (clock.now 2)) ops watched clock :=
    { ops := fun op hop n hn => (looks_live (hops op hop) _).by_ (clock.mono n 2 hn)
      watched := fun ws hws w hm => (looks_live (hw ws hws w hm) _).by_ (clock.mono 0 2 (by omega)) }
  have hs := hlooks.stageBatch beginSeq draws
  intro i
  cases h : applyBatchWatched ops beginSeq watched clock draws i with
  | ok u i' =>
      rw [left_of_ok h]
      obtain ⟨recs, i₁, hst, hi'⟩ := applyBatchWatched_ok h
      refine ⟨i₁, hs.ok hst, ?_⟩
      rcases hi' with ⟨-, rfl⟩ | ⟨-, -, rfl⟩
      · exact .inl rfl
      · exact .inr ⟨recs, rfl⟩
  | error err i' =>
      rw [left_of_error h, applyBatchWatched_error h]
      exact ⟨_, hs i, .inl rfl⟩

end

end KivaDb
