import KivaDb.Repl.Stream
import KivaDb.Lib.Fallible
import KivaDb.Lib.Runs
import KivaDb.Agree

namespace KivaDb.Repl

open Lib.LittleEndian Lib.Utf8 Format

theorem Item.isExpired_mono {it : Item} {t t' : Int64} (ht : t ≤ t') (h : it.isExpired t = true) :
    it.isExpired t' = true := by
  simp only [isExpired, Bool.and_eq_true, decide_eq_true_eq] at *
  exact ⟨h.1, Int64.le_trans h.2 ht⟩

/-- The key an operation is about; none when it is about all of them. -/
def Op.key? : Op → Option String
  | .set key .. => some key
  | .del key => some key
  | .reset => none

/-- The operation is about that key. -/
def Op.touches (op : Op) (k : String) : Bool := (Op.key? op).all (· = k)

/-- What the keys it is about hold after the operation. -/
def Op.leaves : Op → Option Item
  | .set _ ty raw enc timestamp expiresAt _ => some ⟨ty, raw, enc, timestamp, expiresAt⟩
  | .del _ => none
  | .reset => none

theorem Store.getElem?_insert (s : Store) (key k : String) (it : Item) :
    (s.insert key it)[k]? = if key = k then some it else s[k]? := by
  rw [Std.ExtTreeMap.getElem?_insert]
  simp only [Std.compare_eq_iff_eq]

theorem Store.getElem?_erase (s : Store) (key k : String) : (s.erase key)[k]? = if key = k then none else s[k]? := by
  rw [Std.ExtTreeMap.getElem?_erase]
  simp only [Std.compare_eq_iff_eq]

theorem Store.getElem?_apply (s : Store) (op : Op) (k : String) :
    (s.apply op)[k]? = if Op.touches op k then Op.leaves op else s[k]? := by
  cases op with
  | set key ty raw enc timestamp expiresAt created =>
      simp only [Store.apply, Store.getElem?_insert, Op.touches, Op.key?, Option.all_some, Op.leaves, decide_eq_true_eq]
  | del key => simp only [Store.apply, Store.getElem?_erase, Op.touches, Op.key?, Option.all_some, Op.leaves, decide_eq_true_eq]
  | reset => simp [Store.apply, Op.touches, Op.key?, Op.leaves]

theorem Store.mem_range {s : Store} {now : Int64} {k : String} :
    k ∈ s.range now ↔ ∃ it, s[k]? = some it ∧ it.isExpired now = false := by
  simp only [Store.range, List.mem_map, List.mem_filter, Prod.exists, exists_and_right, exists_eq_right]
  constructor
  · rintro ⟨it, hmem, hex⟩
    exact ⟨it, Std.ExtTreeMap.mem_toList_iff_getElem?_eq_some.mp hmem, by simpa using hex⟩
  · rintro ⟨it, hmem, hex⟩
    exact ⟨it, Std.ExtTreeMap.mem_toList_iff_getElem?_eq_some.mpr hmem, by simpa using hex⟩

theorem Store.nodup_range (s : Store) (now : Int64) : (s.range now).Nodup := by
  rw [Store.range, List.Nodup, List.pairwise_map]
  refine (Std.ExtTreeMap.distinct_keys_toList.filter _).imp fun h heq => h ?_
  rw [heq]
  exact Std.compare_eq_iff_eq.mpr rfl

namespace Disk

theorem store_put (d : Disk) (name n : String) (s : Store) : (d.put name s).store n = if n = name then s else d.store n := by
  rw [Disk.store, Disk.put]
  split
  · rfl
  · rfl

@[simp] theorem store_opened (d : Disk) (name n : String) : (d.opened name).store n = d.store n := by
  rw [Disk.opened, store_put]
  split
  · rename_i h
    rw [h]
  · rfl

theorem store_apply (d : Disk) (name n : String) (op : Op) :
    (d.apply name op).store n = if n = name then (d.store n).apply op else d.store n := by
  rw [Disk.apply, store_put]
  split
  · rename_i h
    rw [h]
  · rfl

end Disk

/-- What a write does to the master. -/
structure Wrote (m : Master) (name : String) (op : Op) (m' : Master) : Prop where
  reaches : m.reaches name = true
  spaces : m'.node.spaces = m.node.spaces
  store : ∀ n, m'.node.disk.store n = if n = name then (m.node.disk.store n).apply op else m.node.disk.store n
  files : ∀ n, n ≠ name → m'.node.disk n = m.node.disk n
  seq : m'.seq = m.seq + 1
  queue : m'.queue = if m.connected then m.queue ++ [.op (m.seq + 1) name op] else m.queue
  acked : m'.acked = m.acked
  phase : m'.phase = m.phase
  opened : m'.opened = (m.openEngine name).opened
  telling : m'.telling = m.telling

theorem Master.write_some {m m' : Master} {name : String} {op : Op} (h : m.write name op = some m') :
    Wrote m name op m' := by
  rw [Master.write] at h
  split at h
  · rename_i hr
    obtain rfl := Option.some.inj h
    have hstore : ∀ n, ((m.node.disk.opened name).apply name op).store n =
        if n = name then (m.node.disk.store n).apply op else m.node.disk.store n := by
      intro n
      rw [Disk.store_apply, Disk.store_opened]
    have hfiles : ∀ n, n ≠ name → (m.node.disk.opened name).apply name op n = m.node.disk n := by
      intro n hn
      simp [Disk.apply, Disk.opened, Disk.put, hn]
    rw [Master.send]
    split
    · rename_i hc
      exact ⟨hr, rfl, hstore, hfiles, rfl, (if_pos hc).symm, rfl, rfl, rfl, rfl⟩
    · rename_i hc
      exact ⟨hr, rfl, hstore, hfiles, rfl, (if_neg hc).symm, rfl, rfl, rfl, rfl⟩
  · cases h

variable [Chrono] [Codec]

/-- What a replica stores of an item. -/
def recode (key : String) (it : Item) : Option Item :=
  (putRaw key { it with expiresAt := expiryToMs it.expiresAt }).toOption

omit [Chrono] [Codec] in
theorem ensure_disk {n n' : Node} {name : String} (h : n.ensure name = .ok n') : n'.disk = n.disk := by
  rw [Node.ensure] at h
  split at h
  · cases h
    rfl
  · split at h
    · cases h
      rfl
    · cases h

omit [Chrono] [Codec] in
theorem ensureAll_disk {names : List String} {n n' : Node} (h : names.foldlM Node.ensure n = .ok n') : n'.disk = n.disk := by
  induction names generalizing n with
  | nil =>
      cases h
      rfl
  | cons name names ih =>
      rw [List.foldlM_cons] at h
      obtain ⟨m, he, hm⟩ := Lib.Fallible.except_bind_ok.mp h
      rw [ih hm, ensure_disk he]

/-- What the key `k` of the engine `n` holds after a frame, `old` before it. -/
def Frame.leaves (f : Frame) (engine n k : String) (old : Option Item) : Option Item :=
  match f with
  | .snapBegin => if n = defaultName then none else old
  | .set _ key it => if n = engine ∧ key = k then recode key it else old
  | .del _ key => if n = engine ∧ key = k then none else old
  | .reset _ => if n = engine then none else old
  | _ => old

omit [Chrono] [Codec] in
/-- The engine a frame leaves the replica in. -/
def Frame.enters (f : Frame) (engine : String) : String :=
  match f with
  | .snapBegin => defaultName
  | .use name => name
  | _ => engine

omit [Chrono] [Codec] in
/-- What a frame makes the replica acknowledge. -/
def Frame.acks : Frame → Option Nat
  | .set seq _ _ => applied seq
  | .del seq _ => applied seq
  | .reset seq => applied seq
  | .snapEnd seq => some seq
  | _ => none

/-- What a frame does to the replica. -/
theorem follow_ok {r r' : Replica} {f : Frame} {a : Option Nat} (h : follow r f = .ok (r', a)) :
    (∀ n k, (r'.node.disk.store n)[k]? = f.leaves r.engine n k (r.node.disk.store n)[k]?) ∧
      r'.engine = f.enters r.engine ∧ a = f.acks := by
  cases f with
  | snapBegin =>
      cases h
      refine ⟨fun n k => ?_, rfl, rfl⟩
      simp only [Disk.store_put, Frame.leaves]
      split <;> simp
  | workspaces names =>
      simp only [follow] at h
      obtain ⟨m, he, hm⟩ := Lib.Fallible.except_bind_ok.mp h
      cases hm
      refine ⟨fun n k => ?_, rfl, rfl⟩
      show (m.disk.store n)[k]? = (r.node.disk.store n)[k]?
      rw [ensureAll_disk he]
  | use name =>
      simp only [follow] at h
      split at h
      · cases h
        exact ⟨fun n k => rfl, rfl, rfl⟩
      · obtain ⟨m, he, hm⟩ := Lib.Fallible.except_bind_ok.mp h
        cases hm
        refine ⟨fun n k => ?_, rfl, rfl⟩
        simp only [Disk.store_opened, ensure_disk he, Frame.leaves]
  | wsRemove name =>
      cases h
      refine ⟨fun n k => ?_, ?_, rfl⟩
      · split <;> rfl
      · split <;> rfl
  | set seq key it =>
      simp only [follow] at h
      obtain ⟨it', hp, hm⟩ := Lib.Fallible.except_bind_ok.mp h
      cases hm
      refine ⟨fun n k => ?_, rfl, rfl⟩
      have hre : recode key it = some it' := by rw [recode, hp]; rfl
      simp only [Disk.store_put, Frame.leaves]
      by_cases hn : n = r.engine
      · subst hn
        simp only [if_true, Store.getElem?_insert, hre, true_and]
      · simp [hn]
  | del seq key =>
      cases h
      refine ⟨fun n k => ?_, rfl, rfl⟩
      simp only [Disk.store_put, Frame.leaves]
      by_cases hn : n = r.engine
      · subst hn
        simp only [if_true, Store.getElem?_erase, true_and]
      · simp [hn]
  | reset seq =>
      cases h
      refine ⟨fun n k => ?_, rfl, rfl⟩
      simp only [Disk.store_put, Frame.leaves]
      split <;> simp
  | snapEnd seq =>
      cases h
      exact ⟨fun n k => rfl, rfl, rfl⟩

/-- The frame of an operation does on the replica what the operation did. -/
theorem leaves_frame (seq : Nat) (op : Op) (engine n k : String) (old : Option Item) :
    (Op.frame seq op).leaves engine n k old =
      if n = engine ∧ Op.touches op k = true then (Op.leaves op).bind (recode k) else old := by
  cases op with
  | set key ty raw enc timestamp expiresAt created =>
      simp only [Op.frame, Frame.leaves, Op.touches, Op.key?, Option.all_some, Op.leaves, decide_eq_true_eq, Option.bind_some]
      by_cases hn : n = engine ∧ key = k
      · rw [if_pos hn, if_pos hn, hn.2]
      · rw [if_neg hn, if_neg hn]
  | del key => simp [Op.frame, Frame.leaves, Op.touches, Op.key?, Op.leaves]
  | reset => simp [Op.frame, Frame.leaves, Op.touches, Op.key?, Op.leaves]

omit [Chrono] [Codec] in
@[simp] theorem enters_frame (seq : Nat) (op : Op) (engine : String) : (Op.frame seq op).enters engine = engine := by
  cases op <;> rfl

omit [Chrono] [Codec] in
theorem acks_frame {seq : Nat} (hs : 0 < seq) (op : Op) : (Op.frame seq op).acks = some seq := by
  cases op <;> simp [Op.frame, Frame.acks, applied, hs]

/-- The replica once frames have reached it, if it can apply them. -/
def arrives (r : Replica) : List Frame → Option Replica
  | [] => some r
  | f :: fs =>
      match follow r f with
      | .ok (r, _) => arrives r fs
      | .error _ => none

theorem arrives_append {r r' : Replica} {fs gs : List Frame} :
    arrives r (fs ++ gs) = some r' ↔ ∃ q, arrives r fs = some q ∧ arrives q gs = some r' := by
  induction fs generalizing r with
  | nil => simp [arrives]
  | cons f fs ih =>
      rw [List.cons_append, arrives, arrives]
      cases follow r f with
      | error e => simp
      | ok p => exact ih

theorem arrives_cons {r r' : Replica} {f : Frame} {a : Option Nat} (h : follow r f = .ok (r', a)) (fs : List Frame) :
    arrives r (f :: fs) = arrives r' fs := by
  rw [arrives, h]

theorem arrives_one {r r' : Replica} {f : Frame} : arrives r [f] = some r' ↔ ∃ a, follow r f = .ok (r', a) := by
  rw [arrives]
  cases h : follow r f with
  | error e => simp
  | ok p =>
      obtain ⟨q, a⟩ := p
      simp [arrives]

end KivaDb.Repl
