import KivaDb.Lib.Runs
import KivaDb.Resp.Calm

namespace KivaDb

open Lib.LittleEndian Lib.Utf8 Lib.Fallible Lib.Ignoring

variable [External] [Chrono] [Codec] [Vectors]

omit [Codec] in
theorem watchAll_keys (now : Int64) (since : Nat) (keys : List String) (i : Inner) :
    ∃ ws j, watchAll now since keys i = .ok ws j ∧ ws.map WatchedKey.key = keys := by
  induction keys generalizing i with
  | nil => exact ⟨[], i, rfl, rfl⟩
  | cons k ks ih =>
      obtain ⟨ws, j, hws, hkeys⟩ := ih (i.dropExpired k now)
      refine ⟨⟨k, since, (i.at? k now).isSome⟩ :: ws, j, ?_, by rw [List.map_cons, hkeys]⟩
      simp only [watchAll, bind, EStateM.bind, live_eq, hws]
      rfl

namespace Front

/-- The session watches what it watched. -/
def Site.SameWatch (s t : Site) : Prop := t.sess.watch = s.sess.watch

omit [Codec] in
theorem sameWatch_star {s t : Site} (h : Relation.ReflTransGen Site.SameWatch s t) : t.sess.watch = s.sess.watch := by
  induction h with
  | refl => rfl
  | tail _ hstep ih => exact hstep.trans ih

omit [Codec] in
theorem sameWatch_of_ignores {α : Type} {m : S α} (hm : ∀ w, Ignores (Site.watching w) m) : Within Site.SameWatch m := by
  intro s
  have hfixed := (hm s.sess.watch s).fixed (rfl : s.watching s.sess.watch = s)
  have hwatch : ((left m s).watching s.sess.watch).sess.watch = (left m s).sess.watch := by rw [hfixed]
  exact .single hwatch.symm

omit [Codec] in
theorem outcome_within {α : Type} {r : Site → Site → Prop} {m : S α} (hm : Within r m) : Within r (outcome m) := by
  intro s
  have hs := hm s
  unfold left at hs
  unfold left outcome
  cases h : m s with
  | ok a t => rwa [h] at hs
  | error e t => rwa [h] at hs

theorem commit_sameWatch : Within Site.SameWatch commit := by
  have hset (f : Session → Session) (hf : ∀ s, (f s).watch = s.watch) : Within Site.SameWatch (setSession f) :=
    fun s => .single (hf s.sess)
  have hpause : Within Site.SameWatch pause := sameWatch_of_ignores pause_watching
  have hengine {α : Type} (ws : String) (m : M α) : Within Site.SameWatch (onEngine ws m) :=
    sameWatch_of_ignores fun w => onEngine_watching w ws m
  have hrequire (r : Result Unit) : Within Site.SameWatch (require r) := sameWatch_of_ignores fun w => require_watching w r
  have hroom (txn : Txn) : Within Site.SameWatch (commitRoom txn) :=
    hpause.bind fun m => Within.get.bind fun s => (hrequire _).bind fun _ => (hengine _ _).bind fun _ => Within.pure _
  have hops (txn : Txn) (same : Option (List WatchedKey)) (other : Option String) :
      Within Site.SameWatch (commitOps txn same other) := by
    refine (hroom txn).bind fun ws => ?_
    cases other with
    | some key => exact Within.throw _
    | none => exact hpause.bind fun m => hengine _ _
  have hwatched (s : Session) : Within Site.SameWatch (watchedOf s) := by
    refine hpause.bind fun m => ?_
    split
    · exact Within.pure _
    · split
      · exact Within.pure _
      · exact (hengine _ _).bind fun _ => Within.pure _
  refine Within.get.bind fun s => ?_
  dsimp only
  split
  · exact Within.throw _
  · refine Within.bind (hset _ fun _ => rfl) fun _ => (hwatched _).bind fun r => ?_
    refine (outcome_within (hops _ _ _)).bind fun res => (hpause.bind fun _ => hengine _ _).bind fun _ => ?_
    cases res with
    | error e => exact Within.throw e
    | ok u => exact Within.bind (hset _ fun _ => rfl) fun _ => Within.pure _

omit [Codec] in
theorem onEngine_watch (ws : String) (keys : List String) (now : Int64) (s : Site) :
    ∃ w i, onEngine ws (watch keys now) s = .ok w (s.set ws i) ∧ w.map WatchedKey.key = keys := by
  obtain ⟨w, i, hw, hkeys⟩ := watchAll_keys now (s.server.engines ws).seq keys
    { s.server.engines ws with activeTxns := (s.server.engines ws).activeTxns + 1 }
  refine ⟨w, i, ?_, hkeys⟩
  unfold onEngine
  rw [show watch keys now (s.server.engines ws) = .ok w i from hw]
  rfl

theorem watchMore_watch (ws : String) (keys : List String) (w : List WatchedKey) (s : Site) :
    ∃ t more, watchMore ws keys w s = .ok () t ∧ t.sess.watch = some (ws, w ++ more) ∧
      more.map WatchedKey.key = keys := by
  obtain ⟨more, i, hmore, hkeys⟩ := onEngine_watch ws keys ((s.after.moments 0).clock.now 0) s.after.after
  simp only [watchMore, bind, EStateM.bind, pause, hmore]
  exact ⟨_, more, rfl, rfl, hkeys⟩

theorem unwatch_ok (s : Site) : ∃ t, unwatch s = .ok () t := by
  obtain ⟨⟨user, ws, wsPriv, txn, wrote, watch⟩, server, moments⟩ := s
  cases watch with
  | none => exact ⟨_, rfl⟩
  | some p => exact ⟨_, rfl⟩

theorem watchAnew_watch (ws : String) (keys : List String) (s : Site) :
    ∃ t w, watchAnew ws keys s = .ok () t ∧ t.sess.watch = some (ws, w) ∧ w.map WatchedKey.key = keys := by
  obtain ⟨u, hu⟩ := unwatch_ok s
  obtain ⟨w, i, hw, hkeys⟩ := onEngine_watch ws keys ((u.moments 0).clock.now 0) u.after
  simp only [watchAnew, bind, EStateM.bind, hu, pause, hw]
  exact ⟨_, w, rfl, rfl, hkeys⟩

/-- After a WATCH the session watches the keys it names, in its workspace, beside
those it watched there. -/
theorem watchKeys_watch (keys : List String) (s : Site) :
    ∃ t w, watchKeys keys s = .ok () t ∧ t.sess.watch = some (s.sess.ws, w) ∧ (∀ k ∈ keys, ∃ x ∈ w, x.key = k) ∧
      ∀ old, s.sess.watch = some (s.sess.ws, old) → ∀ x ∈ old, x ∈ w := by
  have hnames {w : List WatchedKey} (hkeys : w.map WatchedKey.key = keys) : ∀ k ∈ keys, ∃ x ∈ w, x.key = k := by
    intro k hk
    rw [← hkeys] at hk
    exact List.mem_map.mp hk
  rw [watchKeys_eq, watchFrom]
  cases hkept : s.sess.watch.filter fun p => p.1 = s.sess.ws with
  | some p =>
      obtain ⟨ws, old⟩ := p
      obtain ⟨hwatch, hws⟩ := Option.filter_eq_some_iff.mp hkept
      simp only [decide_eq_true_eq] at hws
      subst hws
      obtain ⟨t, more, ht, hmore, hkeys⟩ := watchMore_watch s.sess.ws keys old s
      refine ⟨t, old ++ more, ht, hmore, fun k hk => ?_, fun old' hold x hx => ?_⟩
      · obtain ⟨x, hx, rfl⟩ := hnames hkeys k hk
        exact ⟨x, List.mem_append_right _ hx, rfl⟩
      · obtain rfl : old = old' := by simpa using hwatch.symm.trans hold
        exact List.mem_append_left _ hx
  | none =>
      obtain ⟨t, w, ht, hw, hkeys⟩ := watchAnew_watch s.sess.ws keys s
      refine ⟨t, w, ht, hw, hnames hkeys, fun old hold => ?_⟩
      rw [hold] at hkept
      simp at hkept

end Front

namespace Resp

open Front Relation Lib.Program

variable [Commands]

/-- The connection still watches what it watched. -/
def KeepsWatch {α : Type} (m : C α) (c : Conn) : Prop := (left m c).site.sess.watch = c.site.sess.watch

namespace KeepsWatch

variable {α β : Type} {m : C α} {c : Conn}

omit [Codec] [Commands] in
theorem of_ignores (hm : ∀ w, IgnoresAt (Conn.watching w) m c) : KeepsWatch m c := by
  have hfixed := (hm c.site.sess.watch).fixed (rfl : c.watching c.site.sess.watch = c)
  have hwatch : ((left m c).watching c.site.sess.watch).site.sess.watch = (left m c).site.sess.watch := by rw [hfixed]
  exact hwatch.symm

omit [Codec] [Commands] in
theorem bind {f : α → C β} (hm : KeepsWatch m c) (hf : ∀ a d, m c = .ok a d → KeepsWatch (f a) d) :
    KeepsWatch (m >>= f) c := by
  unfold KeepsWatch at hm ⊢
  cases h : m c with
  | ok a d =>
      rw [left_bind_ok h]
      rw [left_of_ok h] at hm
      exact (hf a d h).trans hm
  | error e d =>
      rw [left_bind_error h]
      rwa [left_of_error h] at hm

omit [Codec] [Commands] in
theorem session {m : S α} (hm : Within Site.SameWatch m) (c : Conn) : KeepsWatch (session m) c := by
  have hs := sameWatch_star (hm c.site)
  unfold left at hs
  unfold KeepsWatch left Resp.session Conn.lift
  cases h : m c.site with
  | ok a s => rwa [h] at hs
  | error e s => rwa [h] at hs

end KeepsWatch

omit [Commands] in
theorem settle_keepsWatch (r : Except Reply Reply) (c : Conn) : KeepsWatch (settle r) c := by
  cases r with
  | error e => exact KeepsWatch.of_ignores fun w => settle_error_watching w e c
  | ok r =>
      refine KeepsWatch.bind (KeepsWatch.of_ignores fun w => takeHeld_watching w c) fun held d _ => ?_
      refine KeepsWatch.bind (KeepsWatch.session commit_sameWatch d) fun _ d _ => ?_
      rfl

omit [Commands] in
theorem eval_keepsWatch (script : Cmd Reply) (c : Conn) : KeepsWatch (eval script) c := by
  have hgiven : KeepsWatch (do given (← performed script) : C Reply) c :=
    KeepsWatch.of_ignores fun w => ((performed_watching w script).bind fun r => given_watching w r) c
  have halone : KeepsWatch (evalAlone script) c := by
    refine KeepsWatch.bind (KeepsWatch.session (sameWatch_of_ignores begin_watching) c) fun _ d _ => ?_
    refine KeepsWatch.bind (rfl : KeepsWatch (modify fun c => { c with held := some [] } : C PUnit) d) fun _ d _ => ?_
    refine KeepsWatch.bind (KeepsWatch.of_ignores fun w => performed_watching w script d) fun r d _ => ?_
    exact settle_keepsWatch r d
  show (left (if c.implicit = true then evalAlone script else _ : C Reply) c).site.sess.watch = _
  split
  · exact halone
  · exact hgiven

/-- Of the commands a transaction may queue, UNWATCH alone touches what is watched. -/
theorem run_keepsWatch {name : String} (h : name ∉ ["DISCARD", "WATCH", "UNWATCH"]) (args : List Bytes) (c : Conn) :
    KeepsWatch (run name args) c := by
  simp only [List.mem_cons, List.not_mem_nil, or_false, not_or] at h
  unfold run
  rw [if_neg h.1, if_neg h.2.1, if_neg h.2.2]
  split
  · show (left (if c.queued.isSome = true then _ else _ : C Reply) c).site.sess.watch = _
    split <;> rfl
  split
  · refine KeepsWatch.bind (KeepsWatch.of_ignores fun w => scriptOf_watching w name args c) fun script d _ => ?_
    exact eval_keepsWatch script d
  · exact KeepsWatch.of_ignores fun w => data_ignores name args w c

omit [Codec] [Commands] in
theorem checked_eq (need : Need) (c : Conn) :
    checked need c = match c.site.sess.check need with
      | .ok () => .ok () c
      | .error e => .error (.ofError e) c := by
  show (match c.site.sess.check need with | .ok () => _ | .error e => _ : C Unit) c = _
  cases c.site.sess.check need with
  | ok u => rfl
  | error e => rfl

omit [Commands] in
/-- What a WATCH that is run comes to: it is refused, or the session watches. -/
theorem watchCommand_cases (args : List Bytes) (c : Conn) :
    (∃ r, watchCommand args c = .error r c) ∨
      ∃ keys t, keysOf args.tail = .ok keys ∧ watchKeys keys c.site = .ok () t ∧
        watchCommand args c = .ok .ok { c with site := t } := by
  unfold watchCommand
  cases arity args 2 with
  | error e => exact .inl ⟨e, rfl⟩
  | ok u =>
      show (∃ r, (if c.queued.isSome = true then _ else _ : C Reply) c = _) ∨ ∃ keys t, _ ∧ _ ∧
        (if c.queued.isSome = true then _ else _ : C Reply) c = _
      by_cases hq : c.queued.isSome = true
      · rw [if_pos hq]
        exact .inl ⟨_, rfl⟩
      rw [if_neg hq]
      have hcheck := checked_eq .read c
      cases hread : c.site.sess.check .read with
      | error e =>
          rw [hread] at hcheck
          refine .inl ⟨.ofError e, ?_⟩
          simp only [bind, EStateM.bind, hcheck]
      | ok u =>
          rw [hread] at hcheck
          cases hkeys : keysOf args.tail with
          | error e =>
              refine .inl ⟨e, ?_⟩
              simp only [given, bind, EStateM.bind, pure, EStateM.pure, hcheck]
              rfl
          | ok keys =>
              obtain ⟨t, w, ht, -⟩ := watchKeys_watch keys c.site
              refine .inr ⟨keys, t, rfl, ht, ?_⟩
              simp only [given, bind, EStateM.bind, pure, EStateM.pure, hcheck, session, Conn.lift, ht]

/-- A key named by a WATCH: its workspace, and how much the others had touched
when the WATCH ended. -/
structure Named where
  ws : String
  key : String
  since : Nat
  deriving DecidableEq

/-- Another client has written or deleted the key since. -/
def Named.ChangedIn (n : Named) (touched : List (String × String)) : Prop := (n.ws, n.key) ∈ touched.drop n.since

instance (n : Named) (touched : List (String × String)) : Decidable (n.ChangedIn touched) :=
  inferInstanceAs (Decidable (_ ∈ _))

/-- A connection with the keys its WATCHes have named since the last UNWATCH,
EXEC or DISCARD. -/
structure Watcher where
  conn : Conn
  named : List Named

namespace Watcher

/-- The keys a WATCH names, if it is not refused. -/
def names (s : Watcher) (args : List Bytes) : List String :=
  match watchCommand args s.conn, keysOf args.tail with
  | .ok _ _, .ok keys => keys
  | _, _ => []

/-- The connection after a command, and the keys named then. -/
def step (s : Watcher) (args : List Bytes) : Option Watcher :=
  let name := upper (args.headD [])
  let d := left (handle args) s.conn
  some
    { conn := d
      named :=
        if (turnedAway s.conn name).isSome then s.named
        else if name = "EXEC" then []
        else if name = "DISCARD" then if s.conn.queued.isSome then [] else s.named
        else if name = "UNWATCH" then if s.conn.queued.isSome then s.named else []
        else if name = "WATCH" then
          s.named ++ (s.names args).map fun k => ⟨s.conn.site.sess.ws, k, d.site.server.touched.length⟩
        else s.named }

/-- A WATCH made while keys are named is made in their workspace. -/
def OneWorkspace (s : Watcher) (args : List Bytes) : Prop :=
  upper (args.headD []) = "WATCH" → ∀ n ∈ s.named, n.ws = s.conn.site.sess.ws

/-- The session watches every key that is named. -/
def Held (s : Watcher) : Prop :=
  ∀ n ∈ s.named, ∃ w, s.conn.site.sess.watch = some (n.ws, w) ∧ ∃ x ∈ w, x.key = n.key

end Watcher

/-- The commands that leave alone what is watched: EXEC, WATCH and those that end
a watch are others. -/
def leavesWatch (c : Conn) (name : String) : Prop :=
  name ∉ ["EXEC", "DISCARD", "WATCH", "UNWATCH"] ∨ name = "UNWATCH" ∧ c.queued.isSome = true ∨
    name = "DISCARD" ∧ c.queued = none

theorem runNow_keepsWatch {args : List Bytes} {c : Conn} (h : leavesWatch c (upper (args.headD [])))
    (hnow : c.queued = none ∨ upper (args.headD []) ∈ notQueued) :
    KeepsWatch (runNow (upper (args.headD [])) args) c := by
  generalize upper (args.headD []) = name at h hnow
  have hrun : KeepsWatch (run name args) c := by
    obtain h | ⟨rfl, hq⟩ | ⟨rfl, hq⟩ := h
    · refine run_keepsWatch (fun hmem => h ?_) args c
      exact List.mem_cons_of_mem _ hmem
    · obtain hq' | hmem := hnow
      · simp [hq'] at hq
      · exact absurd hmem (by decide)
    · obtain ⟨site, queued, aborted, home, resp3, subs, held⟩ := c
      obtain rfl : queued = none := hq
      rfl
  have hexec : name ≠ "EXEC" := by
    rintro rfl
    obtain h | ⟨h, -⟩ | ⟨h, -⟩ := h
    · exact h (by decide)
    · exact absurd h (by decide)
    · exact absurd h (by decide)
  unfold runNow
  rw [if_neg hexec]
  show (left (if c.queued = none ∧ name ∈ isBlocking then _ else _ : C Reply) c).site.sess.watch = _
  split
  · exact KeepsWatch.of_ignores fun w => waiting_ignores name args w c
  · exact hrun

theorem handle_keepsWatch {args : List Bytes} {c : Conn} (h : leavesWatch c (upper (args.headD []))) :
    KeepsWatch (handle args) c := by
  unfold KeepsWatch
  cases haway : turnedAway c (upper (args.headD [])) with
  | some r => rw [left_of_ok (handle_away haway)]
  | none =>
      cases hsup : refuse (upper (args.headD [])) args with
      | some r =>
          rw [left_of_ok (handle_refused haway hsup)]
          split <;> rfl
      | none =>
          have hnow (hnow : c.queued = none ∨ upper (args.headD []) ∈ notQueued) :
              (left (handle args) c).site.sess.watch = c.site.sess.watch := by
            have hleft : left (handle args) c = left (reply (runNow (upper (args.headD [])) args)) c := by
              unfold left
              rw [handle_now haway hsup hnow]
            rw [hleft, left_reply]
            exact runNow_keepsWatch h hnow
          cases hq : c.queued with
          | none => exact hnow (.inl hq)
          | some queue =>
              by_cases hname : upper (args.headD []) ∈ notQueued
              · exact hnow (.inr hname)
              · rw [left_of_ok (handle_queued haway hsup hq hname)]

namespace Watcher

theorem left_handle_watch {args : List Bytes} {c : Conn} (haway : turnedAway c (upper (args.headD [])) = none)
    (hname : upper (args.headD []) = "WATCH") : left (handle args) c = left (watchCommand args) c := by
  have hsup : refuse (upper (args.headD [])) args = none := by
    rw [hname]
    exact if_pos (by decide)
  have hmem : upper (args.headD []) ∈ notQueued := by
    rw [hname]
    decide
  have hrun : runNow "WATCH" args c = watchCommand args c := by
    show (if c.queued = none ∧ "WATCH" ∈ isBlocking then _ else _ : C Reply) c = _
    rw [if_neg (fun h => absurd h.2 (by decide))]
    rfl
  have hleft : left (handle args) c = left (reply (runNow (upper (args.headD [])) args)) c := by
    unfold left
    rw [handle_now haway hsup (.inr hmem)]
  rw [hleft, left_reply, hname]
  unfold left
  rw [hrun]

/-- Every key named by a WATCH stays watched, as long as all WATCHes are made in
one workspace. -/
theorem step_held {s t : Watcher} {args : List Bytes} (h : s.Held) (hone : s.OneWorkspace args)
    (hstep : s.step args = some t) : t.Held := by
  obtain rfl := Option.some.inj hstep
  have hkept (hw : leavesWatch s.conn (upper (args.headD []))) {n : Named} (hn : n ∈ s.named) :
      ∃ w, (left (handle args) s.conn).site.sess.watch = some (n.ws, w) ∧ ∃ x ∈ w, x.key = n.key := by
    rw [handle_keepsWatch hw]
    exact h n hn
  intro n hn
  dsimp only at hn ⊢
  split at hn
  · next haway =>
      obtain ⟨r, haway⟩ := Option.isSome_iff_exists.mp haway
      rw [left_of_ok (handle_away haway)]
      exact h n hn
  next haway =>
  split at hn
  · exact absurd hn List.not_mem_nil
  next hexec =>
  split at hn
  · next hname =>
      split at hn
      · exact absurd hn List.not_mem_nil
      · next hq => exact hkept (.inr (.inr ⟨hname, by simpa using hq⟩)) hn
  next hdiscard =>
  split at hn
  · next hname =>
      split at hn
      · next hq => exact hkept (.inr (.inl ⟨hname, hq⟩)) hn
      · exact absurd hn List.not_mem_nil
  next hunwatch =>
  split at hn
  · next hname =>
      rw [left_handle_watch (by simpa using haway) hname]
      obtain ⟨r, hr⟩ | ⟨keys, t, hkeys, ht, hok⟩ := watchCommand_cases args s.conn
      · rw [left_of_error hr]
        simp only [names, hr, List.map_nil, List.append_nil] at hn
        exact h n hn
      · obtain ⟨t', w, ht', hwatch, hnew, hold⟩ := watchKeys_watch keys s.conn.site
        obtain rfl : t = t' := (EStateM.Result.ok.inj (ht.symm.trans ht')).2
        rw [left_of_ok hok]
        simp only [names, hok, hkeys, List.mem_append, List.mem_map] at hn
        obtain hn | ⟨k, hk, rfl⟩ := hn
        · obtain ⟨old, hwas, x, hx, hxn⟩ := h n hn
          rw [hone hname n hn] at hwas ⊢
          exact ⟨w, hwatch, x, hold old hwas x hx, hxn⟩
        · exact ⟨w, hwatch, hnew k hk⟩
  next hwatch =>
  have hother : upper (args.headD []) ∉ ["EXEC", "DISCARD", "WATCH", "UNWATCH"] := by
    simp only [List.mem_cons, List.not_mem_nil, or_false, not_or]
    exact ⟨hexec, hdiscard, hwatch, hunwatch⟩
  exact hkept (.inl hother) hn

end Watcher

end Resp

end KivaDb
