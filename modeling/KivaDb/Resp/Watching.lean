import KivaDb.Front.Watching
import KivaDb.Resp.Conn

namespace KivaDb.Resp

open Lib.LittleEndian Lib.Utf8 Lib.Program Lib.Ignoring Front

variable [External] [Chrono] [Codec] [Vectors]

namespace Conn

/-- The connection watches `w` instead. -/
def watching (w : Option (String × List WatchedKey)) (c : Conn) : Conn := { c with site := c.site.watching w }

/-- What is left of the connection and its server once the watches are forgotten. -/
def plain (c : Conn) : Conn := { c with site := c.site.plain }

end Conn

section Indifferent

variable (w : Option (String × List WatchedKey))

omit [Codec] in
theorem lift_watching {α : Type} {m : S α} (hm : Ignores (Site.watching w) m) (c : Conn) :
    (c.watching w).lift m = ((c.lift m).1, (c.lift m).2.watching w) := by
  have hsite : m (c.site.watching w) = mapState (Site.watching w) (m c.site) := hm c.site
  unfold Conn.lift
  rw [show (c.watching w).site = c.site.watching w from rfl, hsite]
  cases m c.site with
  | ok a site => rfl
  | error e site => rfl

theorem reading_watching {α : Type} (m : Int64 → M α) : Ignores (Site.watching w) (reading m) :=
  (pause_watching w).bind fun _ => Ignores.get_bind (fun _ => rfl) fun _ => onEngine_watching w _ _

theorem resetEngine_watching : Ignores (Site.watching w) resetEngine :=
  (pause_watching w).bind fun _ => Ignores.get_bind (fun _ => rfl) fun _ => onEngine_watching w _ _

theorem randomU64_watching : Ignores (Site.watching w) randomU64 := by
  refine (pause_watching w).bind fun m => ?_
  split
  · exact Ignores.pure _
  · exact Ignores.throw _

theorem answer_watching (op : Op) (c : Conn) :
    answer op (c.watching w) = ((answer op c).1, (answer op c).2.watching w) := by
  cases op with
  | check need => rfl
  | writable => rfl
  | kvGet key => exact lift_watching w (kvGet_watching w key) c
  | kvType key => exact lift_watching w (kvType_watching w key) c
  | apply ops => exact lift_watching w (apply_watching w ops) c
  | range => exact lift_watching w (reading_watching w Engine.range) c
  | keysMatching pattern => exact lift_watching w (reading_watching w (Engine.keysMatching pattern)) c
  | len => exact lift_watching w (reading_watching w fun _ => Engine.len) c
  | query f => exact lift_watching w (reading_watching w (query f)) c
  | reset => exact lift_watching w (resetEngine_watching w) c
  | now => exact lift_watching w ((pause_watching w).bind fun _ => Ignores.pure _) c
  | random => exact lift_watching w (randomU64_watching w) c
  | maxMembers => rfl
  | who => rfl
  | switchWorkspace ws => exact lift_watching w (switchWorkspace_watching w ws) c
  | ensureWorkspace ws => exact lift_watching w (ensureWorkspace_watching w ws) c
  | leave => exact lift_watching w (leave_watching w) c
  | login name password => exact lift_watching w (login_watching w name password) c
  | setHome home => rfl
  | publish channel message =>
      have hheld : (c.watching w).held = c.held := rfl
      simp only [answer, hheld]
      cases c.held with
      | none => rfl
      | some held => rfl
  | listen subs => rfl
  | protocol resp3 => rfl
  | scripts => rfl
  | setScripts scripts => rfl

/-- No command and no script sees what is watched. -/
theorem perform_watching {α : Type} (p : Cmd α) (c : Conn) :
    (c.watching w).perform p = ((c.perform p).1, (c.perform p).2.watching w) := by
  have halike (op : Op) (c d : Conn) (h : d = c.watching w) (_ : True) :
      (answer op c).1 = (answer op d).1 ∧ (answer op d).2 = (answer op c).2.watching w := by
    rw [h, answer_watching]
    exact ⟨rfl, rfl⟩
  obtain ⟨hout, hleft⟩ := Prog.run_alike halike p (rfl : c.watching w = c.watching w) (Prog.along_true p c)
  exact Prod.ext hout.symm hleft

omit [Codec] in
theorem session_watching {α : Type} {m : S α} (hm : Ignores (Site.watching w) m) :
    Ignores (Conn.watching w) (session m) := by
  intro c
  show session m (c.watching w) = mapState (Conn.watching w) (session m c)
  unfold session
  rw [lift_watching w hm]
  cases c.lift m with
  | mk r d =>
      cases r with
      | ok a => rfl
      | error e => rfl

theorem performed_watching (p : Cmd Reply) : Ignores (Conn.watching w) (performed p) := by
  intro c
  show EStateM.Result.ok ((c.watching w).perform p).1 ((c.watching w).perform p).2 = _
  rw [perform_watching]
  rfl

omit [Codec] in
theorem given_watching {α : Type} (r : Except Reply α) : Ignores (Conn.watching w) (given r) := by
  cases r with
  | ok a => exact Ignores.pure a
  | error e => exact Ignores.throw e

omit [Codec] in
theorem checked_watching (need : Need) : Ignores (Conn.watching w) (checked need) := by
  refine Ignores.get_bind (fun _ => rfl) fun c => ?_
  split
  · exact Ignores.pure ()
  · exact Ignores.throw _

omit [Codec] in
theorem takeHeld_watching : Ignores (Conn.watching w) takeHeld :=
  Ignores.get_bind (fun _ => rfl) fun _ => Ignores.bind (Ignores.modify fun _ => rfl) fun _ => Ignores.pure _

variable [Commands]

omit [Codec] in
theorem scriptSource_watching (name : String) (arg : Bytes) : Ignores (Conn.watching w) (scriptSource name arg) := by
  unfold scriptSource
  split
  · refine (given_watching w _).bind fun sha => Ignores.get_bind (fun _ => rfl) fun c => ?_
    split
    · exact Ignores.pure _
    · exact Ignores.throw _
  · exact (given_watching w _).bind fun source => Ignores.bind (Ignores.modify fun _ => rfl) fun _ => Ignores.pure source

omit [Codec] in
theorem scriptOf_watching (name : String) (args : List Bytes) : Ignores (Conn.watching w) (scriptOf name args) := by
  refine (given_watching w _).bind fun _ => (checked_watching w _).bind fun _ => ?_
  refine (scriptSource_watching w _ _).bind fun source => (given_watching w _).bind fun n => ?_
  split
  · exact Ignores.throw _
  · split
    · exact Ignores.throw _
    · exact Ignores.pure _

end Indifferent

/-- The outcome is the same whatever is watched: the reply, and all of the state
but the watches themselves. -/
def Unmoved {α : Type} (m : C α) (c : Conn) : Prop :=
  ∀ w, mapState Conn.plain (m (c.watching w)) = mapState Conn.plain (m (c.watching none))

namespace Unmoved

variable {α β : Type} {m : C α} {c : Conn}

omit [Codec] in
theorem of_ignores (hm : ∀ w, IgnoresAt (Conn.watching w) m c) : Unmoved m c := by
  have hplain (w : Option (String × List WatchedKey)) :
      mapState Conn.plain (m (c.watching w)) = mapState Conn.plain (m c) := by
    rw [show m (c.watching w) = mapState (Conn.watching w) (m c) from hm w]
    cases m c with
    | ok a d => rfl
    | error e d => rfl
  intro w
  rw [hplain, hplain]

omit [Codec] in
theorem of_alike (hm : Alike Conn.plain m m) : Unmoved m c := fun w => hm (c.watching w) (c.watching none) rfl

omit [Codec] in
theorem bind {f : α → C β} (hm : ∀ w, IgnoresAt (Conn.watching w) m c)
    (hf : ∀ a d, m c = .ok a d → Unmoved (f a) d) : Unmoved (m >>= f) c := by
  intro w
  have hrun (v : Option (String × List WatchedKey)) :
      (m >>= f) (c.watching v) = match m c with
        | .ok a d => f a (d.watching v)
        | .error e d => .error e (d.watching v) := by
    show EStateM.bind m f (c.watching v) = _
    unfold EStateM.bind
    rw [show m (c.watching v) = mapState (Conn.watching v) (m c) from hm v]
    cases m c with
    | ok a d => rfl
    | error e d => rfl
  rw [hrun, hrun]
  cases h : m c with
  | ok a d => exact hf a d h w
  | error e d => rfl

omit [Codec] in
theorem get_bind {f : Conn → C β} (hsame : ∀ w, f (c.watching w) = f c) (hf : Unmoved (f c) c) :
    Unmoved (get >>= f) c := by
  intro w
  show mapState Conn.plain (f (c.watching w) (c.watching w)) = mapState Conn.plain (f (c.watching none) (c.watching none))
  rw [hsame, hsame]
  exact hf w

omit [Codec] in
theorem modify_bind {g : Conn → Conn} {f : C β} (hg : ∀ w, g (c.watching w) = (g c).watching w)
    (hf : Unmoved f (g c)) : Unmoved (do modify g; f) c := by
  intro w
  show mapState Conn.plain (f (g (c.watching w))) = mapState Conn.plain (f (g (c.watching none)))
  rw [hg, hg]
  exact hf w

omit [Codec] in
theorem pure (a : α) (c : Conn) : Unmoved (pure a) c := of_ignores fun _ => Ignores.pure a c

omit [Codec] in
theorem throw (r : Reply) (c : Conn) : Unmoved (throw r : C α) c := of_ignores fun _ => Ignores.throw r c

omit [Codec] in
theorem reply {m : C Reply} (hm : Unmoved m c) : Unmoved (Resp.reply m) c := by
  intro w
  have hw := hm w
  unfold Resp.reply
  cases h : m (c.watching w) with
  | ok r d =>
      cases h' : m (c.watching none) with
      | ok r' d' => simpa only [h, h', mapState] using hw
      | error r' d' => simp [h, h', mapState] at hw
  | error r d =>
      cases h' : m (c.watching none) with
      | ok r' d' => simp [h, h', mapState] at hw
      | error r' d' =>
          simp only [h, h', mapState, EStateM.Result.error.injEq] at hw
          simp only [mapState, hw.1, hw.2]

end Unmoved

omit [Codec] in
theorem session_alike {α : Type} {m m' : S α} (hm : Alike Site.plain m m') :
    Alike Conn.plain (session m) (session m') := by
  rintro ⟨s, queued, aborted, home, resp3, subs, held⟩ ⟨t, _, _, _, _, _, _⟩ h
  simp only [Conn.plain, Conn.mk.injEq] at h
  obtain ⟨hsite, rfl, rfl, rfl, rfl, rfl, rfl⟩ := h
  have hst := hm s t hsite
  unfold session Conn.lift
  cases hs : m s with
  | ok a s' =>
      cases ht : m' t with
      | ok b t' =>
          simp only [hs, ht, mapState, EStateM.Result.ok.injEq] at hst
          simp only [mapState, Conn.plain, hst.1, hst.2]
      | error e t' => simp [hs, ht, mapState] at hst
  | error e s' =>
      cases ht : m' t with
      | ok b t' => simp [hs, ht, mapState] at hst
      | error e' t' =>
          simp only [hs, ht, mapState, EStateM.Result.error.injEq] at hst
          simp only [mapState, Conn.plain, hst.1, hst.2]

/-- The connection as a script that runs in a transaction of its own leaves it,
its writes still to be committed. -/
def ranAlone (script : Cmd Reply) (c : Conn) : Option Conn :=
  match session begin_ c with
  | .error _ _ => none
  | .ok _ c =>
      match ({ c with held := some [] } : Conn).perform script with
      | (.ok _, c) => some c
      | (.error _, _) => none

theorem settle_error_watching (w : Option (String × List WatchedKey)) (e : Reply) :
    Ignores (Conn.watching w) (settle (.error e)) :=
  (takeHeld_watching w).bind fun _ => (session_watching w (rollback_watching w)).bind fun _ => Ignores.throw e

theorem evalAlone_ignores {script : Cmd Reply} {c : Conn} (hnone : ranAlone script c = none)
    (w : Option (String × List WatchedKey)) : IgnoresAt (Conn.watching w) (evalAlone script) c := by
  refine IgnoresAt.bind (session_watching w (begin_watching w) c) fun _ d hd => ?_
  have hmark : Ignores (Conn.watching w) (modify fun c => { c with held := some [] } : C PUnit) :=
    Ignores.modify fun _ => rfl
  refine IgnoresAt.bind (hmark d) fun _ d' hd' => ?_
  refine IgnoresAt.bind (performed_watching w script d') fun out e he => ?_
  obtain rfl : ({ d with held := some [] } : Conn) = d' := (EStateM.Result.ok.inj hd').2
  have hout : (({ d with held := some [] } : Conn).perform script).1 = out := (EStateM.Result.ok.inj he).1
  cases out with
  | ok r =>
      simp only [ranAlone, hd] at hnone
      split at hnone
      · exact absurd hnone (by simp)
      · next heq => rw [heq] at hout; exact absurd hout (by simp)
  | error e => exact settle_error_watching w e _

theorem eval_ignores {script : Cmd Reply} {c : Conn} (hnone : c.implicit = true → ranAlone script c = none)
    (w : Option (String × List WatchedKey)) : IgnoresAt (Conn.watching w) (eval script) c := by
  show (if c.implicit = true then evalAlone script else _ : C Reply) (c.watching w) =
    mapState _ ((if c.implicit = true then evalAlone script else _ : C Reply) c)
  split
  · next himp => exact evalAlone_ignores (hnone himp) w
  · exact (performed_watching w script).bind (fun r => given_watching w r) c

section Commands

variable [Commands]

/-- The connection as the script of a command that runs at once leaves it, its
writes still to be committed. -/
def scripted (args : List Bytes) (c : Conn) : Option Conn :=
  let name := upper (args.headD [])
  if name ∈ evals ∧ turnedAway c name = none ∧ c.queued = none then
    match scriptOf name args c with
    | .error _ _ => none
    | .ok script c => if c.implicit then ranAlone script c else none
  else none

theorem evalCommand_ignores {args : List Bytes} {c : Conn} (hname : upper (args.headD []) ∈ evals)
    (haway : turnedAway c (upper (args.headD [])) = none) (hqueued : c.queued = none) (hnone : scripted args c = none)
    (w : Option (String × List WatchedKey)) :
    IgnoresAt (Conn.watching w) (evalCommand (upper (args.headD [])) args) c := by
  refine IgnoresAt.bind (scriptOf_watching w _ args c) fun script d hd => ?_
  refine eval_ignores (fun himp => ?_) w
  simpa only [scripted, hname, haway, hqueued, hd, himp, and_self, if_true] using hnone

theorem data_ignores (name : String) (args : List Bytes) (w : Option (String × List WatchedKey)) :
    Ignores (Conn.watching w) (do given (← performed (Commands.data name args)) : C Reply) :=
  (performed_watching w _).bind fun r => given_watching w r

theorem waiting_ignores (name : String) (args : List Bytes) (w : Option (String × List WatchedKey)) :
    Ignores (Conn.watching w) (do given (← performed (Commands.waiting name args)) : C Reply) :=
  (performed_watching w _).bind fun r => given_watching w r

omit [Commands] in
theorem unwatch_unmoved (c : Conn) : Unmoved (do session unwatch; return .ok : C Reply) c :=
  Unmoved.of_alike ((session_alike unwatch_plain.self).bind fun _ => (Ignores.pure _).alike)

theorem run_unmoved {args : List Bytes} {c : Conn} (hqueued : c.queued = none ∨ upper (args.headD []) ∉ evals)
    (haway : turnedAway c (upper (args.headD [])) = none) (hnone : scripted args c = none) :
    Unmoved (run (upper (args.headD [])) args) c := by
  unfold run
  split
  · -- MULTI
    refine Unmoved.get_bind (fun _ => rfl) ?_
    split
    · exact Unmoved.throw _ c
    · exact Unmoved.modify_bind (fun _ => rfl) (Unmoved.pure _ _)
  split
  · -- DISCARD
    refine Unmoved.get_bind (fun _ => rfl) ?_
    split
    · exact Unmoved.throw _ c
    · exact Unmoved.modify_bind (fun _ => rfl) (unwatch_unmoved _)
  split
  · -- WATCH
    refine Unmoved.bind (fun w => given_watching w _ c) fun _ d _ => Unmoved.get_bind (fun _ => rfl) ?_
    split
    · exact Unmoved.throw _ d
    · refine Unmoved.bind (fun w => checked_watching w _ d) fun _ d _ => ?_
      refine Unmoved.bind (fun w => given_watching w _ d) fun keys d _ => Unmoved.of_alike ?_
      exact (session_alike (watchKeys_plain keys)).bind fun _ => (Ignores.pure _).alike
  split
  · exact unwatch_unmoved c
  split
  · next hname =>
      obtain hqueued | hother := hqueued
      · exact Unmoved.of_ignores (evalCommand_ignores hname haway hqueued hnone)
      · exact absurd hname hother
  · exact Unmoved.of_ignores fun w => data_ignores _ args w c

theorem runNow_unmoved {args : List Bytes} {c : Conn} (hexec : upper (args.headD []) ≠ "EXEC")
    (hqueued : c.queued = none ∨ upper (args.headD []) ∉ evals)
    (haway : turnedAway c (upper (args.headD [])) = none) (hnone : scripted args c = none) :
    Unmoved (runNow (upper (args.headD [])) args) c := by
  unfold runNow
  rw [if_neg hexec]
  refine Unmoved.get_bind (fun _ => rfl) ?_
  split
  · exact Unmoved.of_ignores fun w => waiting_ignores _ args w c
  · exact run_unmoved hqueued haway hnone

omit [External] [Chrono] [Codec] [Vectors] [Commands] in
theorem not_evals_of_now {name : String} (h : name ∈ notQueued) : name ∉ evals := by
  have hapart : ∀ n ∈ notQueued, n ∉ evals := by decide
  exact hapart name h

/-- Whatever a connection watches, a command that leaves no script to be
committed answers and does the same. -/
theorem handle_unmoved {args : List Bytes} {c : Conn} (hexec : upper (args.headD []) ≠ "EXEC")
    (hnone : scripted args c = none) : Unmoved (handle args) c := by
  refine Unmoved.get_bind (fun _ => rfl) ?_
  cases haway : turnedAway c (upper (args.headD [])) with
  | some r => exact Unmoved.pure r c
  | none =>
      dsimp only
      cases refuse (upper (args.headD [])) args with
      | some refused =>
          refine Unmoved.modify_bind (fun w => ?_) (Unmoved.pure refused _)
          show (if c.queued.isSome then _ else _) = _
          split <;> rfl
      | none =>
          dsimp only
          cases hq : c.queued with
          | none => exact (runNow_unmoved hexec (.inl hq) haway hnone).reply
          | some queue =>
              dsimp only
              split
              · next hname => exact (runNow_unmoved hexec (.inr (not_evals_of_now hname)) haway hnone).reply
              · exact Unmoved.modify_bind (fun _ => rfl) (Unmoved.pure _ _)

end Commands

end KivaDb.Resp
