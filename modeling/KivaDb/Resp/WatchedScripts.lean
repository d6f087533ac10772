import KivaDb.Front.Reference
import KivaDb.Resp.Watching

namespace KivaDb

open Lib.LittleEndian Lib.Utf8 Lib.Ignoring Crypt

section

variable [External] [Chrono] [Codec] [Vectors]

/-- The watch of a key that was there and is gone. -/
def gone (key : String) : List WatchedKey := [⟨key, 0, true⟩]

omit [Codec] in
theorem changed_gone {i : Inner} {key : String} (h : i.index[key]? = none) (now : Int64) :
    changed now (gone key) i = .ok (some key) i := by
  have hdrop : i.dropExpired key now = i := by simp only [Inner.dropExpired, h]
  have hlive : live key now i = .ok none i := by
    show EStateM.Result.ok ((i.index[key]?).filter _) (i.dropExpired key now) = _
    rw [hdrop, h]
    rfl
  unfold gone changed
  show (if 0 < i.versionOf key ∨ 0 < i.resetSeq then _ else _ : M (Option String)) i = _
  split
  · rfl
  · simp only [if_true, bind, EStateM.bind, hlive]
    rfl

omit [Codec] in
theorem Inner.exists_absent (i : Inner) (other : String) : ∃ key, key ≠ other ∧ i.index[key]? = none := by
  obtain ⟨key, hkey⟩ := Infinite.exists_notMem_finset (insert other i.index.keys.toFinset)
  simp only [Finset.mem_insert, List.mem_toFinset, Std.ExtTreeMap.mem_keys, not_or] at hkey
  exact ⟨key, hkey.1, Std.ExtTreeMap.getElem?_eq_none hkey.2⟩

namespace Front

/-- A transaction that would be written is refused when the key it watches is gone. -/
theorem commit_gone {s : Site} (h : s.Room) (other : String) :
    ∃ key, key ≠ other ∧ ∃ t, commit (s.watching (some (s.sess.ws, gone key))) = .error (changedError key) t := by
  obtain ⟨txn, ws, t, htxn, hrun⟩ := h
  obtain ⟨key, hne, habsent⟩ := Inner.exists_absent (t.after.server.engines ws) other
  let w := some (s.sess.ws, gone key)
  have hroom : (do let _ ← pause; commitRoom txn : S String) (s.taken.watching w) = .ok ws (t.watching w) := by
    have hig : Ignores (Site.watching w) (do let _ ← pause; commitRoom txn : S String) :=
      (pause_watching w).bind fun _ => commitRoom_watching w txn
    rw [show _ = _ from hig s.taken, hrun]
    rfl
  exact ⟨key, hne, commit_conflict (s := s.watching w) htxn rfl hroom (changed_gone habsent _)⟩

end Front

namespace Resp

open Front

variable [Commands] {args : List Bytes} {c d : Conn}

omit [External] [Chrono] [Codec] [Vectors] [Commands] in
theorem evals_plain {name : String} (h : name ∈ evals) :
    name ∈ supported ∧ name ∉ isBlocking ∧ name ∉ ["EXEC", "MULTI", "DISCARD", "WATCH", "UNWATCH"] := by
  have hall : ∀ n ∈ evals,
      n ∈ supported ∧ n ∉ isBlocking ∧ n ∉ ["EXEC", "MULTI", "DISCARD", "WATCH", "UNWATCH"] := by decide
  exact hall name h

theorem handle_eval (hname : upper (args.headD []) ∈ evals) (haway : turnedAway c (upper (args.headD [])) = none)
    (hqueued : c.queued = none) : handle args c = reply (evalCommand (upper (args.headD [])) args) c := by
  obtain ⟨hsup, hblock, hother⟩ := evals_plain hname
  simp only [List.mem_cons, List.not_mem_nil, or_false, not_or] at hother
  obtain ⟨hexec, hmulti, hdiscard, hwatch, hunwatch⟩ := hother
  have hrun : run (upper (args.headD [])) args = evalCommand (upper (args.headD [])) args := by
    unfold run
    rw [if_neg hmulti, if_neg hdiscard, if_neg hwatch, if_neg hunwatch, if_pos hname]
  have hnow : runNow (upper (args.headD [])) args c = evalCommand (upper (args.headD [])) args c := by
    unfold runNow
    rw [if_neg hexec]
    show (if c.queued = none ∧ upper (args.headD []) ∈ isBlocking then _ else _ : C Reply) c = _
    rw [if_neg (fun h => hblock h.2), hrun]
  rw [handle_now haway (if_pos hsup) (.inl hqueued)]
  unfold reply
  rw [hnow]

theorem scripted_some (h : scripted args c = some d) :
    upper (args.headD []) ∈ evals ∧ turnedAway c (upper (args.headD [])) = none ∧ c.queued = none ∧
      ∃ script c₁ c₂ r, scriptOf (upper (args.headD [])) args c = .ok script c₁ ∧ c₁.implicit = true ∧
        session begin_ c₁ = .ok () c₂ ∧ ({ c₂ with held := some [] } : Conn).perform script = (.ok r, d) := by
  unfold scripted at h
  dsimp only at h
  split at h
  · next hstart =>
      refine ⟨hstart.1, hstart.2.1, hstart.2.2, ?_⟩
      split at h
      · exact absurd h (by simp)
      · next script c₁ hscript =>
          split at h
          · next himp =>
              unfold ranAlone at h
              split at h
              · exact absurd h (by simp)
              · next c₂ hbegin =>
                  split at h
                  · next r d' hperform =>
                      obtain rfl := Option.some.inj h
                      exact ⟨script, c₁, c₂, r, hscript, himp, hbegin, hperform⟩
                  · exact absurd h (by simp)
          · exact absurd h (by simp)
  · exact absurd h (by simp)

/-- With a transaction that would be written, the script of a connection that
watches a key now gone is refused. -/
theorem handle_gone (h : scripted args c = some d) (hroom : d.site.Room) (other : String) :
    ∃ key, key ≠ other ∧ ∃ e, handle args (c.watching (some (d.site.sess.ws, gone key))) =
      .ok (.ofError (changedError key)) e := by
  obtain ⟨hname, haway, hqueued, script, c₁, c₂, r, hscript, himp, hbegin, hperform⟩ := scripted_some h
  obtain ⟨key, hne, t, hcommit⟩ := commit_gone hroom other
  refine ⟨key, hne, ?_⟩
  let w := some (d.site.sess.ws, gone key)
  have hscript' : scriptOf (upper (args.headD [])) args (c.watching w) = .ok script (c₁.watching w) := by
    rw [show _ = _ from scriptOf_watching w _ args c, hscript]
    rfl
  have hbegin' : session begin_ (c₁.watching w) = .ok () (c₂.watching w) := by
    rw [show _ = _ from session_watching w (begin_watching w) c₁, hbegin]
    rfl
  have hperform' : (({ c₂ with held := some [] } : Conn).watching w).perform script = (.ok r, d.watching w) := by
    rw [perform_watching, hperform]
  have hsettle : settle (.ok r) (d.watching w) = .error (.ofError (changedError key)) { d with site := t, held := none } := by
    show (session commit >>= _) ({ d.watching w with held := none }) = _
    have hlift : ({ d.watching w with held := none } : Conn).lift commit =
        (.error (changedError key), { d with site := t, held := none }) := by
      unfold Conn.lift
      rw [show commit ({ d.watching w with held := none } : Conn).site = _ from hcommit]
      rfl
    simp only [bind, EStateM.bind, session, hlift]
  have halone : evalAlone script (c₁.watching w) = settle (.ok r) (d.watching w) := by
    have hperformed : performed script { c₂.watching w with held := some [] } = .ok (.ok r) (d.watching w) := by
      unfold performed
      rw [show ({ c₂.watching w with held := some [] } : Conn).perform script = _ from hperform']
    simp only [evalAlone, bind, EStateM.bind, hbegin']
    show (performed script >>= settle) { c₂.watching w with held := some [] } = _
    simp only [bind, EStateM.bind, hperformed]
  have heval : eval script (c₁.watching w) = evalAlone script (c₁.watching w) := by
    show (if c₁.implicit = true then _ else _ : C Reply) (c₁.watching w) = _
    rw [if_pos himp]
  have hcommand : evalCommand (upper (args.headD [])) args (c.watching w) = eval script (c₁.watching w) := by
    simp only [evalCommand, bind, EStateM.bind, hscript']
  refine ⟨{ d with site := t, held := none }, ?_⟩
  rw [show handle args (c.watching w) = _ from handle_eval hname haway hqueued]
  unfold reply
  rw [hcommand, heval, halone, hsettle]

omit [External] [Chrono] [Codec] [Vectors] [Commands] in
theorem changedError_reply {key key' : String}
    (h : Reply.ofError (changedError key) = .ofError (changedError key')) : key = key' := by
  have hlist := congrArg String.toList (Reply.error.inj h)
  simp only [toString, String.toList_append, List.append_assoc, List.append_cancel_left_eq,
    List.append_cancel_right_eq] at hlist
  exact String.toList_inj.mp hlist

/-- Whatever a connection watches, a command other than EXEC answers the same
and does the same, unless it runs a script in a transaction of its own: once the
script has ended without error and there is room for what it wrote, the keys
watched decide. -/
theorem watching_matters_to_scripts (args : List Bytes) (c : Conn) (hexec : upper (args.headD []) ≠ "EXEC") :
    (scripted args c = none → Unmoved (handle args) c) ∧
      ∀ d, scripted args c = some d → d.site.Room → ¬ Unmoved (handle args) c := by
  refine ⟨handle_unmoved hexec, fun d hd hroom hunmoved => ?_⟩
  obtain ⟨key, -, e, he⟩ := handle_gone hd hroom ""
  obtain ⟨key', hne, e', he'⟩ := handle_gone hd hroom key
  have hsame := (hunmoved (some (d.site.sess.ws, gone key))).trans (hunmoved (some (d.site.sess.ws, gone key'))).symm
  rw [he, he'] at hsame
  simp only [mapState, EStateM.Result.ok.injEq] at hsame
  exact hne (changedError_reply hsame.1).symm

end Resp

end

namespace Resp

section Samples

open Front Reference

local instance watchedCodec : Codec := codec []

/-- Every script returns 1; no other command does anything. -/
local instance returnsOne : Commands where
  data _ _ := pure .ok
  waiting _ _ := pure .ok
  script _ _ _ := pure (.int 1)
  sha1 _ := ""

def pinging : List Bytes := [asBytes "PING"]

theorem watching_matters_to_scripts_sample : Unmoved (handle pinging) (connection server [] 5) := by
  have hscripted : scripted pinging (connection server [] 5) = none := if_neg (by decide +kernel)
  exact (watching_matters_to_scripts pinging (connection server [] 5) (by decide +kernel)).1 hscripted

/-- Another client writes `k` once the connection watches it. -/
def watchingK : Conn :=
  connection server [quiet 5, quiet 5, quiet 5,
    { quiet 5 with others := [.put "default" "k" (.str "x") 0 false (.still 5) (.error "")] }] 5

def evalOne : List Bytes := [asBytes "EVAL", asBytes "return 1", asBytes "0"]

/-- The reply to a command after `WATCH k`, the watch kept or forgotten. -/
def afterWatch (forget : Bool) (args : List Bytes) : Option Reply :=
  match handle [asBytes "WATCH", asBytes "k"] watchingK with
  | .error _ _ => none
  | .ok _ c =>
      match handle args (if forget then c.watching none else c) with
      | .ok r _ => some r
      | .error _ _ => none

theorem eval_answers_by_watch :
    upper (evalOne.headD []) ≠ "EXEC" ∧ afterWatch false evalOne = some (.error "EXECABORT the watched key 'k' changed") ∧
      afterWatch true evalOne = some (.int 1) := by
  refine ⟨by decide +kernel, by decide +kernel, by decide +kernel⟩

end Samples

end Resp

end KivaDb
