import KivaDb.Front.Direct
import KivaDb.Front.Reference
import KivaDb.Resp.Calm
import KivaDb.Resp.Collections

namespace KivaDb

open Lib.LittleEndian Lib.Utf8 Lib.Program Lib.Fallible Relation

section

variable [External] [Chrono] [Codec] [Vectors]

namespace Resp

open Front

def Conn.engine (c : Conn) : Inner := c.site.server.engines c.site.sess.ws

/-- No key was written or deleted. -/
def Conn.Untouched (c d : Conn) : Prop := Inner.Chain [] c.engine (d.site.server.engines c.site.sess.ws)

/-- The write that saves a collection. -/
def Save.op (s : Save) : BatchOp := if s.size = 0 then .del s.key else .put s.key s.value s.expiresAt false

/-- The writes that save the collections; an empty one whose key has gone already
needs none. -/
inductive Saved : List Save → List BatchOp → Prop
  | nil : Saved [] []
  | wrote {s : Save} {ss : List Save} {ops : List BatchOp} (h : Saved ss ops) : Saved (s :: ss) (s.op :: ops)
  | gone {s : Save} {ss : List Save} {ops : List BatchOp} (hs : s.size = 0) (h : Saved ss ops) : Saved (s :: ss) ops

omit [External] [Codec] [Vectors] in
theorem Saved.append {ss ss' : List Save} {ops ops' : List BatchOp} (h : Saved ss ops) (h' : Saved ss' ops') :
    Saved (ss ++ ss') (ops ++ ops') := by
  induction h with
  | nil => exact h'
  | wrote _ ih => exact .wrote ih
  | gone hs _ ih => exact .gone hs ih

/-- The collections were saved, and nothing else was written. -/
def Conn.Saves (c d : Conn) (ss : List Save) : Prop :=
  ∃ ops, Saved ss ops ∧ Inner.Chain ops c.engine (d.site.server.engines c.site.sess.ws)

/-- The reply says that nothing was moved. -/
def declines : Except Reply Reply → Bool
  | .error _ => true
  | .ok r => r.isError || r = .nil || r = .int 0

section Plans

variable {c c₂ d : Conn} {s t : Save} {ops : List BatchOp}

/-- The first collection was saved, and the second one is refused then. -/
def Conn.Halfway (c : Conn) (s t : Save) : Prop :=
  ∃ c₂ e d, c.perform s.run = (.ok (), c₂) ∧ c.engine.emitted.length < c₂.engine.emitted.length ∧
    c₂.perform t.run = (.error e, d)

/-- The command is about to save two collections, and the second one is refused
once the first one was saved. -/
def Conn.Refused (c : Conn) (p : Cmd Plan) : Prop :=
  ∃ s t r c₁, c.perform p = (.ok (.two s t r), c₁) ∧ c₁.Halfway s t

/-- What the plan says it moves is moved once its collections were saved. -/
def Conn.Leads (c d : Conn) (Moved : Reply → Prop) : Plan → Prop
  | .answer r => declines (.ok r) = true ∨ (c.Untouched d → Moved r)
  | .one s r => declines (.ok r) = false ∧ (c.Saves d [s] → Moved r)
  | .two s t r => declines (.ok r) = false ∧ (c.Saves d [s, t] → Moved r)

end Plans

/-- What a command of the connection finds at `k`, with its expiry. -/
def Conn.Finds (c : Conn) (k : String) (v : Option (Value × Int64)) : Prop :=
  ∃ c' found, ReflTransGen Site.Looks c.site c'.site ∧ (answer (.kvGet k) c').1 = .ok found ∧
    found.map (fun p => (p.1, p.2.expiresAt)) = v

theorem Conn.Finds.later {c c₁ : Conn} (hlooks : ReflTransGen Site.Looks c.site c₁.site) {k : String}
    {v : Option (Value × Int64)} (h : c₁.Finds k v) : c.Finds k v := by
  obtain ⟨c', found, hlooks', h⟩ := h
  exact ⟨c', found, hlooks.trans hlooks', h⟩

omit [External] [Chrono] [Codec] [Vectors] in
theorem mem_insert {ms : Members} {m x : String} {v : Json} :
    x ∈ (ms.insert m v).map Prod.fst ↔ x = m ∨ x ∈ ms.map Prod.fst := by
  unfold Members.insert
  split
  · next hm =>
      have hfst : (ms.map fun p => if p.1 = m then (m, v) else p).map Prod.fst = ms.map Prod.fst := by
        rw [List.map_map]
        refine List.map_congr_left fun p _ => ?_
        simp only [Function.comp]
        split
        · next hp => exact hp.symm
        · rfl
      rw [hfst]
      refine ⟨.inr, fun h => ?_⟩
      obtain rfl | h := h
      · exact List.contains_iff_mem.mp hm
      · exact h
  · rw [List.map_append, List.mem_append, or_comm]
    simp

/-- Neither key changed when the reply says that nothing was moved, and the
element moved when it says so. -/
def Conn.Keeps (c d : Conn) (res : Except Reply Reply) (Moved : Reply → Prop) : Prop :=
  (declines res = true → c.Untouched d) ∧ ∀ r, res = .ok r → declines res = false → Moved r

section Commands

variable {c d : Conn} {res : Except Reply Reply}

def Plan.reply : Plan → Reply
  | answer r => r
  | one _ r => r
  | two _ _ r => r

end Commands

end Resp

end

namespace Resp

section Samples

open Front Reference

def oneMember (m : String) : Json := .object [("redis", .string "set"), ("members", .array [.string m])]

local instance movingCodec : Codec := codec [oneMember "x", oneMember "y"]

end Samples

end Resp

end KivaDb
