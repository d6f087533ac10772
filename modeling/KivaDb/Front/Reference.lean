import KivaDb.Engine.Libraries
import KivaDb.Resp.Commands

namespace KivaDb.Reference

open Front

variable [Codec]

/-- An administrator in the workspace `default`. -/
def session : Front.Session where
  user := some ⟨"root", .admin⟩
  ws := "default"
  wsPriv := some .write
  txn := none
  wrote := false
  watch := none

/-- A master with the workspaces `default` and `db1`, both empty. -/
def server : Server where
  engines := fun _ => fresh none
  workspaces := ["default", "db1"]
  replicaOf := none
  maxMembers := 0
  accounts := fun _ _ => .error (.denied "invalid username or password")
  access := fun _ _ => none
  receivers := fun _ => 0
  scripts := []
  sent := []
  touched := []

/-- Nobody else is at work, and the clock shows `t`. -/
def quiet (t : Int64) : Moment where
  others := []
  clock := .still t
  draws := fun _ => .error ""
  random := .ok 0
  fileId := .ok 2
  opens := .ok ()

/-- The moments of a session: those of `ms` and then quiet ones at `t`. -/
def moments (ms : List Moment) (t : Int64) (n : Nat) : Moment := ms.getD n (quiet t)

/-- A connection to `server`. -/
def connection (server : Server) (ms : List Moment) (t : Int64) : Resp.Conn where
  site := ⟨session, server, moments ms t⟩
  queued := none
  aborted := false
  home := none
  resp3 := false
  subs := 0
  held := none

end KivaDb.Reference
