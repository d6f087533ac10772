import KivaDb.Resp.Commands

namespace KivaDb.Resp

open Lib.LittleEndian Lib.Program Front

variable [External] [Chrono] [Codec] [Vectors]

/-- Databases SELECT knows by a number. -/
def databases : Int64 := 16

/-- Enters `ws`; without access, the answer is `refused`. -/
def switchTo (ws refused : String) : Cmd Unit := do
  let entered : Except KivaError Unit ← Prog.ask (Op.switchWorkspace ws)
  match entered with
  | .ok () => return ()
  | .error (.denied _) => .fail (.error refused)
  | .error (.notFound _) => .fail (.error refused)
  | .error other => .fail (.ofError other)

/-- `SELECT n`: database 0 is the workspace the user arrived in, database n the
workspace `db<n>`, created on first use when the user is an administrator. -/
def selectNumber (n : Int64) : Cmd Unit := do
  let who : Who ← Cmd.ask .who
  let home := who.home.getD who.ws
  Cmd.ask (.setHome (some home))
  let target := if n = 0 then home else s!"db{n.toInt}"
  if target = who.ws then return ()
  else if target = "" then Cmd.ask .leave
  else
    match who.user with
    | none => .fail (.error "NOAUTH Authentication required.")
    | some user =>
        if 0 < n ∧ user.role = .admin then Cmd.ask (.ensureWorkspace target)
        switchTo target s!"NOPERM no access to database {n.toInt} (KivaDB workspace '{target}'). An administrator can create it and give access with: workspace create {target}, then grant write on workspace \"{target}\" to \"{user.name}\""

/-- `SELECT <workspace>`: a workspace by its name. -/
def selectWorkspace (name : String) : Cmd Unit := do
  let who : Who ← Cmd.ask .who
  match who.user with
  | none => .fail (.error "NOAUTH Authentication required.")
  | some user =>
      if name = who.ws ∧ who.wsPriv.isSome = true then return ()
      else
        Cmd.ask (.setHome (some (who.home.getD who.ws)))
        switchTo name s!"NOPERM no access to workspace '{name}' for '{user.name}', or it does not exist. An administrator gives it with: grant write on {name} to \"{user.name}\""

def select (args : List Bytes) : Cmd Reply := do
  Prog.ofExcept (arity args 2)
  let name ← Prog.ofExcept (text (args.getD 1 []))
  match parseI64 name with
  | none =>
      selectWorkspace name
      return .ok
  | some n =>
      if n < 0 ∨ databases ≤ n then .fail (.err "DB index is out of range")
      else
        selectNumber n
        return .ok

end KivaDb.Resp
