import KivaDb.Backup.Archive
import KivaDb.Repl.Stream

namespace KivaDb

open Lib.LittleEndian Lib.Utf8

/-- Files and folders, and the homes on which KivaDB runs. A folder has no bytes. -/
structure World where
  entries : List (Path × Option Bytes)
  running : List Path

namespace World

def read (w : World) (p : Path) : Option Bytes := (w.entries.lookup p).join

def write (w : World) (p : Path) (b : Bytes) : World := { w with entries := Backup.put w.entries p (some b) }

end World

namespace Backup

structure RestoreOptions where
  /-- The new home of a home backup, the folder of a workspace backup. -/
  target : Option Path
  rename : Option String
  checkOnly : Bool

abbrev M := EStateM KivaError World

def fromResult {α : Type} : Result α → M α
  | .ok a => pure a
  | .error e => throw e

def writeFile (p : Path) (b : Bytes) : M Unit := modify (·.write p b)

/-- Holds the lock of a home, on which KivaDB must not run. -/
def lockHome (home : Path) : M Unit := do
  let w ← get
  if (w.read (home ++ ["instance.lock"])).isNone then writeFile (home ++ ["instance.lock"]) []
  if home ∈ w.running then
    throw (.locked s!"KivaDB is running on {display home}: stop it first (kivadb stop), then restore")

/-- Whether a folder is missing, or holds a lock and folders of restores only. -/
def isEmptyDir (w : World) (dir : Path) : Bool :=
  w.entries.all fun (p, _) =>
    !decide (dir <+: p) || match (p.drop dir.length).head? with
      | none => true
      | some n => n = "instance.lock" || ".kivadb-restore-".toList.isPrefixOf n.toList

def loadConfig (home : Path) : M Config := do
  match ((← get).read (home ++ ["kiva.conf"])).bind fromUtf8 with
  | some text => return Config.parse home text.toList
  | none =>
      writeFile (home ++ ["kiva.conf"]) (asBytes (Config.fresh home).text)
      return Config.fresh home

section

variable [Chrono] [Formats]

/-- Sets a value and saves the configuration. -/
def setConfig (c : Config) (section_ key value : String) : M Config := do
  let c ← fromResult (c.set section_ key value)
  writeFile (c.home ++ ["kiva.conf"]) (asBytes c.text)
  return c

end

def installIf (staging : List (Path × Bytes)) (source dest : Path) : M Unit :=
  match staging.lookup source with
  | some data => writeFile dest data
  | none => pure ()

def install (staging : List (Path × Bytes)) (source dest : Path) : M Unit :=
  match staging.lookup source with
  | some data => writeFile dest data
  | none => throw (.io "No such file or directory (os error 2)")

def installAll (staging : List (Path × Bytes)) (source dest : Path) : List String → M Unit
  | [] => pure ()
  | f :: files => do
      installIf staging (source ++ [f]) (dest ++ [f])
      installAll staging source dest files

def installWorkspace (staging : List (Path × Bytes)) (name : String) (dir : Path) : M Unit :=
  installAll staging ["workspaces", name] dir ["store.kiva", "store.kiva.meta"]

/-- The names of the files of a folder. -/
def filesOf (staging : List (Path × Bytes)) (dir : String) : List String :=
  staging.filterMap fun f => match f.1 with
    | [d, n] => if d = dir then some n else none
    | _ => none

/-- Where a workspace goes in a new home. -/
def homeDir (home : Path) (name : String) : Path :=
  if name = "default" then home ++ ["data"] else home ++ ["workspaces", name]

section

variable [Chrono] [Formats]

def restoreWorkspaces (staging : List (Path × Bytes)) (home : Path) : List String → Config → M Config
  | [], c => return c
  | name :: names, c => do
      let dir := homeDir home name
      installWorkspace staging name dir
      let c ← if name = "default" then setConfig c "storage" "default_workspace" (display dir)
        else setConfig c "workspaces" name (display dir)
      restoreWorkspaces staging home names c

def restoreHome (staging : List (Path × Bytes)) (names : List String) (home : Path) : M Unit := do
  lockHome home
  let w ← get
  if !isEmptyDir w home then
    throw (.exists s!"{display home} is not empty: restore into a new folder with --target, or move this one away first")
  install staging ["kiva.conf"] (home ++ ["kiva.conf"])
  installAll staging ["system"] (home ++ ["system"]) ["system.kiva", "system.kiva.meta"]
  installIf staging ["audit.log"] (home ++ ["audit.log"])
  installAll staging ["tls"] (home ++ ["tls"]) (filesOf staging "tls")
  let c ← loadConfig home
  let _ ← restoreWorkspaces staging home names c

def restoreWorkspace (staging : List (Path × Bytes)) (original name : String) (home dir : Path) : M Unit := do
  lockHome home
  let c ← loadConfig home
  if (c.workspaceDir name).isSome then
    throw (.exists s!"workspace '{name}' already exists in {display home}: restore it under another name with --as <name>")
  if !Repl.validNamePart name.toList then
    throw (.invalid "workspace names may only contain letters, digits, '_' and '-'")
  let w ← get
  if !isEmptyDir w dir then
    throw (.exists s!"{display dir} is not empty: choose another folder with --target")
  installWorkspace staging original dir
  let _ ← setConfig c "workspaces" name (display dir)

variable [Archives] [External] [Clocks]

def workspaceNames (m : Json) : List String :=
  (((m.member "workspaces").asArray).getD []).filterMap fun w => (w.member "name").asString

/-- Restores an archive: a home into a folder that is empty, a workspace into a home that
does not have it. -/
def restore (a : Archive) (home : Path) (opts : RestoreOptions) : M (List String) := do
  let checked ← fromResult (check a)
  let names := workspaceNames checked.manifest
  let scope := Archives.jsonText (checked.manifest.member "scope")
  if opts.checkOnly then
    return checked.lines ++ [s!"The archive is sound; nothing was restored ({scope} backup)."]
  let key := match ((checked.manifest.member "encryption_key").asString) with
    | some id => [s!"This data is encrypted with key {id}: start KivaDB with that key."]
    | none => []
  if (checked.manifest.member "scope").asString = some "home" then
    if opts.rename.isSome then throw (.invalid "--as renames a workspace backup, not a home backup")
    let target := opts.target.getD home
    restoreHome checked.staging names target
    let all := ", ".intercalate names
    return checked.lines ++ [s!"Home restored to {display target} (workspaces: {all}).",
      "Start it with: kivadb --home \"" ++ display target ++ "\" start"] ++ key
  else
    match names with
    | [] => throw (bad a.path "it names no workspace")
    | original :: _ =>
        let name := opts.rename.getD original
        let dir := opts.target.getD (home ++ ["workspaces", name])
        restoreWorkspace checked.staging original name home dir
        return checked.lines ++ [s!"Workspace '{original}' restored as '{name}' in {display dir}."] ++ key

end

end Backup

end KivaDb
