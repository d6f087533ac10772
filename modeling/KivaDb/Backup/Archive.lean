import KivaDb.Backup.Check
import KivaDb.Config
import KivaDb.FromJson
import KivaDb.Resp.Values

namespace KivaDb

open Lib.LittleEndian Lib.Utf8 Format

/-- What a backup takes from `tar` and `flate2`, `sha2`, `serde_json` and `chrono`. -/
class Archives where
  File : Type
  content : File → Bytes
  /-- The files of an archive, in order. -/
  pack : List (String × Bytes) → File
  unpack : File → Except String (List (String × Bytes))
  sha256 : Bytes → Bytes
  toJson : Json → Bytes
  fromJson : Bytes → Option Json
  jsonText : Json → String
  fmtTime : Int → String

namespace Json

def member (j : Json) (k : String) : Json := (j.get? k).getD .null

def asArray : Json → Option (List Json)
  | array items => some items
  | _ => none

def asU64 : Json → Option UInt64
  | number n => n.asU64
  | _ => none

def asI64 : Json → Option Int64
  | number n => n.asI64
  | _ => none

end Json

namespace Backup

def root : String := "kivadb-backup"

def version : String := "2.0.0-rc.2"

inductive Scope
  | home
  | workspace (name : String)
  deriving DecidableEq

/-- The data file of an engine as it is at one instant, and its index definitions. -/
structure Store where
  data : Bytes
  defs : Option Bytes
  opened : ∃ head, parseFileHeader (data.take fileHeaderLen) = .ok head

/-- The name of a file or a folder. -/
def IsName (s : String) : Prop := s ≠ "" ∧ s ≠ "." ∧ s ≠ ".." ∧ '/' ∉ s.toList

instance (s : String) : Decidable (IsName s) := by
  unfold IsName
  infer_instance

/-- What a backup reads of a running instance. -/
structure Instance where
  cfg : Config
  conf : Bytes
  engine : String → Result Store
  system : Store
  auditLog : Option Bytes
  tls : List (String × Bytes)
  keyId : Option String
  now : Int64
  tls_names : ∀ f ∈ tls, IsName f.1
  tls_nodup : (tls.map Prod.fst).Nodup

def names (inst : Instance) : Scope → List String
  | .home => "default" :: inst.cfg.workspaces.map Prod.fst
  | .workspace n => [n]

structure Writer where
  tar : List (String × Bytes)
  files : List Json
  storageFormat : UInt32

section

variable [Archives]

open Archives

def hex (b : Bytes) : String := Crypt.idHex b

/-- What the manifest says of a file. -/
def describe (f : String × Bytes) : Json :=
  .object [("path", .string f.1), ("size", .number (.posInt (.ofNat f.2.length))), ("sha256", .string (hex (sha256 f.2)))]

namespace Writer

def add (w : Writer) (name : String) (data : Bytes) : Writer :=
  { w with tar := w.tar ++ [(s!"{root}/{name}", data)], files := w.files ++ [describe (name, data)] }

def addEngine (w : Writer) (dir file : String) (store : Store) : Writer :=
  let w := w.add s!"{dir}/{file}" store.data
  let w := match parseFileHeader (store.data.take fileHeaderLen) with
    | .ok (_, format) => { w with storageFormat := max w.storageFormat format }
    | .error _ => w
  match store.defs with
  | some defs => w.add s!"{dir}/{file}.meta" defs
  | none => w

def addEngines (inst : Instance) : List String → Writer → Result Writer
  | [], w => .ok w
  | name :: names, w => do
      let store ← inst.engine name
      addEngines inst names (w.addEngine s!"workspaces/{name}" "store.kiva" store)

/-- What a home has beside its workspaces. -/
def addHome (w : Writer) (inst : Instance) : Writer :=
  let w := (w.add "kiva.conf" inst.conf).addEngine "system" "system.kiva" inst.system
  let w := match inst.auditLog with
    | some log => w.add "audit.log" log
    | none => w
  inst.tls.foldl (fun w f => w.add s!"tls/{f.1}" f.2) w

end Writer

def manifest (inst : Instance) (scope : Scope) (w : Writer) : Json :=
  .object
    [("format", .number (.posInt (if 3 ≤ w.storageFormat then 2 else 1))),
      ("kivadb", .string version),
      ("created", .number (.ofInt inst.now)),
      ("scope", .string (if scope = .home then "home" else "workspace")),
      ("workspaces", .array ((names inst scope).map fun n =>
        .object [("name", .string n), ("dir", .string ((inst.cfg.workspaceDir n).getD ""))])),
      ("encryption_key", inst.keyId.elim .null .string),
      ("files", .array w.files)]

/-- The files saved, before the manifest. -/
def saved (inst : Instance) (scope : Scope) : Result Writer := do
  let w ← Writer.addEngines inst (names inst scope) ⟨[], [], 0⟩
  return if scope = .home then w.addHome inst else w

def writeArchive (inst : Instance) (scope : Scope) : Result File := do
  let w ← saved inst scope
  return pack (w.tar ++ [(s!"{root}/manifest.json", toJson (manifest inst scope w))])

/-- An archive, the text of the `.sha256` file next to it where there is one, and its path. -/
structure Archive where
  file : File
  sums : Option String
  path : Path

def sumsPath (path : Path) : Path := path.dropLast ++ [path.getLastD "" ++ ".sha256"]

/-- Writes a backup to a file that is not there yet, and its checksum next to it. -/
def backup (inst : Instance) (scope : Scope) (output : Path) : Result Archive := do
  let file ← writeArchive inst scope
  let sum := hex (sha256 (content file))
  let name := output.getLastD ""
  return ⟨file, some s!"{sum}  {name}\n", output⟩

inductive Component
  | rootDir
  | curDir
  | parentDir
  | normal (name : String)
  deriving DecidableEq

/-- The components of a path: a `.` counts at its start only. -/
def components (path : String) : List Component :=
  let parts := path.toList.splitOn '/'
  let first : List Component := match parts with
    | [] :: _ :: _ => [.rootDir]
    | ['.'] :: _ => [.curDir]
    | _ => []
  first ++ parts.filterMap fun p =>
    if p = [] ∨ p = ['.'] then none else if p = ['.', '.'] then some .parentDir else some (.normal (String.ofList p))

def bad (archive : Path) (why : String) : KivaError := .corrupted s!"{display archive} cannot be restored: {why}"

def allNormal : List Component → Option (List String)
  | [] => some []
  | .normal n :: cs => (allNormal cs).map (n :: ·)
  | _ :: _ => none

/-- Where a file of an archive goes in the folder that it is unpacked in. -/
def relative (archive : Path) (path : String) : Result Path :=
  match components path with
  | .normal r :: rest =>
      if r = root then
        match allNormal rest with
        | some (n :: rel) => .ok (n :: rel)
        | _ => .error (bad archive s!"unsafe path {path}")
      else .error (bad archive s!"unexpected file {path}")
  | _ => .error (bad archive s!"unexpected file {path}")

scoped instance lawfulPath : LawfulBEq Path := inferInstance

def put {α : Type} (files : List (Path × α)) (p : Path) (a : α) : List (Path × α) :=
  if p ∈ files.map Prod.fst then files.map fun f => if f.1 = p then (p, a) else f else files ++ [(p, a)]

structure Checked where
  manifest : Json
  /-- The files unpacked, by their path in the folder of the restore. -/
  staging : List (Path × Bytes)
  lines : List String

/-- What is known of a file found in an archive: its name, its size and its checksum. -/
abbrev Found := String × UInt64 × String

def unpackInto (archive : Path) : List (String × Bytes) → List (Path × Bytes) × List Found →
    Result (List (Path × Bytes) × List Found)
  | [], s => .ok s
  | (path, data) :: entries, s => do
      let rel ← relative archive path
      unpackInto archive entries
        (put s.1 rel data, s.2 ++ [("/".intercalate rel, .ofNat data.length, hex (sha256 data))])

def checkFiles (archive : Path) (found : List Found) : List Json → Result Unit
  | [] => .ok ()
  | f :: listed => do
      let name := ((f.member "path").asString).getD ""
      match found.find? fun x => x.1 = name with
      | none => .error (bad archive s!"{name} is missing")
      | some (_, size, sha) =>
          if some size = (f.member "size").asU64 ∧ some sha = (f.member "sha256").asString then checkFiles archive found listed
          else .error (bad archive s!"{name} does not match its SHA-256")

variable [External] [Chrono] [Clocks]

/-- The names of a path that has no other components. -/
def pathNames (path : String) : Path := (components path).filterMap fun
  | .normal n => some n
  | _ => none

def checkLogs (archive : Path) (staging : List (Path × Bytes)) : List Json → Result Nat
  | [] => .ok 0
  | f :: listed =>
      let name := ((f.member "path").asString).getD ""
      if ".kiva".toList <:+ name.toList then
        match staging.lookup (pathNames name) with
        | none => .error (bad archive s!"{name}: the file cannot be read")
        | some data =>
            match checkLog data with
            | .error e => .error (bad archive s!"{name}: {e}")
            | .ok n => (checkLogs archive staging listed).map (n + ·)
      else checkLogs archive staging listed

def firstWord (text : String) : String :=
  String.ofList ((text.toList.dropWhile JsonPath.isWhitespace).takeWhile fun c => !JsonPath.isWhitespace c)

/-- The archive's own SHA-256, where it is known. -/
def checkSums (a : Archive) : Result (List String) :=
  match a.sums with
  | none => .ok []
  | some text =>
      if hex (sha256 (content a.file)) = (firstWord text).toLower then
        .ok [s!"Archive SHA-256 matches {display (sumsPath a.path)}."]
      else .error (bad a.path s!"its SHA-256 does not match {display (sumsPath a.path)}: it was damaged or changed")

def readManifest (a : Archive) (staging : List (Path × Bytes)) : Result Json :=
  match (staging.lookup ["manifest.json"]).bind fromJson with
  | none => .error (bad a.path "it has no readable manifest.json: is it a KivaDB backup?")
  | some m =>
      if (m.member "format").asU64.any fun f => 1 ≤ f && f ≤ 2 then .ok m
      else
        let format := jsonText (m.member "format")
        .error (bad a.path s!"backup format {format} is not supported by this KivaDB")

def report (m : Json) (files records : Nat) : String :=
  let by_ := ((m.member "kivadb").asString).getD "?"
  let created := fmtTime (((m.member "created").asI64).elim 0 Int64.toInt)
  s!"{files} file(s) match their SHA-256; {records} record(s) checked. Made by KivaDB {by_} on {created}."

/-- Unpacks an archive and checks it: its own SHA-256, then every file against the
manifest, then every record of every data file. -/
def check (a : Archive) : Result Checked := do
  let lines ← checkSums a
  let entries ← (unpack a.file).mapError (bad a.path)
  let (staging, found) ← unpackInto a.path entries ([], [])
  let m ← readManifest a staging
  let listed := ((m.member "files").asArray).getD []
  checkFiles a.path found listed
  if found.length = listed.length + 1 then
    let records ← checkLogs a.path staging listed
    return ⟨m, staging, lines ++ [report m listed.length records]⟩
  else .error (bad a.path "it holds files its manifest does not list")

end

end Backup

end KivaDb
