import KivaDb.External
import KivaDb.Nearest
import KivaDb.Time.Pattern
import Mathlib.Data.List.Sort
import Std.Data.ExtTreeMap

namespace KivaDb

open JsonPath (trim)

/-- The folders of an absolute path, and its last name. -/
abbrev Path := List String

def display (p : Path) : String := "/" ++ "/".intercalate p

abbrev Sections := Std.ExtTreeMap String (Std.ExtTreeMap String String compare) compare

/-- `kiva.conf`: a value for each key of each section. -/
structure Config where
  home : Path
  sections : Sections

namespace Time

def FormatKind.all : List FormatKind := [.date, .time, .datetime]

def FormatKind.configKey : FormatKind → String
  | date => "date_format"
  | time => "time_format"
  | datetime => "datetime_format"

/-- `iso` or a format. -/
def parseFormat (kind : FormatKind) (text : String) : Except String (Option Pattern) :=
  if (trimmed text).toLower = "iso" ∨ trimmed text = "" then .ok none else (Pattern.parse kind (trimmed text)).map some

end Time

theorem toLower_eq_self {s : String} (h : ∀ c ∈ s.toList, c.toLower = c) : s.toLower = s := by
  have hmap : s.toLower.toList = s.toList.map Char.toLower := String.toList_map
  rw [← String.toList_inj, hmap, List.map_congr_left h, List.map_id']

namespace Config

/-- The section, the key and the default of each setting. -/
def known : List (String × String × String) :=
  [("storage", "default_workspace", ""), ("storage", "auto_compact", "true"), ("storage", "compact_threshold", "30"),
    ("storage", "compression", "none"), ("storage", "sync_writes", "false"), ("storage", "snapshot_interval", "300"),
    ("storage", "snapshot_every", "1000"), ("storage", "cache_values", "false"), ("storage", "cache_size_mb", "256"),
    ("storage", "max_memory_mb", "0"), ("network", "port", "2911"), ("network", "bind", "127.0.0.1"),
    ("security", "auth_required", "false"), ("time", "zone", "local"), ("time", "date_format", "iso"),
    ("time", "time_format", "iso"), ("time", "datetime_format", "iso"), ("server", "threads", "8"),
    ("server", "max_clients", "1000"), ("http", "enabled", "true"), ("http", "stream", "true"), ("http", "port", "8080"),
    ("http", "rate_limit", "600"), ("http", "cors", "true"), ("resp", "enabled", "true"), ("resp", "port", "6379"),
    ("resp", "max_collection_members", "100000"), ("tls", "enabled", "true"), ("tls", "required", "false"),
    ("tls", "cert", ""), ("tls", "key", ""), ("tls", "hosts", ""), ("encryption", "key_file", ""),
    ("encryption", "old_key_file", ""), ("encryption", "required", "false"), ("vector", "max_ram_mb", "auto"),
    ("semantic", "cache.enabled", "false"), ("semantic", "cache.threshold", "0.98"), ("semantic", "cache.ttl", "300"),
    ("semantic", "cache.max_entries", "10000"), ("failover", "auto", "false"), ("failover", "heartbeat_ms", "1000"),
    ("failover", "down_after_ms", "5000"), ("failover", "quorum", "0"), ("failover", "priority", "100"),
    ("failover", "node_id", ""), ("failover", "epoch", "0"), ("failover", "voted", "0"), ("failover", "nodes", ""),
    ("replication", "role", "master"), ("replication", "master_host", ""), ("replication", "master_port", "2911"),
    ("replication", "master_user", "kiva"), ("replication", "master_password", ""), ("replication", "master_tls", "false"),
    ("replication", "master_fingerprint", ""), ("replication", "sync_mode", "async"),
    ("replication", "min_slaves_ack", "1"), ("scripting", "timeout_ms", "5000"), ("scripting", "memory_limit_mb", "64")]

/-- A `u64` as Rust parses it: a plus or none, then digits. -/
def readU64 (s : List Char) : Option Nat :=
  let digits := match s with
    | '+' :: rest => rest
    | s => s
  let n := Time.digitsValue digits
  if digits ≠ [] ∧ digits.all Char.isDigit ∧ n < 2 ^ 64 then some n else none

def intIn (lo hi : Nat) (value : String) : Bool := (readU64 value.toList).any fun n => lo ≤ n && n ≤ hi

/-- The exponent that ends a number: `e` or `E`, a sign or none, then digits. -/
def readExponent : List Char → Option Int
  | [] => some 0
  | c :: s =>
      let (sign, digits) : Int × List Char := match s with
        | '-' :: rest => (-1, rest)
        | '+' :: rest => (1, rest)
        | s => (1, s)
      if (c = 'e' ∨ c = 'E') ∧ digits ≠ [] ∧ digits.all Char.isDigit then some (sign * Time.digitsValue digits) else none

/-- An `f64` as Rust parses it, where it is a finite number. -/
def readF64 (s : List Char) : Option F64 :=
  let (negative, s) := match s with
    | '-' :: rest => (true, rest)
    | '+' :: rest => (false, rest)
    | s => (false, s)
  let whole := s.takeWhile Char.isDigit
  let rest := s.dropWhile Char.isDigit
  let (frac, rest) := match rest with
    | '.' :: rest => (rest.takeWhile Char.isDigit, rest.dropWhile Char.isDigit)
    | rest => ([], rest)
  if whole ++ frac = [] then none
  else
    (readExponent rest).bind fun e =>
      let n := Time.digitsValue (whole ++ frac)
      let scale := e - frac.length
      if 0 ≤ scale then F64.ratio negative (n * 10 ^ scale.toNat) 1 else F64.ratio negative n (10 ^ (-scale).toNat)

/-- Above 0, and at most 1. -/
def inUnit (value : String) : Bool := (readF64 value.toList).any fun f => 0 < f.units && f.units ≤ 2 ^ 1074

def trimStart (start : List Char) : Nat → List Char → List Char
  | 0, s => s
  | fuel + 1, s => if start <+: s ∧ start ≠ [] then trimStart start fuel (s.drop start.length) else s

def isHexDigit (c : Char) : Bool := c.isDigit || ('a' ≤ c && c ≤ 'f') || ('A' ≤ c && c ≤ 'F')

/-- The digits of a SHA-256 fingerprint, however it is written. -/
def normalizeFingerprint (s : String) : Option String :=
  let s := trim s.toList
  let s := trimStart "sha256/".toList s.length s
  let s := trimStart "SHA256:".toList s.length s
  let hex := s.filter (· ≠ ':')
  if hex.length = 64 ∧ hex.all isHexDigit then some (String.ofList hex).toLower else none

def switches : List String :=
  ["auto_compact", "sync_writes", "auth_required", "enabled", "cors", "cache_values", "stream", "required", "master_tls",
    "auto", "cache.enabled"]

/-- The least and the greatest value of the keys that take a number. -/
def ranges : List (String × Nat × Nat) :=
  [("heartbeat_ms", 50, 60000), ("cache.ttl", 0, 315360000), ("cache.max_entries", 1, 10000000),
    ("down_after_ms", 200, 3600000), ("quorum", 0, 100), ("priority", 0, 1000), ("epoch", 0, 2 ^ 64 - 1),
    ("voted", 0, 2 ^ 64 - 1), ("cache_size_mb", 1, 1048576), ("max_memory_mb", 0, 16777216),
    ("max_collection_members", 0, 100000000), ("compact_threshold", 1, 99), ("port", 1, 65535), ("master_port", 1, 65535),
    ("threads", 1, 1024), ("max_clients", 1, 1000000), ("rate_limit", 0, 1000000), ("min_slaves_ack", 0, 1000000),
    ("snapshot_interval", 1, 2 ^ 32 - 1), ("snapshot_every", 1, 2 ^ 32 - 1), ("timeout_ms", 1, 2 ^ 32 - 1),
    ("memory_limit_mb", 1, 2 ^ 32 - 1)]

/-- The keys that take one of a few words. -/
def choices : List (String × List String) :=
  [("compression", ["none", "lz4", "zlib"]), ("role", ["master", "replica", "slave"]), ("sync_mode", ["async", "sync"])]

def takes (key value : String) : Bool :=
  if key ∈ switches then value = "true" ∨ value = "false"
  else
    match ranges.lookup key, choices.lookup key with
    | some (lo, hi), _ => intIn lo hi value
    | none, some words => value ∈ words
    | none, none =>
        if key = "cache.threshold" then inUnit value
        else if key = "master_fingerprint" then value = "" ∨ (normalizeFingerprint value).isSome
        else if key = "max_ram_mb" then value = "auto" ∨ intIn 0 16777216 value
        else true

section

variable [Chrono] [Formats]

/-- Whether a key takes a value. The section is not looked at. -/
def validate (key value : String) : Except String Unit :=
  if key = "zone" then (Time.Zone.parse value).map fun _ => ()
  else
    match Time.FormatKind.all.find? fun k => k.configKey = key with
    | some kind => (Time.parseFormat kind value).map fun _ => ()
    | none => if takes key value then .ok () else .error s!"invalid value '{value}' for '{key}'"

end

variable (c : Config)

def defaultOf (key default : String) : String :=
  if key = "default_workspace" then display (c.home ++ ["data"]) else default

def insert (section_ key value : String) : Config :=
  { c with sections := c.sections.insert section_ ((c.sections.getD section_ ∅).insert key value) }

def enter (section_ : String) : Config := { c with sections := c.sections.insertIfNew section_ ∅ }

/-- The configuration of a home that has none. -/
def fresh (home : Path) : Config :=
  (known.foldl (fun (c : Config) (s, k, d) => c.insert s k (c.defaultOf k d)) ⟨home, ∅⟩).enter "workspaces"

def lines (s : List Char) : List (List Char) :=
  let parts := s.splitOn '\n'
  let parts := if parts.getLast? = some [] then parts.dropLast else parts
  parts.map fun l => if l.getLast? = some '\r' then l.dropLast else l

def cutComment : List Char → List Char
  | ' ' :: '#' :: _ => []
  | c :: s => c :: cutComment s
  | [] => []

def unquoted (s : List Char) : List Char :=
  ((s.dropWhile (· = '"')).reverse.dropWhile (· = '"')).reverse

/-- The name of a section, between brackets. -/
def header : List Char → Option (List Char)
  | '[' :: rest => if rest.getLast? = some ']' then some rest.dropLast else none
  | _ => none

/-- Takes one line of the file, in the section that it is in. -/
def takeLine (s : String × Config) (line : List Char) : String × Config :=
  let line := trim line
  if line = [] ∨ line.head? = some '#' ∨ line.head? = some ';' then s
  else
    match header line with
    | some name =>
        let section_ := (String.ofList (trim name)).toLower
        (section_, s.2.enter section_)
    | none =>
        if '=' ∈ line then
          let k := trim (line.takeWhile (· ≠ '='))
          let v := trim (line.dropWhile (· ≠ '=')).tail
          (s.1, s.2.insert s.1 (String.ofList k) (String.ofList (unquoted (trim (cutComment v)))))
        else s

def parse (home : Path) (text : List Char) : Config := ((lines text).foldl takeLine ("", ⟨home, ∅⟩)).2

/-- The sections that come first in the file. -/
def order : List String :=
  ["storage", "workspaces", "network", "security", "server", "http", "resp", "tls", "replication", "scripting"]

/-- The file that the configuration is saved in. -/
def text : String :=
  let names := c.sections.keys.insertionSort fun a b => order.idxOf a ≤ order.idxOf b
  "# KivaDB configuration\n" ++ String.join (names.map fun name =>
    s!"\n[{name}]\n" ++ String.join ((c.sections.getD name ∅).toList.map fun (k, v) => s!"{k} = {v}\n"))

def get (section_ key : String) : String :=
  match (c.sections.getD section_ ∅)[key]? with
  | some v => v
  | none => ((known.find? fun r => r.1 = section_ ∧ r.2.1 = key).map fun r => c.defaultOf r.2.1 r.2.2).getD ""

section

variable [Chrono] [Formats]

/-- Sets a value, to be saved. -/
def set (section_ key value : String) : Result Config :=
  match validate key value with
  | .ok _ => .ok (c.insert section_ key value)
  | .error why => .error (.invalid why)

end

/-- The workspaces that have a name of their own. -/
def workspaces : List (String × String) := (c.sections.getD "workspaces" ∅).toList.filter fun w => w.1 ≠ "default"

def workspaceDir (name : String) : Option String :=
  if name = "default" then some (c.get "storage" "default_workspace") else (c.sections.getD "workspaces" ∅)[name]?

theorem not_mem_splitOn {a : Char} {s l : List Char} (h : l ∈ s.splitOn a) : a ∉ l := by
  induction s generalizing l with
  | nil =>
      rw [List.splitOn_nil, List.mem_singleton] at h
      rw [h]
      exact List.not_mem_nil
  | cons x s ih =>
      rw [List.splitOn_cons_eq_if_modifyHead] at h
      split at h
      · rcases List.mem_cons.mp h with rfl | h
        · exact List.not_mem_nil
        · exact ih h
      · next hx =>
          obtain ⟨y, ys, hys⟩ := List.exists_cons_of_ne_nil (List.splitOn_ne_nil a s)
          rw [hys] at h ih
          rcases List.mem_cons.mp h with rfl | h
          · rw [List.mem_cons, not_or]
            exact ⟨fun hax => hx (by simp [hax]), ih List.mem_cons_self⟩
          · exact ih (List.mem_cons_of_mem y h)

theorem not_mem_lines {source l : List Char} (h : l ∈ lines source) : '\n' ∉ l := by
  unfold lines at h
  obtain ⟨m, hm, rfl⟩ := List.mem_map.mp h
  have hmem : m ∈ source.splitOn '\n' := by
    split at hm
    · exact List.mem_of_mem_dropLast hm
    · exact hm
  intro hn
  split at hn
  · exact not_mem_splitOn hmem (List.mem_of_mem_dropLast hn)
  · exact not_mem_splitOn hmem hn

theorem home_parse (home : Path) (text : List Char) : (parse home text).home = home := by
  have hline (s : String × Config) (line : List Char) : (takeLine s line).2.home = s.2.home := by
    unfold takeLine
    dsimp only
    split
    · rfl
    · split
      · rfl
      · split <;> rfl
  have hfold (ls : List (List Char)) (s : String × Config) : (ls.foldl takeLine s).2.home = s.2.home := by
    induction ls generalizing s with
    | nil => rfl
    | cons l ls ih => exact (ih _).trans (hline s l)
  exact hfold _ _

theorem home_foldl (f : Config → String × String × String → Config) (hf : ∀ c r, (f c r).home = c.home)
    (rs : List (String × String × String)) : (rs.foldl f c).home = c.home := by
  induction rs generalizing c with
  | nil => rfl
  | cons r rs ih => exact (ih _).trans (hf c r)

theorem home_fresh (home : Path) : (fresh home).home = home := by
  rw [fresh, enter, home_foldl]
  exact fun _ _ => rfl

theorem getD_insert (s k v t : String) : (c.insert s k v).sections.getD t ∅ =
    if s = t then (c.sections.getD s ∅).insert k v else c.sections.getD t ∅ := by
  rw [insert, Std.ExtTreeMap.getD_insert]
  simp [Std.LawfulEqCmp.compare_eq_iff_eq]

theorem workspaceDir_insert {n : String} (hn : n ≠ "default") (v m : String) :
    (c.insert "workspaces" n v).workspaceDir m = if m = n then some v else c.workspaceDir m := by
  by_cases hm : m = "default"
  · rw [if_neg (by rw [hm]; exact Ne.symm hn), workspaceDir, workspaceDir, if_pos hm, if_pos hm, get, get, getD_insert,
      if_neg (by decide)]
    rfl
  · rw [workspaceDir, workspaceDir, if_neg hm, if_neg hm, getD_insert, if_pos rfl, Std.ExtTreeMap.getElem?_insert]
    exact if_congr (Std.LawfulEqCmp.compare_eq_iff_eq.trans eq_comm) rfl rfl

theorem workspaceDir_default (v m : String) :
    (c.insert "storage" "default_workspace" v).workspaceDir m = if m = "default" then some v else c.workspaceDir m := by
  by_cases hm : m = "default"
  · rw [if_pos hm, workspaceDir, if_pos hm, get, getD_insert, if_pos rfl, Std.ExtTreeMap.getElem?_insert_self]
  · rw [if_neg hm, workspaceDir, workspaceDir, if_neg hm, if_neg hm, getD_insert, if_neg (by decide)]

end Config

end KivaDb
