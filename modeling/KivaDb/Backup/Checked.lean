import KivaDb.Backup.Written

namespace KivaDb

open Lib.LittleEndian Lib.Utf8 Lib.Fallible Format

namespace Backup

section

variable [Archives] {inst : Instance} {scope : Scope}

def foundOf (f : Path × Bytes) : Found := (nameOf f.1, .ofNat f.2.length, hex (Archives.sha256 f.2))

theorem unpackInto_rooted (archive : Path) {files staging : List (Path × Bytes)} {found : List Found}
    (hnodup : ((staging ++ files).map Prod.fst).Nodup) (hplain : ∀ f ∈ files, Plain f.1) :
    unpackInto archive (files.map rooted) (staging, found) = .ok (staging ++ files, found ++ files.map foundOf) := by
  induction files generalizing staging found with
  | nil => rw [List.append_nil, List.map_nil, List.map_nil, List.append_nil, unpackInto]
  | cons f files ih =>
      obtain ⟨hf, hplain⟩ := List.forall_mem_cons.mp hplain
      have hnew : f.1 ∉ staging.map Prod.fst := by
        rw [List.map_append, List.map_cons, List.nodup_append] at hnodup
        exact fun hmem => hnodup.2.2 _ hmem _ List.mem_cons_self rfl
      have hrest : ((staging ++ [f] ++ files).map Prod.fst).Nodup := by
        rwa [List.append_assoc]
      rw [List.map_cons, rooted, unpackInto]
      refine except_bind_ok.mpr ⟨f.1, relative_nameOf archive hf, ?_⟩
      rw [put_new hnew]
      have hfound : unpackInto archive (files.map rooted) (staging ++ [f], found ++ [foundOf f]) = _ := ih hrest hplain
      rw [List.append_assoc, List.append_assoc] at hfound
      exact hfound

theorem find_foundOf {files : List (Path × Bytes)} (hnodup : (files.map Prod.fst).Nodup) (hplain : ∀ f ∈ files, Plain f.1)
    {f : Path × Bytes} (hf : f ∈ files) : (files.map foundOf).find? (fun x => x.1 = nameOf f.1) = some (foundOf f) := by
  induction files with
  | nil => exact nomatch hf
  | cons g files ih =>
      rw [List.map_cons, List.nodup_cons] at hnodup
      obtain ⟨hg, hplain⟩ := List.forall_mem_cons.mp hplain
      rw [List.map_cons]
      rcases List.mem_cons.mp hf with rfl | hf
      · exact List.find?_cons_of_pos (by simp [foundOf])
      · have hne : ¬ nameOf g.1 = nameOf f.1 := fun heq =>
          hnodup.1 (nameOf_inj hg (hplain f hf) heq ▸ List.mem_map_of_mem hf)
        rw [List.find?_cons_of_neg (by simp [foundOf, hne])]
        exact ih hnodup.2 hplain hf

theorem member_path (f : Path × Bytes) : (((described f).member "path").asString).getD "" = nameOf f.1 := rfl

theorem checkFiles_described (archive : Path) {found : List Found} {files : List (Path × Bytes)}
    (h : ∀ f ∈ files, found.find? (fun x => x.1 = nameOf f.1) = some (foundOf f)) :
    checkFiles archive found (files.map described) = .ok () := by
  induction files with
  | nil => rfl
  | cons f files ih =>
      obtain ⟨hf, h⟩ := List.forall_mem_cons.mp h
      rw [List.map_cons, checkFiles, member_path, hf]
      exact (if_pos ⟨rfl, rfl⟩).trans (ih h)

variable [External] [Chrono] [Clocks]

theorem checkLogs_described (archive : Path) {staging files : List (Path × Bytes)}
    (h : ∀ f ∈ files, Plain f.1 ∧ staging.lookup f.1 = some f.2) :
    (∃ n, checkLogs archive staging (files.map described) = .ok n) ↔
      ∀ f ∈ files, IsKiva f.1 → ∃ n, checkLog f.2 = .ok n := by
  induction files with
  | nil => exact ⟨fun _ => nofun, fun _ => ⟨0, rfl⟩⟩
  | cons f files ih =>
      obtain ⟨⟨hplain, hlookup⟩, h⟩ := List.forall_mem_cons.mp h
      rw [List.map_cons, checkLogs, List.forall_mem_cons, ← ih h, member_path, pathNames_nameOf hplain, hlookup]
      by_cases hkiva : ".kiva".toList <:+ (nameOf f.1).toList
      · rw [if_pos hkiva]
        dsimp only
        rcases checkLog f.2 with e | n
        · exact ⟨fun ⟨_, h⟩ => (nomatch h), fun h => (nomatch (h.1 hkiva))⟩
        · dsimp only
          rcases checkLogs archive staging (files.map described) with e | k
          · exact ⟨fun ⟨_, h⟩ => (nomatch h), fun h => (nomatch h.2)⟩
          · exact ⟨fun _ => ⟨fun _ => ⟨n, rfl⟩, k, rfl⟩, fun _ => ⟨n + k, rfl⟩⟩
      · rw [if_neg hkiva]
        exact ⟨fun hok => ⟨fun hk => absurd hk hkiva, hok⟩, And.right⟩

/-- Every data file of a backup is made of sound records. -/
structure SoundSaved (inst : Instance) (scope : Scope) : Prop where
  workspaces : ∀ n ∈ names inst scope, ∀ store, inst.engine n = .ok store → SoundLog store.data
  system : scope = .home → SoundLog inst.system.data
  tls : scope = .home → ∀ f ∈ inst.tls, ".kiva".toList <:+ f.1.toList → SoundFile f.2

omit [Archives] in
theorem sound_storeFiles (dir : Path) (hdir : dir ≠ []) (file : String) (hfile : ".kiva".toList <:+ file.toList)
    (hdefs : ¬ ".kiva".toList <:+ (file ++ ".meta").toList) (store : Store) :
    (∀ f ∈ storeFiles dir file store, IsKiva f.1 → SoundFile f.2) ↔ SoundLog store.data := by
  constructor
  · exact fun h => (h _ List.mem_cons_self ((isKiva_snoc hdir file).mpr hfile)).2
  · intro h f hf hkiva
    rcases mem_storeFiles hf with rfl | ⟨d, -, rfl⟩
    · exact ⟨store.opened, h⟩
    · exact absurd ((isKiva_snoc hdir _).mp hkiva) hdefs

omit [Archives] in
theorem sound_homeFiles (inst : Instance) : (∀ f ∈ homeFiles inst, IsKiva f.1 → SoundFile f.2) ↔
    SoundLog inst.system.data ∧ ∀ f ∈ inst.tls, ".kiva".toList <:+ f.1.toList → SoundFile f.2 := by
  have hsystem := sound_storeFiles ["system"] (by simp) "system.kiva" (by decide) (by decide) inst.system
  have hlog (log : Bytes) : ¬ IsKiva (["audit.log"], log).1 := by
    have : ¬ ".kiva".toList <:+ (nameOf ["audit.log"]).toList := by decide
    exact this
  have hconf : ¬ IsKiva (["kiva.conf"], inst.conf).1 := by
    have : ¬ ".kiva".toList <:+ (nameOf ["kiva.conf"]).toList := by decide
    exact this
  have htls (x : String) : IsKiva ["tls", x] ↔ ".kiva".toList <:+ x.toList := isKiva_snoc (List.cons_ne_nil "tls" []) x
  rw [homeFiles, List.forall_mem_cons]
  simp only [List.forall_mem_append, hsystem, List.forall_mem_map, htls]
  exact ⟨fun h => ⟨h.2.1, h.2.2.2⟩, fun h => ⟨fun hk => absurd hk hconf, h.1, fun log _ hk => absurd hk (hlog log), h.2⟩⟩

omit [Archives] in
theorem soundSaved_iff {stores : List (String × Store)} (h : Opens inst scope stores) :
    SoundSaved inst scope ↔ ∀ f ∈ savedFiles inst scope stores, IsKiva f.1 → SoundFile f.2 := by
  have hstore (s : String × Store) := sound_storeFiles ["workspaces", s.1] (by simp) "store.kiva"
    (by decide) (by decide) s.2
  have hspaces : (∀ f ∈ workspaceFiles stores, IsKiva f.1 → SoundFile f.2) ↔
      ∀ n ∈ names inst scope, ∀ store, inst.engine n = .ok store → SoundLog store.data := by
    rw [workspaceFiles, ← h.names]
    simp only [List.forall_mem_flatMap, hstore, List.forall_mem_map]
    refine ⟨fun hs s hmem store hopened => ?_, fun hs s hmem => hs s hmem _ (h.opened s hmem)⟩
    rw [h.opened s hmem] at hopened
    exact Except.ok.inj hopened ▸ hs s hmem
  rw [savedFiles, List.forall_mem_append, hspaces]
  by_cases hhome : scope = .home
  · rw [if_pos hhome, sound_homeFiles]
    exact ⟨fun hs => ⟨hs.workspaces, hs.system hhome, hs.tls hhome⟩, fun hs => ⟨hs.1, fun _ => hs.2.1, fun _ => hs.2.2⟩⟩
  · rw [if_neg hhome]
    exact ⟨fun hs => ⟨hs.workspaces, (by rintro _ ⟨⟩)⟩, fun hs => ⟨hs.1, fun hh => absurd hh hhome, fun hh => absurd hh hhome⟩⟩

/-- `tar` and `flate2` give back what was written, `serde_json` reads the manifest back,
and a checksum is not empty. -/
structure GivesBack (inst : Instance) (scope : Scope) : Prop where
  unpack : ∀ entries, Archives.unpack (Archives.pack entries) = .ok entries
  manifest : ∀ w, saved inst scope = .ok w →
    Archives.fromJson (Archives.toJson (manifest inst scope w)) = some (manifest inst scope w)
  sha256 : ∀ b, Archives.sha256 b ≠ []

/-- The names of the workspaces saved: each once, each the name of a folder. -/
structure Named (inst : Instance) (scope : Scope) : Prop where
  isName : ∀ n ∈ names inst scope, IsName n
  nodup : (names inst scope).Nodup

variable {output : Path} {a : Archive}

omit [External] [Chrono] [Clocks] in
theorem checkSums_backup (hg : GivesBack inst scope) (h : backup inst scope output = .ok a) : ∃ lines, checkSums a = .ok lines := by
  obtain ⟨file, -, h⟩ := except_bind_ok.mp h
  cases Except.ok.inj h
  have htext (sum name : String) : s!"{sum}  {name}\n" = sum ++ "  " ++ (name ++ "\n") := by
    rw [← String.append_assoc]
    rfl
  rw [checkSums]
  dsimp only
  rw [htext, firstWord_hex (hg.sha256 _), hex_toLower, if_pos rfl]
  exact ⟨_, rfl⟩

/-- What the check of a backup finds, and on what it depends. -/
theorem check_written (hg : GivesBack inst scope) (hn : Named inst scope) (h : backup inst scope output = .ok a) :
    ∃ w stores, saved inst scope = .ok w ∧ Opens inst scope stores ∧ ((∃ c, check a = .ok c) ↔ SoundSaved inst scope) ∧
      ∀ c, check a = .ok c → c.manifest = manifest inst scope w ∧ c.staging = savedFiles inst scope stores ++
        [(["manifest.json"], Archives.toJson (manifest inst scope w))] := by
  obtain ⟨lines, hsums⟩ := checkSums_backup hg h
  obtain ⟨file, hfile, h⟩ := except_bind_ok.mp h
  obtain ⟨w, hw, hfile⟩ := except_bind_ok.mp hfile
  obtain ⟨stores, hopens, hholds⟩ := saved_ok hw
  have hplain := plain_saved hopens hn.isName
  have hnodup := nodup_saved hopens hn.nodup
  set files := savedFiles inst scope stores
  set last : Path × Bytes := (["manifest.json"], Archives.toJson (manifest inst scope w))
  have hlast : Plain last.1 := ⟨List.cons_ne_nil _ _, (by decide : ∀ n ∈ (["manifest.json"] : Path), IsName n)⟩
  have hnew : last.1 ∉ files.map Prod.fst := by
    intro hmem
    obtain ⟨f, hf, heq⟩ := List.mem_map.mp hmem
    rcases List.mem_append.mp hf with hf | hf
    · exact absurd (head_workspaceFiles _ (List.mem_map_of_mem hf)) (by simp [heq, last])
    · split at hf
      · exact absurd (head_homeFiles _ (List.mem_map_of_mem hf)) (by simp [heq, last])
      · exact nomatch hf
  have hall : ((files ++ [last]).map Prod.fst).Nodup := by
    rw [List.map_append, List.nodup_append]
    exact ⟨hnodup, List.nodup_singleton _, fun p hp q hq heq => hnew (List.mem_singleton.mp hq ▸ heq ▸ hp)⟩
  have hplains : ∀ f ∈ files ++ [last], Plain f.1 := List.forall_mem_append.mpr ⟨hplain, by simpa using hlast⟩
  have hentries : Archives.unpack a.file = .ok ((files ++ [last]).map rooted) := by
    cases Except.ok.inj h
    cases Except.ok.inj hfile
    rw [hg.unpack, hholds.tar, List.map_append]
    rfl
  have hunpack : unpackInto a.path ((files ++ [last]).map rooted) ([], []) = .ok (files ++ [last], (files ++ [last]).map foundOf) :=
    unpackInto_rooted a.path (by rwa [List.nil_append]) hplains
  have hmanifest : readManifest a (files ++ [last]) = .ok (manifest inst scope w) := by
    rw [readManifest, lookup_of_nodup hall (f := last) (by simp), Option.bind_some, hg.manifest w hw]
    refine if_pos ?_
    show (1 ≤ (if 3 ≤ w.storageFormat then (2 : UInt64) else 1) && (if 3 ≤ w.storageFormat then (2 : UInt64) else 1) ≤ 2) = true
    split <;> decide
  have hlisted : (((manifest inst scope w).member "files").asArray).getD [] = files.map described := by
    rw [← hholds.files]
    rfl
  have hfiles : checkFiles a.path ((files ++ [last]).map foundOf) (files.map described) = .ok () :=
    checkFiles_described _ fun f hf => find_foundOf hall hplains (List.mem_append_left _ hf)
  have hlogs : (∃ n, checkLogs a.path (files ++ [last]) (files.map described) = .ok n) ↔
      ∀ f ∈ files, IsKiva f.1 → ∃ n, checkLog f.2 = .ok n :=
    checkLogs_described a.path fun f hf => ⟨hplain f hf, lookup_of_nodup hall (List.mem_append_left _ hf)⟩
  have hlen : ((files ++ [last]).map foundOf).length = (files.map described).length + 1 := by simp
  have hcheck : check a = (checkLogs a.path (files ++ [last]) (files.map described)).map fun records =>
      ⟨manifest inst scope w, files ++ [last],
        lines ++ [report (manifest inst scope w) (files.map described).length records]⟩ := by
    have hmapped : (Archives.unpack a.file).mapError (bad a.path) = .ok ((files ++ [last]).map rooted) := by
      rw [hentries]
      rfl
    refine (bind_of_ok hsums _).trans ((bind_of_ok hmapped _).trans ((bind_of_ok hunpack _).trans ?_))
    refine (bind_of_ok hmanifest _).trans ?_
    rw [hlisted]
    refine (bind_of_ok hfiles _).trans ((if_pos hlen).trans ?_)
    rcases checkLogs a.path (files ++ [last]) (files.map described) with _ | _ <;> rfl
  refine ⟨w, stores, hw, hopens, ?_, fun c hc => ?_⟩
  · rw [soundSaved_iff hopens]
    simp only [← checkLog_ok]
    rw [← hlogs, hcheck]
    rcases checkLogs a.path (files ++ [last]) (files.map described) with e | records
    · exact ⟨fun ⟨_, h⟩ => (nomatch h), fun ⟨_, h⟩ => (nomatch h)⟩
    · exact ⟨fun _ => ⟨records, rfl⟩, fun _ => ⟨_, rfl⟩⟩
  · rw [hcheck] at hc
    rcases hl : checkLogs a.path (files ++ [last]) (files.map described) with e | records
    · rw [hl] at hc
      exact nomatch hc
    · rw [hl] at hc
      cases Except.ok.inj hc
      exact ⟨rfl, rfl⟩

end

end Backup

end KivaDb
