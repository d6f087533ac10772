import KivaDb.Backup.Reference
import KivaDb.Backup.Restored
import KivaDb.Damage
import KivaDb.Engine.Moves

namespace KivaDb

open Lib.LittleEndian Lib.Utf8 Lib.Fallible Format

namespace Backup

theorem named_of_valid {inst : Instance} {scope : Scope} (h : ∀ n ∈ names inst scope, Repl.validWorkspaceName n = true) :
    Named inst scope := by
  refine ⟨fun n hn => isName_of_valid (h n hn), ?_⟩
  cases scope with
  | workspace n => exact List.nodup_singleton n
  | home =>
      have hkeys : ((inst.cfg.sections.getD "workspaces" ∅).toList.map Prod.fst).Nodup := by
        have hdistinct := Std.ExtTreeMap.distinct_keys_toList (t := inst.cfg.sections.getD "workspaces" ∅)
        refine List.pairwise_map.mpr (hdistinct.imp fun {a b} hab heq => hab ?_)
        exact Std.LawfulEqCmp.compare_eq_iff_eq.mpr heq
      refine List.nodup_cons.mpr ⟨fun hmem => ?_, hkeys.sublist (List.filter_sublist.map _)⟩
      obtain ⟨w, hw, heq⟩ := List.mem_map.mp hmem
      have hne := (List.mem_filter.mp hw).2
      simp [heq] at hne

/-- Where the workspaces of a backup are put back. -/
def restoredDir (home : Path) : Scope → String → Path
  | .home => homeDir home
  | .workspace _ => fun n => home ++ ["workspaces", n]

/-- A home to restore into: a folder that is empty, or a home without the workspace. -/
structure Fresh (scope : Scope) (home : Path) (w : World) : Prop where
  free : home ∉ w.running
  empty : scope = .home → isEmptyDir w home = true
  absent : ∀ n, scope = .workspace n → (configOf home w).workspaceDir n = none ∧ isEmptyDir w (home ++ ["workspaces", n]) = true

/-- The data file of an engine and its index definitions, byte for byte. -/
def Copied (store : Store) (dir : Path) (file : String) (w : World) : Prop :=
  w.read (dir ++ [file]) = some store.data ∧ w.read (dir ++ [file ++ ".meta"]) = store.defs

theorem lookup_storeFiles {files : List (Path × Bytes)} (hnodup : (files.map Prod.fst).Nodup) {dir : Path} {file : String}
    {store : Store} (hsub : storeFiles dir file store ⊆ files)
    (honly : ∀ f ∈ files, f.1 = dir ++ [file ++ ".meta"] → f ∈ storeFiles dir file store) :
    files.lookup (dir ++ [file]) = some store.data ∧ files.lookup (dir ++ [file ++ ".meta"]) = store.defs := by
  refine ⟨lookup_of_nodup hnodup (hsub List.mem_cons_self), ?_⟩
  rcases hdefs : store.defs with _ | defs
  · apply World.lookup_eq_none
    intro hmem
    obtain ⟨f, hf, heq⟩ := List.mem_map.mp hmem
    have hstore := honly f hf heq
    rw [storeFiles, hdefs] at hstore
    rw [List.mem_singleton.mp hstore] at heq
    have hlen := congrArg String.length (List.cons.inj (List.append_cancel_left heq)).1
    rw [String.length_append] at hlen
    exact absurd hlen (by have : ".meta".length = 5 := rfl; omega)
  · refine lookup_of_nodup hnodup (f := (dir ++ [file ++ ".meta"], defs)) (hsub ?_)
    rw [storeFiles, hdefs]
    exact List.mem_cons_of_mem _ List.mem_cons_self

section

variable {inst : Instance} {scope : Scope} {stores : List (String × Store)}

theorem lookup_workspace (h : Opens inst scope stores) (hnodup : (names inst scope).Nodup) {s : String × Store}
    (hs : s ∈ stores) : (savedFiles inst scope stores).lookup ["workspaces", s.1, "store.kiva"] = some s.2.data ∧
      (savedFiles inst scope stores).lookup ["workspaces", s.1, "store.kiva" ++ ".meta"] = s.2.defs := by
  have hdir := lookup_storeFiles (nodup_saved h hnodup) (?_ : storeFiles ["workspaces", s.1] "store.kiva" s.2 ⊆ _) ?_
  · exact hdir
  · intro f hf
    exact List.mem_append_left _ (List.mem_flatMap.mpr ⟨s, hs, hf⟩)
  · intro f hf heq
    rcases List.mem_append.mp hf with hf | hf
    · obtain ⟨t, ht, hf⟩ := List.mem_flatMap.mp hf
      have hname : t.1 = s.1 := by
        have hsecond := second_of_mem_storeFiles hf
        rw [heq] at hsecond
        exact (Option.some.inj hsecond).symm
      have hstore := h.opened t ht
      rw [hname, h.opened s hs] at hstore
      rwa [hname, ← Except.ok.inj hstore] at hf
    · split at hf
      · have hhead := head_homeFiles _ (List.mem_map_of_mem hf)
        rw [heq] at hhead
        exact absurd hhead (by simp)
      · exact nomatch hf

theorem lookup_system (h : Opens inst .home stores) (hnodup : (names inst .home).Nodup) :
    (savedFiles inst .home stores).lookup ["system", "system.kiva"] = some inst.system.data ∧
      (savedFiles inst .home stores).lookup ["system", "system.kiva" ++ ".meta"] = inst.system.defs := by
  have hdir := lookup_storeFiles (nodup_saved h hnodup) (?_ : storeFiles ["system"] "system.kiva" inst.system ⊆ _) ?_
  · exact hdir
  · intro f hf
    rw [savedFiles, if_pos rfl]
    exact List.mem_append_right _ (List.mem_cons_of_mem _ (List.mem_append_left _ hf))
  · intro f hf heq
    rw [savedFiles, if_pos rfl] at hf
    rcases List.mem_append.mp hf with hf | hf
    · have hhead := head_workspaceFiles _ (List.mem_map_of_mem hf)
      rw [heq] at hhead
      exact absurd hhead (by simp)
    · rw [homeFiles, List.mem_cons, List.mem_append, List.mem_append] at hf
      rcases hf with rfl | hf | hf | hf
      · exact absurd heq (by simp)
      · exact hf
      · obtain ⟨_, -, rfl⟩ := List.mem_map.mp hf
        exact absurd heq (by simp)
      · obtain ⟨_, -, rfl⟩ := List.mem_map.mp hf
        exact absurd heq (by simp)

theorem lookup_conf (h : Opens inst .home stores) (hnodup : (names inst .home).Nodup) :
    (savedFiles inst .home stores).lookup ["kiva.conf"] = some inst.conf := by
  refine lookup_of_nodup (nodup_saved h hnodup) (f := (["kiva.conf"], inst.conf)) ?_
  rw [savedFiles, if_pos rfl]
  exact List.mem_append_right _ List.mem_cons_self

theorem lookup_staging (files : List (Path × Bytes)) {p : Path} (hp : p ≠ ["manifest.json"]) (b : Bytes) :
    (files ++ [(["manifest.json"], b)]).lookup p = files.lookup p := by
  rw [List.lookup_append, World.lookup_cons_ite, if_neg hp]
  exact Option.or_none

theorem workspaceNames_manifest (w : Writer) : workspaceNames (manifest inst scope w) = names inst scope := by
  have hnames : workspaceNames (manifest inst scope w) = ((names inst scope).map fun n =>
      Json.object [("name", .string n), ("dir", .string ((inst.cfg.workspaceDir n).getD ""))]).filterMap
        fun w => (w.member "name").asString := rfl
  rw [hnames, List.filterMap_map]
  exact List.filterMap_some

theorem scope_manifest (w : Writer) :
    ((manifest inst scope w).member "scope").asString = some (if scope = .home then "home" else "workspace") := rfl

end

theorem fromResult_ok {α : Type} {r : Result α} {x : α} (h : r = .ok x) (w : World) : fromResult r w = .ok x w := by
  rw [h]
  rfl

section

variable [Archives] [External] [Chrono] [Clocks] [Formats] {inst : Instance} {scope : Scope} {output : Path} {a : Archive}

/-- What a restore leaves: each engine as it was saved, and each workspace in the settings. -/
structure Restored (inst : Instance) (scope : Scope) (home : Path) (w : World) : Prop where
  stores : ∀ n ∈ names inst scope, ∃ store, inst.engine n = .ok store ∧ Copied store (restoredDir home scope n) "store.kiva" w
  system : scope = .home → Copied inst.system (home ++ ["system"]) "system.kiva" w
  registered : Registered home (restoredDir home scope) (names inst scope) w

/-- The names that restoring takes: `kiva.conf` keeps a folder under each of them. -/
structure Accepted (inst : Instance) (scope : Scope) (home : Path) : Prop where
  part : ∀ n, scope = .workspace n → Repl.validNamePart n.toList = true
  registrable : Registrable (restoredDir home scope) (names inst scope)

omit [External] [Chrono] [Clocks] [Formats] in
/-- A backup is written once every engine opens. -/
theorem backup_of_opens (h : ∀ n, ∃ store, inst.engine n = .ok store) (output : Path) : ∃ a, backup inst scope output = .ok a := by
  have hengines (ns : List String) (w : Writer) : ∃ w', Writer.addEngines inst ns w = .ok w' := by
    induction ns generalizing w with
    | nil => exact ⟨w, rfl⟩
    | cons n ns ih =>
        obtain ⟨store, hstore⟩ := h n
        obtain ⟨w', hw⟩ := ih (w.addEngine s!"workspaces/{n}" "store.kiva" store)
        exact ⟨w', except_bind_ok.mpr ⟨store, hstore, hw⟩⟩
  obtain ⟨w, hw⟩ := hengines (names inst scope) ⟨[], [], 0⟩
  have hsaved : saved inst scope = .ok (if scope = .home then w.addHome inst else w) := (bind_of_ok hw _).trans rfl
  have hwritten := (bind_of_ok hsaved fun w => Except.ok (Archives.pack
    (w.tar ++ [(s!"{root}/manifest.json", Archives.toJson (manifest inst scope w))]))).trans rfl
  exact ⟨_, (bind_of_ok hwritten _).trans rfl⟩

variable {home : Path} {w w' : World} {c : Checked}

theorem restore_of_home (hcheck : check a = .ok c) (hscope : (c.manifest.member "scope").asString = some "home")
    (h : restoreHome c.staging (workspaceNames c.manifest) home w = .ok () w') :
    ∃ lines, restore a home ⟨none, none, false⟩ w = .ok lines w' := by
  rw [restore, run_bind_of_ok (fromResult_ok hcheck w)]
  simp only [hscope, if_true]
  exact ⟨_, bind_ok.mpr ⟨(), w', h, rfl⟩⟩

theorem restore_of_workspace (hcheck : check a = .ok c) (hscope : (c.manifest.member "scope").asString ≠ some "home") {n : String}
    (hnames : workspaceNames c.manifest = [n])
    (h : restoreWorkspace c.staging n n home (home ++ ["workspaces", n]) w = .ok () w') :
    ∃ lines, restore a home ⟨none, none, false⟩ w = .ok lines w' := by
  rw [restore, run_bind_of_ok (fromResult_ok hcheck w)]
  simp only [hnames, if_neg hscope]
  exact ⟨_, bind_ok.mpr ⟨(), w', h, rfl⟩⟩

/-- A backup is taken back when all its records are sound, and refused with nothing changed when they are not. -/
theorem backup_restores (hg : GivesBack inst scope) (hv : ∀ n ∈ names inst scope, Repl.validWorkspaceName n = true)
    (h : backup inst scope output = .ok a) : ((∃ c, check a = .ok c) ↔ SoundSaved inst scope) ∧
      (¬ SoundSaved inst scope → ∀ home opts w, ∃ e, restore a home opts w = .error e w) ∧
      (SoundSaved inst scope → ∀ home w, Fresh scope home w → Accepted inst scope home →
        ∃ lines w', restore a home ⟨none, none, false⟩ w = .ok lines w' ∧ Restored inst scope home w') := by
  have hn := named_of_valid hv
  obtain ⟨w₀, stores, hsaved, hopens, hiff, hfound⟩ := check_written hg hn h
  refine ⟨hiff, fun hsound home opts w => ?_, fun hsound home w hfresh haccepted => ?_⟩
  · rcases hcheck : check a with e | c
    · refine ⟨e, bind_error.mpr (.inl ?_)⟩
      rw [hcheck]
      rfl
    · exact absurd (hiff.mp ⟨c, hcheck⟩) hsound
  · obtain ⟨c, hcheck⟩ := hiff.mpr hsound
    obtain ⟨hmanifest, hstaging⟩ := hfound c hcheck
    have hstore {n : String} (hmem : n ∈ names inst scope) : ∃ store, inst.engine n = .ok store ∧
        c.staging.lookup ["workspaces", n, "store.kiva"] = some store.data ∧
          c.staging.lookup ["workspaces", n, "store.kiva.meta"] = store.defs := by
      rw [← hopens.names] at hmem
      obtain ⟨s, hs, rfl⟩ := List.mem_map.mp hmem
      obtain ⟨hdata, hdefs⟩ := lookup_workspace hopens hn.nodup hs
      refine ⟨s.2, hopens.opened s hs, ?_, ?_⟩
      · rw [hstaging, lookup_staging _ (by simp), hdata]
      · rw [hstaging, lookup_staging _ (by simp)]
        exact hdefs
    have hnames : workspaceNames c.manifest = names inst scope := hmanifest ▸ workspaceNames_manifest w₀
    cases scope with
    | home =>
        have hconf : c.staging.lookup ["kiva.conf"] = some inst.conf := by
          rw [hstaging, lookup_staging _ (by simp), lookup_conf hopens hn.nodup]
        obtain ⟨w', hrestore, hfiles, hsystem, hregistered⟩ := restoreHome_ok hfresh.free (hfresh.empty rfl) hconf hn.nodup
          (List.cons_ne_nil _ _) haccepted.registrable
        obtain ⟨lines, hlines⟩ := restore_of_home hcheck (hmanifest ▸ scope_manifest w₀) (hnames ▸ hrestore)
        refine ⟨lines, w', hlines, fun n hmem => ?_, fun _ => ?_, hregistered⟩
        · obtain ⟨store, hopened, hdata, hdefs⟩ := hstore hmem
          refine ⟨store, hopened, ?_, ?_⟩
          · exact (hfiles n hmem "store.kiva" (by decide)).trans hdata
          · exact (hfiles n hmem "store.kiva.meta" (by decide)).trans hdefs
        · obtain ⟨hdata, hdefs⟩ := lookup_system hopens hn.nodup
          rw [hstaging] at hsystem
          refine ⟨?_, ?_⟩
          · rw [List.append_assoc]
            rw [← hdata, ← lookup_staging _ (by simp)]
            exact hsystem "system.kiva" (by decide)
          · rw [List.append_assoc]
            rw [← hdefs, ← lookup_staging _ (by simp)]
            exact hsystem "system.kiva.meta" (by decide)
    | workspace n =>
        obtain ⟨hnew, hempty⟩ := hfresh.absent n rfl
        have hn' : n ≠ "default" := by
          rintro rfl
          exact nomatch hnew
        obtain ⟨w', hrestore, hfiles, hregistered⟩ := restoreWorkspace_ok c.staging hfresh.free hempty hnew
          (haccepted.part n rfl) (haccepted.registrable n List.mem_cons_self hn')
        have hscope : (c.manifest.member "scope").asString ≠ some "home" := by
          rw [hmanifest, scope_manifest]
          simp
        obtain ⟨lines, hlines⟩ := restore_of_workspace hcheck hscope hnames hrestore
        refine ⟨lines, w', hlines, fun m hmem => ?_, nofun, hregistered⟩
        obtain ⟨store, hopened, hdata, hdefs⟩ := hstore hmem
        obtain rfl := List.mem_singleton.mp hmem
        refine ⟨store, hopened, ?_, ?_⟩
        · exact (hfiles "store.kiva" (by decide)).trans hdata
        · exact (hfiles "store.kiva.meta" (by decide)).trans hdefs

end

section Samples

open Reference

local instance idleChrono : Chrono where
  DateTime := Unit
  NaiveTime := Unit
  decEqDateTime := inferInstance
  decEqNaiveTime := inferInstance
  iso _ := "1970-01-01T00:00:00.000Z"
  timeText _ := "00:00:00"
  parseDatetime _ := none
  parseTime _ := none

local instance idleClocks : Clocks where
  nanosecond _ := 0
  timestampMillis _ := 0
  fromTimestampMillis ms := if ms = 0 then some () else none
  dateTimeText _ := "1970-01-01 00:00:00 UTC"
  timeNanosecond _ := 0
  numSecondsFromMidnight _ := 0
  fromNumSecondsFromMidnight _ n := if n = 0 then some () else none
  naiveTimeText _ := "00:00:00"
  millis_back _ _ _ := rfl
  millis_nanos ms t h := by
    obtain ⟨rfl, -⟩ := Option.ite_none_right_eq_some.mp h
    rfl
  time_back _ _ := rfl
  time_secs _ := by decide
  time_nanos s n t h := (Option.ite_none_right_eq_some.mp h).1.symm

local instance idleFormats : Formats where
  Tz := Empty
  tz _ := none
  tzName t := nomatch t
  offsetText _ := "+00:00"
  rfc3339 s := if s = "1970-01-01T00:00:00.000Z" then some () else none
  dateTime _ _ := none
  wall _ _ := none
  date _ _ := none
  time _ _ := none
  midnight := ()
  hour _ := 0
  minute _ := 0
  second _ := 0
  nanosecond _ := 0
  withNanosecond _ n := if n = 0 then some () else none
  fromHmsMilli h m s ms := if h = 0 ∧ m = 0 ∧ s = 0 ∧ ms = 0 then some () else none
  andUtc _ := ()
  machineInstant _ := some ()
  tzInstant t := nomatch t
  fixedInstant _ _ := none
  machineOffset _ := 0
  tzOffset t := nomatch t
  wallAt _ _ := (Lib.Calendar.Date.epoch, ())

def oneRecord : Bytes := Log.sampleA.record 0

/-- A store with one record and definitions of indexes. -/
def smallStore : Store where
  data := fileHeader 1 formatV1 ++ oneRecord
  defs := some (asBytes "[]")
  opened := ⟨(1, formatV1), Lib.Fallible.toOption_eq_some.mp (by decide)⟩

/-- A store whose first record was damaged on the disk. -/
def damagedStore : Store where
  data := Log.stretchFile 1 formatV1 [Log.halfBatch]
  defs := none
  opened := ⟨(1, formatV1), Lib.Fallible.toOption_eq_some.mp (by decide)⟩

/-- A home with a workspace beside its own. -/
def oldHome : Config := (⟨["old"], ∅⟩ : Config).insert "workspaces" "places" "/old/workspaces/places"

def running (store : Store) : Instance where
  cfg := oldHome
  conf := asBytes "[workspaces]\nplaces = /old/workspaces/places\n"
  engine _ := .ok store
  system := smallStore
  auditLog := none
  tls := [("cert.pem", asBytes "-----BEGIN CERTIFICATE-----")]
  keyId := none
  now := 0
  tls_names := by decide
  tls_nodup := by decide

theorem names_running (store : Store) : names (running store) .home = ["default", "places"] := by
  have hspaces : oldHome.workspaces = [("places", "/old/workspaces/places")] := by decide
  rw [names, running, hspaces]
  rfl

/-- The manifest of the backup of its home. -/
def manifestOf (inst : Instance) : Json :=
  match @saved (archives []) inst .home with
  | .ok w => manifest inst .home w
  | .error _ => .null

theorem addEngines_archives (s t : List Json) (inst : Instance) (ns : List String) (w : Writer) :
    @Writer.addEngines (archives s) inst ns w = @Writer.addEngines (archives t) inst ns w := by
  induction ns generalizing w with
  | nil => rfl
  | cons n ns ih =>
      apply congrArg (Except.bind (inst.engine n))
      funext store
      exact ih (@Writer.addEngine (archives s) w s!"workspaces/{n}" "store.kiva" store)

theorem saved_archives (s t : List Json) (inst : Instance) (scope : Scope) :
    @saved (archives s) inst scope = @saved (archives t) inst scope := by
  unfold saved
  rw [addEngines_archives s t]
  rfl

theorem givesBack_archives (inst : Instance) : @GivesBack (archives [manifestOf inst]) inst .home := by
  refine @GivesBack.mk (archives [manifestOf inst]) inst .home (fun _ => rfl) (fun w hw => ?_) fun b hb => ?_
  · have hsame : manifestOf inst = manifest inst .home w := by
      rw [manifestOf, saved_archives [] [manifestOf inst], hw]
    rw [← hsame]
    exact List.find?_cons_of_pos (decide_eq_true rfl)
  · have hlen : (sha256 b).length = 0 := congrArg List.length hb
    exact absurd hlen (by simp [sha256, Sha256.bytes])

theorem soundLog_small : SoundLog smallStore.data := by
  refine ⟨[oneRecord], by decide +kernel, fun r hr => ?_⟩
  rw [List.mem_singleton.mp hr]
  exact ⟨⟨by decide +kernel, by decide +kernel, by decide +kernel⟩, by unfold Log.Sums; decide +kernel, fun h => absurd h (by decide +kernel)⟩

theorem damaged_opens : (openFile ⟨none, false, .none, 0, 0⟩ damagedStore.data none (.error "") 0).toOption.map
    (fun i => i.index.toList.map Prod.fst) = some ["b"] := by decide +kernel

theorem damaged_unsound : ¬ SoundLog damagedStore.data := by
  intro h
  obtain ⟨n, hn⟩ := checkLog_ok.mpr ⟨damagedStore.opened, h⟩
  have hcheck : (checkLog damagedStore.data).toOption = none := by decide +kernel
  rw [hn] at hcheck
  exact nomatch hcheck

theorem valid_running (store : Store) : ∀ n ∈ names (running store) .home, Repl.validWorkspaceName n = true := by
  rw [names_running]
  decide

/-- A sound home is restored into an empty folder. -/
theorem backup_restores_small : ∃ a, @backup (archives [manifestOf (running smallStore)]) (running smallStore) .home
    ["tmp", "home.tar.gz"] = .ok a ∧ ∃ lines w', @restore _ _ (archives [manifestOf (running smallStore)]) _ _ a ["srv", "kiva"]
      ⟨none, none, false⟩ ⟨[], []⟩ = .ok lines w' ∧ Restored (running smallStore) .home ["srv", "kiva"] w' := by
  let _ := archives [manifestOf (running smallStore)]
  obtain ⟨a, ha⟩ := @backup_of_opens _ (running smallStore) .home (fun _ => ⟨smallStore, rfl⟩) ["tmp", "home.tar.gz"]
  refine ⟨a, ha, ?_⟩
  refine (backup_restores (givesBack_archives _) (valid_running _) ha).2.2 ?_ ["srv", "kiva"] ⟨[], []⟩ ?_ ?_
  · refine ⟨fun n _ store hstore => Except.ok.inj hstore ▸ soundLog_small, fun _ => soundLog_small, fun _ f hf hk => ?_⟩
    have hother : ∀ f ∈ (running smallStore).tls, ¬ ".kiva".toList <:+ f.1.toList := by decide
    exact absurd hk (hother f hf)
  · exact ⟨nofun, fun _ => rfl, nofun⟩
  · refine ⟨nofun, fun n hn => ?_⟩
    rw [names_running] at hn
    have hplaces : Config.validate "places" (display (restoredDir ["srv", "kiva"] .home "places")) = .ok () :=
      Lib.Fallible.toOption_eq_some.mp (by decide)
    intro hdefault
    rcases List.mem_cons.mp hn with rfl | hn
    · exact absurd rfl hdefault
    · rw [List.mem_singleton.mp hn]
      exact hplaces

/-- A store that opens past a damaged record gives a backup that is refused. -/
theorem damaged_refused : (openFile ⟨none, false, .none, 0, 0⟩ damagedStore.data none (.error "") 0).toOption.map
    (fun i => i.index.toList.map Prod.fst) = some ["b"] ∧ ∃ a, @backup (archives [manifestOf (running damagedStore)]) (running damagedStore) .home
    ["tmp", "home.tar.gz"] = .ok a ∧ ¬ ∃ c, @check (archives [manifestOf (running damagedStore)]) _ _ _ a = .ok c := by
  let _ := archives [manifestOf (running damagedStore)]
  obtain ⟨a, ha⟩ := @backup_of_opens _ (running damagedStore) .home (fun _ => ⟨damagedStore, rfl⟩) ["tmp", "home.tar.gz"]
  refine ⟨damaged_opens, a, ha, fun hcheck => ?_⟩
  obtain ⟨_, _, -, -, hiff, -⟩ := check_written (givesBack_archives _) (named_of_valid (valid_running _)) ha
  have hsound := hiff.mp hcheck
  exact damaged_unsound (hsound.workspaces "default" List.mem_cons_self damagedStore rfl)

end Samples

end Backup

end KivaDb
