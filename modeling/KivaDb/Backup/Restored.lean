import KivaDb.Backup.Checked
import KivaDb.Backup.Restore

namespace KivaDb

open Lib.LittleEndian Lib.Utf8 Lib.Fallible

namespace World

variable (w : World)

theorem lookup_cons_ite {α : Type} (f : Path × α) (files : List (Path × α)) (q : Path) :
    (f :: files).lookup q = if q = f.1 then some f.2 else files.lookup q := by
  rw [List.lookup_cons]
  by_cases hq : q = f.1
  · rw [if_pos hq, hq, beq_self_eq_true]
  · rw [if_neg hq, beq_false_of_ne hq]

theorem lookup_eq_none {α : Type} {files : List (Path × α)} {q : Path} (h : q ∉ files.map Prod.fst) :
    files.lookup q = none := by
  rw [List.lookup_eq_none_iff]
  intro f hf
  exact bne_iff_ne.mpr fun heq => h (heq ▸ List.mem_map_of_mem hf)

theorem lookup_put {α : Type} (files : List (Path × α)) (p q : Path) (a : α) :
    (Backup.put files p a).lookup q = if q = p then some a else files.lookup q := by
  have hself (l : List (Path × α)) (hp : p ∈ l.map Prod.fst) :
      (l.map fun f => if f.1 = p then (p, a) else f).lookup p = some a := by
    induction l with
    | nil => exact nomatch hp
    | cons f l ih =>
        rw [List.map_cons, lookup_cons_ite]
        by_cases hf : f.1 = p
        · rw [if_pos hf, if_pos rfl]
        · rw [if_neg hf, if_neg (Ne.symm hf), ih ((List.mem_cons.mp hp).resolve_left (Ne.symm hf))]
  have hother (l : List (Path × α)) (hq : q ≠ p) :
      (l.map fun f => if f.1 = p then (p, a) else f).lookup q = l.lookup q := by
    induction l with
    | nil => rfl
    | cons f l ih =>
        rw [List.map_cons, lookup_cons_ite, lookup_cons_ite, ih]
        by_cases hf : f.1 = p
        · rw [if_pos hf, if_neg hq, if_neg (hf ▸ hq)]
        · rw [if_neg hf]
  unfold Backup.put
  by_cases hq : q = p
  · rw [if_pos hq, hq]
    split
    · next hmem => exact hself files hmem
    · next hmem =>
        rw [List.lookup_append, lookup_eq_none hmem, lookup_cons_ite, if_pos rfl]
        rfl
  · rw [if_neg hq]
    split
    · exact hother files hq
    · rw [List.lookup_append, lookup_cons_ite, if_neg hq]
      exact Option.or_none

theorem read_write (p q : Path) (b : Bytes) : (w.write p b).read q = if q = p then some b else w.read q := by
  rw [read, write, lookup_put]
  split
  · rfl
  · rfl

theorem read_write_self (p : Path) (b : Bytes) : (w.write p b).read p = some b := by
  rw [read_write, if_pos rfl]

theorem read_write_ne {p q : Path} (h : q ≠ p) (b : Bytes) : (w.write p b).read q = w.read q := by
  rw [read_write, if_neg h]

end World

namespace Backup

/-- What may lie in a folder that counts as empty. -/
def Spare (n : String) : Prop := n = "instance.lock" ∨ ".kivadb-restore-".toList <+: n.toList

instance (n : String) : Decidable (Spare n) := by
  unfold Spare
  infer_instance

theorem isEmptyDir_iff {w : World} {dir : Path} :
    isEmptyDir w dir = true ↔ ∀ e ∈ w.entries, ∀ n rest, e.1 = dir ++ n :: rest → Spare n := by
  rw [isEmptyDir, List.all_eq_true]
  refine forall₂_congr fun ⟨p, b⟩ _ => ?_
  dsimp only
  constructor
  · rintro h n rest rfl
    rw [List.drop_left' rfl] at h
    simpa [Spare] using h
  · intro h
    by_cases hp : dir <+: p
    · obtain ⟨rest, rfl⟩ := hp
      rw [List.drop_left' rfl]
      cases rest with
      | nil => simp
      | cons n rest =>
          have := h n rest rfl
          simpa [Spare] using this
    · simp [hp]

theorem mem_put {α : Type} {files : List (Path × α)} {p : Path} {a : α} {f : Path × α} (h : f ∈ put files p a) :
    f ∈ files ∨ f = (p, a) := by
  unfold put at h
  split at h
  · obtain ⟨g, hg, rfl⟩ := List.mem_map.mp h
    by_cases hp : g.1 = p
    · exact .inr (if_pos hp)
    · exact .inl (by rwa [if_neg hp])
  · rcases List.mem_append.mp h with h | h
    · exact .inl h
    · exact .inr (List.mem_singleton.mp h)

theorem isEmptyDir_write {w : World} {dir p : Path} {b : Bytes} (h : isEmptyDir w dir = true)
    (hp : ∀ n rest, p = dir ++ n :: rest → Spare n) : isEmptyDir (w.write p b) dir = true := by
  rw [isEmptyDir_iff] at h ⊢
  intro e he n rest heq
  rcases mem_put he with he | rfl
  · exact h e he n rest heq
  · exact hp n rest heq

theorem read_of_isEmptyDir {w : World} {dir : Path} (h : isEmptyDir w dir = true) {n : String} {rest : Path}
    (hn : ¬ Spare n) : w.read (dir ++ n :: rest) = none := by
  have hlookup : w.entries.lookup (dir ++ n :: rest) = none := by
    apply World.lookup_eq_none
    intro hmem
    obtain ⟨e, he, heq⟩ := List.mem_map.mp hmem
    exact hn (isEmptyDir_iff.mp h e he n rest heq)
  rw [World.read, hlookup]
  rfl

/-- Outside these entries of a folder nothing has changed. -/
def Keeps (dir : Path) (heads : List String) (w w' : World) : Prop :=
  ∀ n rest, n ∉ heads → w'.read (dir ++ n :: rest) = w.read (dir ++ n :: rest)

section

variable {dir : Path} {heads : List String} {w w' w'' : World}

theorem Keeps.refl : Keeps dir heads w w := fun _ _ _ => rfl

theorem Keeps.trans (h : Keeps dir heads w w') (h' : Keeps dir heads w' w'') : Keeps dir heads w w'' :=
  fun n rest hn => (h' n rest hn).trans (h n rest hn)

theorem Keeps.mono {more : List String} (h : Keeps dir heads w w') (hsub : heads ⊆ more) : Keeps dir more w w' :=
  fun n rest hn => h n rest fun hmem => hn (hsub hmem)

theorem keeps_write {n : String} (hn : n ∈ heads) (rest : Path) (b : Bytes) :
    Keeps dir heads w (w.write (dir ++ n :: rest) b) := by
  intro m rest' hm
  refine World.read_write_ne _ (fun heq => hm ?_) b
  rw [(List.cons.inj (List.append_cancel_left heq)).1]
  exact hn

end

/-- The world once the lock of a home is held. -/
def locked (home : Path) (w : World) : World :=
  if (w.read (home ++ ["instance.lock"])).isNone then w.write (home ++ ["instance.lock"]) [] else w

/-- The configuration of a home. -/
def configOf (home : Path) (w : World) : Config :=
  match (w.read (home ++ ["kiva.conf"])).bind fromUtf8 with
  | some text => .parse home text.toList
  | none => .fresh home

/-- The world once the configuration of a home is loaded. -/
def loaded (home : Path) (w : World) : World :=
  match (w.read (home ++ ["kiva.conf"])).bind fromUtf8 with
  | some _ => w
  | none => w.write (home ++ ["kiva.conf"]) (asBytes (Config.fresh home).text)

section

variable {home dir : Path} {w : World}

theorem lockHome_ok (h : home ∉ w.running) : lockHome home w = .ok () (locked home w) := by
  unfold lockHome locked
  refine bind_ok.mpr ⟨w, w, rfl, ?_⟩
  rw [if_neg h]
  by_cases hnone : (w.read (home ++ ["instance.lock"])).isNone = true
  · rw [if_pos hnone, if_pos hnone]
    rfl
  · rw [if_neg hnone, if_neg hnone]
    rfl

theorem loadConfig_ok (home : Path) (w : World) : loadConfig home w = .ok (configOf home w) (loaded home w) := by
  unfold loadConfig configOf loaded
  refine bind_ok.mpr ⟨w, w, rfl, ?_⟩
  rcases (w.read (home ++ ["kiva.conf"])).bind fromUtf8 with _ | text <;> rfl

theorem home_configOf (home : Path) (w : World) : (configOf home w).home = home := by
  unfold configOf
  split
  · exact Config.home_parse home _
  · exact Config.home_fresh home

theorem keeps_locked (home : Path) (w : World) : Keeps home ["instance.lock"] w (locked home w) := by
  unfold locked
  split
  · exact keeps_write List.mem_cons_self _ _
  · exact .refl

theorem keeps_loaded (home : Path) (w : World) : Keeps home ["kiva.conf"] w (loaded home w) := by
  unfold loaded
  split
  · exact .refl
  · exact keeps_write List.mem_cons_self _ _

theorem isEmptyDir_locked (h : isEmptyDir w dir = true)
    (hdir : ∀ n rest, home ++ ["instance.lock"] = dir ++ n :: rest → Spare n) : isEmptyDir (locked home w) dir = true := by
  unfold locked
  split
  · exact isEmptyDir_write h hdir
  · exact h

theorem isEmptyDir_loaded (h : isEmptyDir w dir = true)
    (hdir : ∀ n rest, home ++ ["kiva.conf"] = dir ++ n :: rest → Spare n) : isEmptyDir (loaded home w) dir = true := by
  unfold loaded
  split
  · exact h
  · exact isEmptyDir_write h hdir

theorem configOf_locked (home : Path) (w : World) : configOf home (locked home w) = configOf home w := by
  rw [configOf, keeps_locked home w "kiva.conf" [] (by decide)]
  rfl

end

/-- Files moved from one folder to another, where they are there. -/
structure Installed (staging : List (Path × Bytes)) (source dest : Path) (files : List String) (w w' : World) : Prop where
  moved : ∀ f ∈ files, w'.read (dest ++ [f]) = (staging.lookup (source ++ [f])).or (w.read (dest ++ [f]))
  rest : ∀ p, (∀ f ∈ files, p ≠ dest ++ [f]) → w'.read p = w.read p

theorem installIf_ok (staging : List (Path × Bytes)) (source dest : Path) (w : World) :
    ∃ w', installIf staging source dest w = .ok () w' ∧ w'.read dest = (staging.lookup source).or (w.read dest) ∧
      ∀ p, p ≠ dest → w'.read p = w.read p := by
  unfold installIf
  cases staging.lookup source with
  | none => exact ⟨w, rfl, rfl, fun _ _ => rfl⟩
  | some data => exact ⟨w.write dest data, rfl, w.read_write_self dest data, fun _ hp => w.read_write_ne hp data⟩

theorem installAll_ok (staging : List (Path × Bytes)) (source dest : Path) (files : List String) (w : World) :
    ∃ w', installAll staging source dest files w = .ok () w' ∧ Installed staging source dest files w w' := by
  induction files generalizing w with
  | nil => exact ⟨w, rfl, nofun, fun _ _ => rfl⟩
  | cons f files ih =>
      obtain ⟨w₁, hfirst, hself, hother⟩ := installIf_ok staging (source ++ [f]) (dest ++ [f]) w
      obtain ⟨w₂, hrest, hall⟩ := ih w₁
      refine ⟨w₂, bind_ok.mpr ⟨(), w₁, hfirst, hrest⟩, fun g hg => ?_, fun p hp => ?_⟩
      · by_cases hgf : g = f
        · rw [hgf]
          by_cases hmem : f ∈ files
          · rw [hall.moved f hmem, hself, ← Option.or_assoc, Option.or_self]
          · rw [hall.rest _ fun n hn heq => hmem ?_, hself]
            rw [List.cons.inj (List.append_cancel_left heq) |>.1]
            exact hn
        · rw [hall.moved g ((List.mem_cons.mp hg).resolve_left hgf), hother]
          exact fun heq => hgf (List.cons.inj (List.append_cancel_left heq)).1
      · rw [hall.rest p fun n hn => hp n (List.mem_cons_of_mem _ hn), hother p (hp f List.mem_cons_self)]

theorem Installed.keeps {staging : List (Path × Bytes)} {source dir : Path} {n : String} {files : List String} {w w' : World}
    (h : Installed staging source (dir ++ [n]) files w w') : Keeps dir [n] w w' := by
  intro m rest hm
  refine h.rest _ fun f _ heq => hm ?_
  rw [List.append_assoc] at heq
  rw [(List.cons.inj (List.append_cancel_left heq)).1]
  exact List.mem_cons_self

theorem homeDir_inj {home : Path} {n m : String} (h : homeDir home n = homeDir home m) : n = m := by
  unfold homeDir at h
  by_cases hn : n = "default"
  · by_cases hm : m = "default"
    · rw [hn, hm]
    · rw [if_pos hn, if_neg hm] at h
      exact absurd (List.append_cancel_left h) (by simp)
  · by_cases hm : m = "default"
    · rw [if_neg hn, if_pos hm] at h
      exact absurd (List.append_cancel_left h) (by simp)
    · rw [if_neg hn, if_neg hm] at h
      exact (List.cons.inj (List.cons.inj (List.append_cancel_left h)).2).1

/-- A file of a workspace lies in `data` or in `workspaces`. -/
theorem homeDir_snoc (home : Path) (n f : String) :
    ∃ x rest, x ∈ ["data", "workspaces"] ∧ homeDir home n ++ [f] = home ++ x :: rest := by
  unfold homeDir
  split
  · exact ⟨"data", [f], by simp, by simp⟩
  · exact ⟨"workspaces", [n, f], by simp, by simp⟩

section

variable [Chrono] [Formats]

theorem setConfig_ok {c : Config} {key value : String} (h : Config.validate key value = .ok ()) (section_ : String)
    (w : World) : setConfig c section_ key value w = .ok (c.insert section_ key value)
      (w.write (c.home ++ ["kiva.conf"]) (asBytes (c.insert section_ key value).text)) := by
  have hset : c.set section_ key value = .ok (c.insert section_ key value) := by
    rw [Config.set, h]
  unfold setConfig
  rw [hset]
  rfl

theorem validate_default (value : String) : Config.validate "default_workspace" value = .ok () := rfl

/-- What `kiva.conf` takes as the folder of each workspace. -/
def Registrable (dir : String → Path) (names : List String) : Prop :=
  ∀ n ∈ names, n ≠ "default" → Config.validate n (display (dir n)) = .ok ()

/-- The settings saved in a home give each workspace its folder. -/
def Registered (home : Path) (dir : String → Path) (names : List String) (w : World) : Prop :=
  ∃ c : Config, w.read (home ++ ["kiva.conf"]) = some (asBytes c.text) ∧
    ∀ n ∈ names, c.workspaceDir n = some (display (dir n))

def storeNames : List String := ["store.kiva", "store.kiva.meta"]

/-- Workspaces put in a new home, and registered there. -/
structure Placed (staging : List (Path × Bytes)) (home : Path) (names : List String) (c c' : Config) (w w' : World) :
    Prop where
  same : c'.home = c.home
  conf : names ≠ [] → w'.read (home ++ ["kiva.conf"]) = some (asBytes c'.text)
  dirs : ∀ n ∈ names, c'.workspaceDir n = some (display (homeDir home n))
  others : ∀ n, n ∉ names → c'.workspaceDir n = c.workspaceDir n
  moved : ∀ n ∈ names, ∀ f ∈ storeNames, w'.read (homeDir home n ++ [f]) =
    (staging.lookup ["workspaces", n, f]).or (w.read (homeDir home n ++ [f]))
  rest : ∀ p, p ≠ home ++ ["kiva.conf"] → (∀ n ∈ names, ∀ f ∈ storeNames, p ≠ homeDir home n ++ [f]) → w'.read p = w.read p

variable {staging : List (Path × Bytes)} {home : Path} {names : List String} {c c' : Config} {w w' : World}

omit [Chrono] [Formats] in
theorem homeDir_snoc_ne (home : Path) (n f : String) : homeDir home n ++ [f] ≠ home ++ ["kiva.conf"] := by
  obtain ⟨x, rest, hx, heq⟩ := homeDir_snoc home n f
  rw [heq]
  intro h
  rw [(List.cons.inj (List.append_cancel_left h)).1] at hx
  exact absurd hx (by decide)

/-- One workspace: its files, then its folder in the settings. -/
theorem placeWorkspace_ok {n : String} (hvalid : n ≠ "default" → Config.validate n (display (homeDir home n)) = .ok ())
    (hc : c.home = home) (w : World) : ∃ w₁ c' w', installWorkspace staging n (homeDir home n) w = .ok () w₁ ∧
      (if n = "default" then setConfig c "storage" "default_workspace" (display (homeDir home n))
        else setConfig c "workspaces" n (display (homeDir home n))) w₁ = .ok c' w' ∧ Placed staging home [n] c c' w w' := by
  obtain ⟨w₁, hinstall, hmoved⟩ := installAll_ok staging ["workspaces", n] (homeDir home n) storeNames w
  have hplaced {c' : Config} (hhome : c'.home = c.home)
      (hdir : ∀ m, c'.workspaceDir m = if m = n then some (display (homeDir home n)) else c.workspaceDir m) :
      Placed staging home [n] c c' w (w₁.write (c.home ++ ["kiva.conf"]) (asBytes c'.text)) := by
    rw [hc]
    refine ⟨hhome, fun _ => World.read_write_self _ _ _, fun m hm => ?_, fun m hm => ?_, fun m hm f hf => ?_, fun p hp hrest => ?_⟩
    · rw [hdir, if_pos (List.mem_singleton.mp hm), List.mem_singleton.mp hm]
    · rw [hdir, if_neg fun heq => hm (List.mem_singleton.mpr heq)]
    · rw [List.mem_singleton.mp hm, World.read_write_ne _ (homeDir_snoc_ne home n f), hmoved.moved f hf]
      rfl
    · rw [World.read_write_ne _ hp, hmoved.rest p fun f hf => hrest n List.mem_cons_self f hf]
  by_cases hn : n = "default"
  · refine ⟨w₁, c.insert "storage" "default_workspace" (display (homeDir home n)), _, hinstall, ?_, hplaced rfl fun m => ?_⟩
    · rw [if_pos hn]
      exact setConfig_ok (validate_default _) _ _
    · rw [Config.workspaceDir_default, hn]
  · refine ⟨w₁, c.insert "workspaces" n (display (homeDir home n)), _, hinstall, ?_, hplaced rfl fun m => ?_⟩
    · rw [if_neg hn]
      exact setConfig_ok (hvalid hn) _ _
    · rw [Config.workspaceDir_insert _ hn]

theorem restoreWorkspaces_ok (staging : List (Path × Bytes)) (hnodup : names.Nodup) (hvalid : Registrable (homeDir home) names) (hc : c.home = home)
    (w : World) : ∃ c' w', restoreWorkspaces staging home names c w = .ok c' w' ∧ Placed staging home names c c' w w' := by
  induction names generalizing c w with
  | nil => exact ⟨c, w, rfl, rfl, fun h => absurd rfl h, nofun, fun _ _ => rfl, nofun, fun _ _ _ => rfl⟩
  | cons n names ih =>
      obtain ⟨hn, hnodup⟩ := List.nodup_cons.mp hnodup
      obtain ⟨hfirst, hvalid⟩ := List.forall_mem_cons.mp hvalid
      obtain ⟨w', c₁, w₁, hinstall, hset, hone⟩ := placeWorkspace_ok hfirst hc w
      obtain ⟨c₂, w₂, hmany, hall⟩ := ih hnodup hvalid (hone.same.trans hc) w₁
      have hapart {m f : String} (hm : m ∈ names) : ∀ g ∈ storeNames, homeDir home n ++ [f] ≠ homeDir home m ++ [g] := by
        intro g _ heq
        exact hn (homeDir_inj (List.append_inj_left' heq rfl) ▸ hm)
      have hrestore : restoreWorkspaces staging home (n :: names) c w = .ok c₂ w₂ := by
        refine bind_ok.mpr ⟨(), w', hinstall, ?_⟩
        by_cases hd : n = "default"
        · rw [if_pos hd] at hset ⊢
          exact bind_ok.mpr ⟨c₁, w₁, hset, hmany⟩
        · rw [if_neg hd] at hset ⊢
          exact bind_ok.mpr ⟨c₁, w₁, hset, hmany⟩
      refine ⟨c₂, w₂, hrestore, hall.same.trans hone.same, fun _ => ?_, fun m hm => ?_, fun m hm => ?_, fun m hm f hf => ?_, fun p hp hrest => ?_⟩
      · cases names with
        | nil =>
            cases hmany
            exact hone.conf (List.cons_ne_nil _ _)
        | cons m names => exact hall.conf (List.cons_ne_nil _ _)
      · rcases List.mem_cons.mp hm with rfl | hm
        · rw [hall.others m hn, hone.dirs m List.mem_cons_self]
        · exact hall.dirs m hm
      · rw [List.mem_cons, not_or] at hm
        rw [hall.others m hm.2, hone.others m (by simpa using hm.1)]
      · rcases List.mem_cons.mp hm with rfl | hm
        · rw [hall.rest _ (homeDir_snoc_ne home m f) fun k hk => hapart hk, hone.moved m List.mem_cons_self f hf]
        · rw [hall.moved m hm f hf, hone.rest _ (homeDir_snoc_ne home m f)]
          intro k hk g hg
          rw [List.mem_singleton.mp hk]
          exact (hapart hm f hf).symm
      · obtain ⟨hrest, hrests⟩ := List.forall_mem_cons.mp hrest
        rw [hall.rest p hp hrests, hone.rest p hp fun k hk => by rwa [List.mem_singleton.mp hk]]

/-- A home backup goes into an empty folder. -/
theorem restoreHome_ok {conf : Bytes} (hfree : home ∉ w.running) (hempty : isEmptyDir w home = true)
    (hconf : staging.lookup ["kiva.conf"] = some conf) (hnodup : names.Nodup) (hne : names ≠ [])
    (hvalid : Registrable (homeDir home) names) : ∃ w', restoreHome staging names home w = .ok () w' ∧
      (∀ n ∈ names, ∀ f ∈ storeNames, w'.read (homeDir home n ++ [f]) = staging.lookup ["workspaces", n, f]) ∧
      (∀ f ∈ ["system.kiva", "system.kiva.meta"], w'.read (home ++ ["system", f]) = staging.lookup ["system", f]) ∧
      Registered home (homeDir home) names w' := by
  set w₀ := locked home w
  have hempty₀ : isEmptyDir w₀ home = true := isEmptyDir_locked hempty fun n rest heq => by
    rw [← (List.cons.inj (List.append_cancel_left heq)).1]
    exact .inl rfl
  set w₁ := w₀.write (home ++ ["kiva.conf"]) conf
  obtain ⟨w₂, hsystem, hmoved⟩ := installAll_ok staging ["system"] (home ++ ["system"]) ["system.kiva", "system.kiva.meta"] w₁
  obtain ⟨w₃, haudit, -, hrest₃⟩ := installIf_ok staging ["audit.log"] (home ++ ["audit.log"]) w₂
  obtain ⟨w₄, htls, hmoved₄⟩ := installAll_ok staging ["tls"] (home ++ ["tls"]) (filesOf staging "tls") w₃
  obtain ⟨c, w', hplaces, hplaced⟩ := restoreWorkspaces_ok staging hnodup hvalid (home_configOf home w₄) (loaded home w₄)
  have hinstall : install staging ["kiva.conf"] (home ++ ["kiva.conf"]) w₀ = .ok () w₁ := by
    rw [install, hconf]
    rfl
  have hkeeps₁ : Keeps home ["kiva.conf"] w₀ w₁ := keeps_write List.mem_cons_self _ _
  have hkeeps₃ : Keeps home ["audit.log"] w₂ w₃ := by
    intro n rest hn
    refine hrest₃ _ fun heq => hn ?_
    rw [(List.cons.inj (List.append_cancel_left heq)).1]
    exact List.mem_cons_self
  have hlate : Keeps home ["audit.log", "tls", "kiva.conf"] w₂ (loaded home w₄) :=
    ((hkeeps₃.mono (by decide)).trans (hmoved₄.keeps.mono (by decide))).trans ((keeps_loaded home w₄).mono (by decide))
  have hall : Keeps home ["kiva.conf", "system", "audit.log", "tls"] w₀ (loaded home w₄) :=
    ((hkeeps₁.mono (by decide)).trans (hmoved.keeps.mono (by decide))).trans (hlate.mono (by decide))
  refine ⟨w', ?_, fun n hn f hf => ?_, fun f hf => ?_, c, hplaced.conf hne, hplaced.dirs⟩
  · refine bind_ok.mpr ⟨(), w₀, lockHome_ok hfree, bind_ok.mpr ⟨w₀, w₀, rfl, ?_⟩⟩
    rw [hempty₀]
    refine bind_ok.mpr ⟨(), w₁, hinstall, bind_ok.mpr ⟨(), w₂, hsystem, bind_ok.mpr ⟨(), w₃, haudit, ?_⟩⟩⟩
    refine bind_ok.mpr ⟨(), w₄, htls, bind_ok.mpr ⟨_, _, loadConfig_ok home w₄, ?_⟩⟩
    exact bind_ok.mpr ⟨c, w', hplaces, rfl⟩
  · obtain ⟨x, rest, hx, heq⟩ := homeDir_snoc home n f
    have hspare : ¬ Spare x := by
      rcases List.mem_cons.mp hx with rfl | hx
      · decide
      · rw [List.mem_singleton.mp hx]
        decide
    rw [hplaced.moved n hn f hf, heq, hall x rest ?_, read_of_isEmptyDir hempty₀ hspare, Option.or_none]
    rcases List.mem_cons.mp hx with rfl | hx
    · decide
    · rw [List.mem_singleton.mp hx]
      decide
  · have hold : w₁.read (home ++ ["system", f]) = none := by
      rw [hkeeps₁ "system" [f] (by decide)]
      exact read_of_isEmptyDir hempty₀ (by decide)
    have happ : home ++ ["system", f] = home ++ ["system"] ++ [f] := by simp
    rw [hplaced.rest, hlate "system" [f] (by decide), happ, hmoved.moved f hf, ← happ, hold, Option.or_none]
    · rfl
    · exact fun heq => absurd (List.append_cancel_left heq) (by simp)
    · intro n _ g _ heq
      obtain ⟨x, rest, hx, hdir⟩ := homeDir_snoc home n g
      rw [hdir] at heq
      rw [← (List.cons.inj (List.append_cancel_left heq)).1] at hx
      exact absurd hx (by decide)

/-- A workspace backup goes into a home that does not have the workspace. -/
theorem restoreWorkspace_ok (staging : List (Path × Bytes)) {n : String} (hfree : home ∉ w.running) (hempty : isEmptyDir w (home ++ ["workspaces", n]) = true)
    (hnew : (configOf home w).workspaceDir n = none) (hpart : Repl.validNamePart n.toList = true)
    (hvalid : Config.validate n (display (home ++ ["workspaces", n])) = .ok ()) :
    ∃ w', restoreWorkspace staging n n home (home ++ ["workspaces", n]) w = .ok () w' ∧
      (∀ f ∈ storeNames, w'.read (home ++ ["workspaces", n] ++ [f]) = staging.lookup ["workspaces", n, f]) ∧
      Registered home (fun n => home ++ ["workspaces", n]) [n] w' := by
  have happ (f : String) : home ++ ["workspaces", n] ++ [f] = home ++ "workspaces" :: [n, f] := by simp
  set w₀ := locked home w
  set w₁ := loaded home w₀
  have hempty₁ : isEmptyDir w₁ (home ++ ["workspaces", n]) = true := by
    refine isEmptyDir_loaded (isEmptyDir_locked hempty fun m rest heq => ?_) fun m rest heq => ?_
    · rw [List.append_assoc] at heq
      exact absurd (List.append_cancel_left heq) (by simp)
    · rw [List.append_assoc] at heq
      exact absurd (List.append_cancel_left heq) (by simp)
  obtain ⟨w₂, hinstall, hmoved⟩ := installAll_ok staging ["workspaces", n] (home ++ ["workspaces", n]) storeNames w₁
  have hn : n ≠ "default" := by
    rintro rfl
    rw [Config.workspaceDir, if_pos rfl] at hnew
    cases hnew
  set dir := home ++ ["workspaces", n]
  set c := (configOf home w).insert "workspaces" n (display dir)
  have hset : setConfig (configOf home w) "workspaces" n (display dir) w₂ =
      .ok c (w₂.write (home ++ ["kiva.conf"]) (asBytes c.text)) := by
    rw [setConfig_ok hvalid, home_configOf]
  have hload : loadConfig home w₀ = .ok (configOf home w) w₁ := configOf_locked home w ▸ loadConfig_ok home w₀
  refine ⟨w₂.write (home ++ ["kiva.conf"]) (asBytes c.text), ?_, fun f hf => ?_, c, World.read_write_self _ _ _, fun m hm => ?_⟩
  · refine bind_ok.mpr ⟨(), w₀, lockHome_ok hfree, bind_ok.mpr ⟨_, w₁, hload, ?_⟩⟩
    rw [hnew, hpart]
    refine bind_ok.mpr ⟨w₁, w₁, rfl, ?_⟩
    rw [hempty₁]
    exact bind_ok.mpr ⟨(), w₂, hinstall, bind_ok.mpr ⟨c, _, hset, rfl⟩⟩
  · have hspare : ∀ f ∈ storeNames, ¬ Spare f := by decide
    have hold : w₁.read (dir ++ [f]) = none := read_of_isEmptyDir hempty₁ (hspare f hf)
    have hne : dir ++ [f] ≠ home ++ ["kiva.conf"] := by
      rw [happ]
      exact fun heq => absurd (List.append_cancel_left heq) (by simp)
    rw [World.read_write_ne _ hne, hmoved.moved f hf, hold, Option.or_none]
    rfl
  · rw [Config.workspaceDir_insert _ hn, if_pos (List.mem_singleton.mp hm), List.mem_singleton.mp hm]

end

end Backup

end KivaDb
