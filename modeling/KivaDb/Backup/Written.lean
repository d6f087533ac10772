import KivaDb.Backup.Archive
import KivaDb.Lib.Fallible
import KivaDb.Repl.Stream

namespace KivaDb

open Lib.LittleEndian Lib.Utf8 Lib.Fallible Format

namespace Backup

/-- The name under which a file is saved. -/
def nameOf (p : Path) : String := "/".intercalate p

def Plain (p : Path) : Prop := p ≠ [] ∧ ∀ n ∈ p, IsName n

theorem IsName.toList_ne {n : String} (h : IsName n) : n.toList ≠ [] ∧ n.toList ≠ ['.'] ∧ n.toList ≠ ['.', '.'] := by
  refine ⟨fun hn => h.1 ?_, fun hn => h.2.1 ?_, fun hn => h.2.2.1 ?_⟩
  all_goals exact String.toList_inj.mp hn

theorem splitOn_nameOf {p : Path} (h : Plain p) : (nameOf p).toList.splitOn '/' = p.map String.toList := by
  rw [nameOf, String.toList_intercalate]
  refine List.splitOn_intercalate '/' (fun l hl => ?_) (by simpa using h.1)
  obtain ⟨n, hn, rfl⟩ := List.mem_map.mp hl
  exact (h.2 n hn).2.2.2

theorem components_nameOf {p : Path} (h : Plain p) : components (nameOf p) = p.map .normal := by
  have hpieces (q : Path) (hq : ∀ n ∈ q, IsName n) : ((q.map String.toList).filterMap fun p =>
      if p = [] ∨ p = ['.'] then none else if p = ['.', '.'] then some Component.parentDir
        else some (.normal (String.ofList p))) = q.map .normal := by
    induction q with
    | nil => rfl
    | cons n q ih =>
        obtain ⟨hn, hq⟩ := List.forall_mem_cons.mp hq
        obtain ⟨h0, h1, h2⟩ := hn.toList_ne
        rw [List.map_cons, List.filterMap_cons_some (b := .normal n)
          (by rw [if_neg (not_or.mpr ⟨h0, h1⟩), if_neg h2, String.ofList_toList]), ih hq, List.map_cons]
  obtain ⟨n, q, rfl⟩ := List.exists_cons_of_ne_nil h.1
  obtain ⟨h0, h1, -⟩ := (h.2 n List.mem_cons_self).toList_ne
  rw [components, splitOn_nameOf h, hpieces _ h.2, List.map_cons]
  split
  · next heq => exact absurd (List.cons.inj heq).1 h0
  · next heq => exact absurd (List.cons.inj heq).1 h1
  · rfl

theorem isName_root : IsName root := by decide

theorem nameOf_root {p : Path} (h : p ≠ []) : s!"{root}/{nameOf p}" = nameOf (root :: p) := by
  obtain ⟨n, q, rfl⟩ := List.exists_cons_of_ne_nil h
  rw [nameOf, nameOf, String.intercalate_cons_cons]
  rfl

theorem allNormal_map (p : Path) : allNormal (p.map .normal) = some p := by
  induction p with
  | nil => rfl
  | cons n p ih => rw [List.map_cons, allNormal, ih, Option.map_some]

/-- A saved file is unpacked where it was. -/
theorem relative_nameOf (archive : Path) {p : Path} (h : Plain p) : relative archive s!"{root}/{nameOf p}" = .ok p := by
  have hroot : Plain (root :: p) := ⟨by simp, List.forall_mem_cons.mpr ⟨isName_root, h.2⟩⟩
  obtain ⟨n, q, rfl⟩ := List.exists_cons_of_ne_nil h.1
  rw [nameOf_root h.1, relative, components_nameOf hroot, List.map_cons]
  dsimp only
  rw [if_pos rfl, allNormal_map]

theorem pathNames_nameOf {p : Path} (h : Plain p) : pathNames (nameOf p) = p := by
  rw [pathNames, components_nameOf h, List.filterMap_map]
  exact List.filterMap_some

theorem nameOf_inj {p q : Path} (hp : Plain p) (hq : Plain q) (h : nameOf p = nameOf q) : p = q := by
  have hsplit := splitOn_nameOf hp
  rw [h, splitOn_nameOf hq] at hsplit
  exact ((List.map_injective_iff.mpr fun _ _ => String.toList_inj.mp) hsplit).symm

theorem ne_of_validNamePart {cs : List Char} (h : Repl.validNamePart cs = true) :
    cs ≠ [] ∧ ∀ c ∈ cs, c ≠ '/' ∧ c ≠ '.' := by
  rw [Repl.validNamePart, Bool.and_eq_true, Bool.and_eq_true, List.all_eq_true] at h
  refine ⟨by simpa using h.1.1, fun c hc => ?_⟩
  have := h.2 c hc
  constructor <;> (rintro rfl; exact absurd this (by decide))

theorem isName_of_head {n : String} {c : Char} {cs : List Char} (h : n.toList = c :: cs) (hc : c ≠ '.')
    (hslash : '/' ∉ n.toList) : IsName n := by
  refine ⟨?_, ?_, ?_, hslash⟩
  · rintro rfl
    exact nomatch h
  · rintro rfl
    exact hc (List.cons.inj h).1.symm
  · rintro rfl
    exact hc (List.cons.inj h).1.symm

/-- The name of a workspace names a folder. -/
theorem isName_of_valid {n : String} (h : Repl.validWorkspaceName n = true) : IsName n := by
  have hsplit := List.takeWhile_append_dropWhile (p := (· ≠ '.')) (l := n.toList)
  have hdrop := congrArg (List.drop (n.toList.takeWhile (· ≠ '.')).length) hsplit
  rw [List.drop_left' rfl] at hdrop
  rw [Repl.validWorkspaceName, ← hdrop] at h
  split at h
  · obtain ⟨hne, hc⟩ := ne_of_validNamePart h
    obtain ⟨c, cs, hcs⟩ := List.exists_cons_of_ne_nil hne
    exact isName_of_head hcs (hc c (hcs ▸ List.mem_cons_self)).2 fun hslash => (hc _ hslash).1 rfl
  · next c rest heq =>
      rw [Bool.and_eq_true] at h
      obtain ⟨hne, hc⟩ := ne_of_validNamePart h.1
      obtain ⟨-, hc'⟩ := ne_of_validNamePart h.2
      obtain ⟨a, as, has⟩ := List.exists_cons_of_ne_nil hne
      have hdot : c = '.' := by
        have hhead := List.head?_dropWhile_not (· ≠ '.') n.toList
        rw [heq] at hhead
        simpa using hhead
      rw [heq, has] at hsplit
      refine isName_of_head hsplit.symm (hc a (has ▸ List.mem_cons_self)).2 fun hslash => ?_
      rw [← hsplit, ← has, hdot] at hslash
      rcases List.mem_append.mp hslash with hs | hs
      · exact (hc _ hs).1 rfl
      · rcases List.mem_cons.mp hs with hs | hs
        · exact absurd hs (by decide)
        · exact (hc' _ hs).1 rfl

/-- The files of an engine. -/
def storeFiles (dir : Path) (file : String) (store : Store) : List (Path × Bytes) :=
  (dir ++ [file], store.data) :: store.defs.toList.map fun d => (dir ++ [file ++ ".meta"], d)

def workspaceFiles (stores : List (String × Store)) : List (Path × Bytes) :=
  stores.flatMap fun s => storeFiles ["workspaces", s.1] "store.kiva" s.2

def homeFiles (inst : Instance) : List (Path × Bytes) :=
  (["kiva.conf"], inst.conf) :: (storeFiles ["system"] "system.kiva" inst.system ++
    (inst.auditLog.toList.map (fun log => (["audit.log"], log)) ++ inst.tls.map fun f => (["tls", f.1], f.2)))

/-- What an archive holds beside its manifest. -/
def savedFiles (inst : Instance) (scope : Scope) (stores : List (String × Store)) : List (Path × Bytes) :=
  workspaceFiles stores ++ if scope = .home then homeFiles inst else []

/-- The engines of the workspaces saved. -/
structure Opens (inst : Instance) (scope : Scope) (stores : List (String × Store)) : Prop where
  names : stores.map Prod.fst = names inst scope
  opened : ∀ s ∈ stores, inst.engine s.1 = .ok s.2

theorem mem_storeFiles {dir : Path} {file : String} {store : Store} {f : Path × Bytes} (h : f ∈ storeFiles dir file store) :
    f = (dir ++ [file], store.data) ∨ ∃ d ∈ store.defs, f = (dir ++ [file ++ ".meta"], d) := by
  rcases List.mem_cons.mp h with rfl | h
  · exact .inl rfl
  · obtain ⟨d, hd, rfl⟩ := List.mem_map.mp h
    exact .inr ⟨d, Option.mem_toList.mp hd, rfl⟩

theorem append_of_mem_storeFiles {dir : Path} {file : String} {store : Store} {f : Path × Bytes}
    (h : f ∈ storeFiles dir file store) : f.1 = dir ++ [file] ∨ f.1 = dir ++ [file ++ ".meta"] := by
  rcases mem_storeFiles h with rfl | ⟨_, -, rfl⟩
  · exact .inl rfl
  · exact .inr rfl

theorem second_of_mem_storeFiles {n file : String} {store : Store} {f : Path × Bytes}
    (h : f ∈ storeFiles ["workspaces", n] file store) : f.1[1]? = some n := by
  rcases append_of_mem_storeFiles h with h | h <;> rw [h] <;> rfl

theorem plain_storeFiles {dir : Path} {file : String} {store : Store} (hdir : ∀ n ∈ dir, IsName n) (hfile : IsName file)
    (hdefs : IsName (file ++ ".meta")) : ∀ f ∈ storeFiles dir file store, Plain f.1 := by
  have hplain {n : String} (hn : IsName n) : Plain (dir ++ [n]) := by
    refine ⟨by simp, fun m hm => ?_⟩
    rcases List.mem_append.mp hm with hm | hm
    · exact hdir m hm
    · rwa [List.mem_singleton.mp hm]
  intro f hf
  rcases append_of_mem_storeFiles hf with h | h
  · exact h ▸ hplain hfile
  · exact h ▸ hplain hdefs

theorem nodup_storeFiles (dir : Path) (file : String) (store : Store) : ((storeFiles dir file store).map Prod.fst).Nodup := by
  have hne : file ≠ file ++ ".meta" := by
    intro h
    have := congrArg String.length h
    rw [String.length_append] at this
    exact absurd this (by have : ".meta".length = 5 := rfl; omega)
  rw [storeFiles]
  rcases store.defs with _ | defs
  · exact List.nodup_singleton _
  · simp [hne]

theorem plain_saved {inst : Instance} {scope : Scope} {stores : List (String × Store)} (h : Opens inst scope stores)
    (hnames : ∀ n ∈ names inst scope, IsName n) : ∀ f ∈ savedFiles inst scope stores, Plain f.1 := by
  have hhome : ∀ f ∈ homeFiles inst, Plain f.1 := by
    intro f hf
    rw [homeFiles, List.mem_cons, List.mem_append, List.mem_append] at hf
    rcases hf with rfl | hf | hf | hf
    · exact ⟨by simp, (by decide : ∀ n ∈ (["kiva.conf"] : Path), IsName n)⟩
    · exact plain_storeFiles (by decide) (by decide) (by decide) f hf
    · obtain ⟨log, -, rfl⟩ := List.mem_map.mp hf
      exact ⟨by simp, (by decide : ∀ n ∈ (["audit.log"] : Path), IsName n)⟩
    · obtain ⟨t, ht, rfl⟩ := List.mem_map.mp hf
      exact ⟨by simp, List.forall_mem_cons.mpr ⟨by decide, List.forall_mem_cons.mpr ⟨inst.tls_names t ht, by simp⟩⟩⟩
  intro f hf
  rcases List.mem_append.mp hf with hf | hf
  · obtain ⟨s, hs, hf⟩ := List.mem_flatMap.mp hf
    have hname := hnames s.1 (h.names ▸ List.mem_map_of_mem hs)
    exact plain_storeFiles (List.forall_mem_cons.mpr ⟨by decide, List.forall_mem_cons.mpr ⟨hname, by simp⟩⟩) (by decide)
      (by decide) f hf
  · split at hf
    · exact hhome f hf
    · exact nomatch hf

theorem nodup_workspaceFiles {stores : List (String × Store)} (h : (stores.map Prod.fst).Nodup) :
    ((workspaceFiles stores).map Prod.fst).Nodup := by
  rw [workspaceFiles, List.map_flatMap, List.nodup_flatMap]
  refine ⟨fun s _ => nodup_storeFiles _ _ _, ?_⟩
  refine (List.pairwise_map.mp h).imp fun {s t} hne p hs ht => ?_
  obtain ⟨f, hf, rfl⟩ := List.mem_map.mp hs
  obtain ⟨g, hg, heq⟩ := List.mem_map.mp ht
  have hg := second_of_mem_storeFiles hg
  rw [heq, second_of_mem_storeFiles hf] at hg
  exact hne (Option.some.inj hg)

theorem head_workspaceFiles {stores : List (String × Store)} : ∀ p ∈ (workspaceFiles stores).map Prod.fst,
    p.head? = some "workspaces" := by
  intro p hp
  obtain ⟨f, hf, rfl⟩ := List.mem_map.mp hp
  obtain ⟨s, -, hf⟩ := List.mem_flatMap.mp hf
  rcases append_of_mem_storeFiles hf with h | h <;> rw [h] <;> rfl

theorem head_homeFiles {inst : Instance} : ∀ p ∈ (homeFiles inst).map Prod.fst,
    p.head? ∈ [some "kiva.conf", some "system", some "audit.log", some "tls"] := by
  intro p hp
  obtain ⟨f, hf, rfl⟩ := List.mem_map.mp hp
  rw [homeFiles, List.mem_cons, List.mem_append, List.mem_append] at hf
  rcases hf with rfl | hf | hf | hf
  · simp
  · rcases append_of_mem_storeFiles hf with h | h <;> simp [h]
  · obtain ⟨_, -, rfl⟩ := List.mem_map.mp hf
    simp
  · obtain ⟨_, -, rfl⟩ := List.mem_map.mp hf
    simp

theorem nodup_homeFiles (inst : Instance) : ((homeFiles inst).map Prod.fst).Nodup := by
  have hsystem : ∀ p ∈ (storeFiles ["system"] "system.kiva" inst.system).map Prod.fst, p.head? = some "system" := by
    intro p hp
    obtain ⟨f, hf, rfl⟩ := List.mem_map.mp hp
    rcases append_of_mem_storeFiles hf with h | h <;> rw [h] <;> rfl
  have htls : ((inst.tls.map fun f => (["tls", f.1], f.2)).map Prod.fst : List Path).Nodup := by
    rw [List.map_map]
    have hinj : Function.Injective fun n : String => (["tls", n] : Path) := fun _ _ h => by simpa using h
    exact (List.map_map (f := Prod.fst) (g := fun n : String => (["tls", n] : Path)) ▸ inst.tls_nodup.map hinj :)
  have hlog : ((inst.auditLog.toList.map fun log => ((["audit.log"] : Path), log)).map Prod.fst).Nodup := by
    rcases inst.auditLog with _ | log <;> simp
  rw [homeFiles, List.map_cons, List.map_append, List.map_append, List.nodup_cons, List.nodup_append, List.nodup_append]
  refine ⟨?_, nodup_storeFiles _ _ _, ⟨hlog, htls, ?_⟩, ?_⟩
  · intro hmem
    rcases List.mem_append.mp hmem with hmem | hmem
    · exact absurd (hsystem _ hmem) (by simp)
    · simp at hmem
  · intro p hp q hq heq
    simp at hp hq
    obtain ⟨_, rfl⟩ := hp
    obtain ⟨_, _, rfl⟩ := hq
    exact absurd heq (by simp)
  · intro p hp q hq heq
    have hsys := hsystem p hp
    rw [heq] at hsys
    simp at hq
    rcases hq with ⟨_, rfl⟩ | ⟨_, _, rfl⟩
    · exact absurd hsys (by decide)
    · exact absurd hsys (by simp)

theorem nodup_saved {inst : Instance} {scope : Scope} {stores : List (String × Store)} (h : Opens inst scope stores)
    (hnames : (names inst scope).Nodup) : ((savedFiles inst scope stores).map Prod.fst).Nodup := by
  rw [savedFiles, List.map_append, List.nodup_append]
  refine ⟨nodup_workspaceFiles (h.names ▸ hnames), ?_, ?_⟩
  · split
    · exact nodup_homeFiles inst
    · exact List.nodup_nil
  · intro p hp q hq heq
    have hhead := head_workspaceFiles p hp
    rw [heq] at hhead
    split at hq
    · have hmem := head_homeFiles q hq
      rw [hhead] at hmem
      exact absurd hmem (by decide)
    · exact nomatch hq

theorem hexDigit_mem (n : Nat) : Crypt.hexDigit n ∈ "0123456789abcdef".toList := by
  unfold Crypt.hexDigit
  rw [List.getD_eq_getElem?_getD]
  rcases h : "0123456789abcdef".toList[n]? with _ | c
  · decide
  · exact List.mem_of_getElem? h

theorem mem_hex {b : Bytes} {c : Char} (h : c ∈ (hex b).toList) : c ∈ "0123456789abcdef".toList := by
  rw [hex, Crypt.idHex, String.toList_ofList, List.mem_flatMap] at h
  obtain ⟨x, -, hc⟩ := h
  rcases List.mem_cons.mp hc with rfl | hc
  · exact hexDigit_mem _
  · rw [List.mem_singleton.mp hc]
    exact hexDigit_mem _

theorem hex_toLower (b : Bytes) : (hex b).toLower = hex b := by
  have hlower : ∀ c ∈ "0123456789abcdef".toList, c.toLower = c := by simp
  exact toLower_eq_self fun c hc => hlower c (mem_hex hc)

theorem firstWord_hex {b : Bytes} (h : b ≠ []) (rest : String) : firstWord (hex b ++ "  " ++ rest) = hex b := by
  have hdark : ∀ c ∈ (hex b).toList, (!JsonPath.isWhitespace c) = true := by
    have hdigits : ∀ c ∈ "0123456789abcdef".toList, (!JsonPath.isWhitespace c) = true := List.all_eq_true.mp (by decide)
    exact fun c hc => hdigits c (mem_hex hc)
  have hfirst : (hex b ++ "  " ++ rest).toList.dropWhile JsonPath.isWhitespace = (hex b).toList ++ (' ' :: ' ' :: rest.toList) := by
    obtain ⟨x, xs, rfl⟩ := List.exists_cons_of_ne_nil h
    have hx := hdark (Crypt.hexDigit (x.toNat / 16)) (by rw [hex, Crypt.idHex, String.toList_ofList]; simp)
    rw [String.toList_append, String.toList_append, List.append_assoc, hex, Crypt.idHex, String.toList_ofList,
      List.flatMap_cons, List.append_assoc, List.cons_append, List.dropWhile_cons_of_neg (by simpa using hx)]
    rfl
  rw [firstWord, hfirst, List.takeWhile_append_of_pos hdark, List.takeWhile_cons_of_neg (by decide), List.append_nil,
    String.ofList_toList]

theorem put_new {α : Type} {files : List (Path × α)} {p : Path} (h : p ∉ files.map Prod.fst) (a : α) :
    put files p a = files ++ [(p, a)] := if_neg h

theorem lookup_of_nodup {α : Type} {files : List (Path × α)} (h : (files.map Prod.fst).Nodup) {f : Path × α}
    (hf : f ∈ files) : files.lookup f.1 = some f.2 := by
  induction files with
  | nil => exact nomatch hf
  | cons g files ih =>
      rw [List.map_cons, List.nodup_cons] at h
      rcases List.mem_cons.mp hf with rfl | hf
      · exact List.lookup_cons_self
      · have hne : f.1 ≠ g.1 := fun heq => h.1 (heq ▸ List.mem_map_of_mem hf)
        rw [List.lookup_cons, beq_false_of_ne hne]
        exact ih h.2 hf

theorem nameOf_snoc {dir : Path} (h : dir ≠ []) (file : String) : nameOf dir ++ "/" ++ file = nameOf (dir ++ [file]) := by
  obtain ⟨n, q, rfl⟩ := List.exists_cons_of_ne_nil h
  clear h
  induction q generalizing n with
  | nil => rw [List.cons_append, List.nil_append, nameOf, nameOf, String.intercalate_cons_cons,
      String.intercalate_singleton, String.intercalate_singleton]
  | cons m q ih =>
      have hm := ih m
      rw [nameOf, nameOf, List.cons_append] at hm
      rw [List.cons_append, List.cons_append, nameOf, nameOf, String.intercalate_cons_cons, String.intercalate_cons_cons,
        ← hm, String.append_assoc, String.append_assoc, String.append_assoc, String.append_assoc, String.append_assoc]

def IsKiva (p : Path) : Prop := ".kiva".toList <:+ (nameOf p).toList

theorem suffix_after {l a b : List Char} (h : '/' ∉ l) : l <:+ a ++ '/' :: b ↔ l <:+ b := by
  constructor
  · intro hl
    rcases List.suffix_or_suffix_of_suffix hl (List.suffix_append a ('/' :: b)) with hs | hs
    · rcases List.suffix_cons_iff.mp hs with rfl | hs
      · exact absurd List.mem_cons_self h
      · exact hs
    · exact absurd (hs.subset List.mem_cons_self) h
  · exact fun hl => hl.trans ((List.suffix_cons _ _).trans (List.suffix_append _ _))

theorem isKiva_snoc {dir : Path} (h : dir ≠ []) (file : String) : IsKiva (dir ++ [file]) ↔ ".kiva".toList <:+ file.toList := by
  rw [IsKiva, ← nameOf_snoc h, String.toList_append, String.toList_append, List.append_assoc]
  exact suffix_after (by decide)

section

variable [Archives]

def rooted (f : Path × Bytes) : String × Bytes := (s!"{root}/{nameOf f.1}", f.2)

def described (f : Path × Bytes) : Json := describe (nameOf f.1, f.2)

/-- What has been written so far. -/
structure Holds (w : Writer) (files : List (Path × Bytes)) : Prop where
  tar : w.tar = files.map rooted
  files : w.files = files.map described

variable {w : Writer} {files : List (Path × Bytes)} {inst : Instance} {scope : Scope}

theorem Holds.add (h : Holds w files) {name : String} {p : Path} (hp : name = nameOf p) (data : Bytes) :
    Holds (w.add name data) (files ++ [(p, data)]) := by
  constructor
  · rw [Writer.add, h.tar, List.map_append, hp]
    rfl
  · rw [Writer.add, h.files, List.map_append, hp]
    rfl

theorem Holds.addEngine (h : Holds w files) {name : String} {dir : Path} (hne : dir ≠ []) (hdir : name = nameOf dir)
    (file : String) (store : Store) : Holds (w.addEngine name file store) (files ++ storeFiles dir file store) := by
  have hfile (file : String) : s!"{name}/{file}" = nameOf (dir ++ [file]) := hdir ▸ nameOf_snoc hne file
  have hdefs : s!"{name}/{file}.meta" = nameOf (dir ++ [file ++ ".meta"]) := by
    rw [← nameOf_snoc hne, ← hdir, ← String.append_assoc]
    rfl
  obtain ⟨⟨id, format⟩, hopened⟩ := store.opened
  have hdata : Holds { w.add s!"{name}/{file}" store.data with
      storageFormat := max (w.add s!"{name}/{file}" store.data).storageFormat format } (files ++ [(dir ++ [file], store.data)]) :=
    ⟨(h.add (hfile file) _).tar, (h.add (hfile file) _).files⟩
  unfold Writer.addEngine
  rw [hopened]
  dsimp only
  rcases hsome : store.defs with _ | defs
  · rw [storeFiles, hsome]
    exact hdata
  · rw [storeFiles, hsome]
    have hboth := hdata.add hdefs defs
    rw [List.append_assoc] at hboth
    exact hboth

theorem Holds.addEngines {names : List String} {w' : Writer} (h : Holds w files)
    (hok : Writer.addEngines inst names w = .ok w') : ∃ stores : List (String × Store), stores.map Prod.fst = names ∧
      (∀ s ∈ stores, inst.engine s.1 = .ok s.2) ∧ Holds w' (files ++ workspaceFiles stores) := by
  induction names generalizing w files with
  | nil =>
      cases Except.ok.inj hok
      exact ⟨[], rfl, nofun, by rwa [workspaceFiles, List.flatMap_nil, List.append_nil]⟩
  | cons n names ih =>
      have hne : (["workspaces", n] : Path) ≠ [] := List.cons_ne_nil _ _
      have hdir : s!"workspaces/{n}" = nameOf ["workspaces", n] := rfl
      obtain ⟨store, hstore, hok⟩ := except_bind_ok.mp hok
      obtain ⟨stores, rfl, hopened, hholds⟩ := ih (h.addEngine hne hdir "store.kiva" store) hok
      refine ⟨(n, store) :: stores, rfl, List.forall_mem_cons.mpr ⟨hstore, hopened⟩, ?_⟩
      rwa [workspaceFiles, List.flatMap_cons, ← List.append_assoc]

theorem Holds.addHome (h : Holds w files) (inst : Instance) : Holds (w.addHome inst) (files ++ homeFiles inst) := by
  have htls (fs : List (String × Bytes)) : ∀ {w files}, Holds w files →
      Holds (fs.foldl (fun w f => w.add s!"tls/{f.1}" f.2) w) (files ++ fs.map fun f => (["tls", f.1], f.2)) := by
    induction fs with
    | nil => exact fun h => by rwa [List.map_nil, List.append_nil]
    | cons f fs ih =>
        intro w files h
        have := ih (h.add (p := ["tls", f.1]) rfl f.2)
        rwa [List.append_assoc] at this
  have hname : "kiva.conf" = nameOf ["kiva.conf"] := rfl
  have hdir : "system" = nameOf ["system"] := rfl
  have hconf := h.add hname inst.conf
  have hsystem := hconf.addEngine (List.cons_ne_nil _ _) hdir "system.kiva" inst.system
  obtain ⟨_, conf, _, system, log, tls, _, _, _, _⟩ := inst
  cases log with
  | none =>
      have hfiles := htls tls hsystem
      rw [List.append_assoc, List.append_assoc] at hfiles
      exact hfiles
  | some log =>
      have hfiles := htls tls (hsystem.add (p := ["audit.log"]) rfl log)
      rw [List.append_assoc, List.append_assoc, List.append_assoc] at hfiles
      exact hfiles

theorem saved_ok (h : saved inst scope = .ok w) :
    ∃ stores, Opens inst scope stores ∧ Holds w (savedFiles inst scope stores) := by
  obtain ⟨w', hw, h⟩ := except_bind_ok.mp h
  have hstart : Holds ⟨[], [], 0⟩ [] := ⟨rfl, rfl⟩
  obtain ⟨stores, hnames, hopened, hholds⟩ := hstart.addEngines hw
  refine ⟨stores, ⟨hnames, hopened⟩, ?_⟩
  cases Except.ok.inj h
  rw [savedFiles]
  split
  · exact hholds.addHome inst
  · rwa [List.append_nil]

end

end Backup

end KivaDb
