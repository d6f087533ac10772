import KivaDb.GroupCommit.Files

namespace KivaDb.GroupCommit

open Format Lib

/-- No reset fails after it has emptied the file, and no compaction fails to open
again the file it could not replace. -/
def Event.whole : Event → Bool
  | .reset _ cut => !cut
  | .swap .stranded => false
  | _ => true

/-- A compaction that replaced the file `f`: its file is on disk, as is, when it
could be synced, the part of `f` that its view was taken of. -/
structure Swap.Done (synced : Nat → Nat) (f : Nat) (x : Swap) : Prop where
  keeps : ∀ p ∈ x.old, x.Keeps p
  onDisk : x.len ≤ synced x.copy.id
  before : x.copy.view.synced = true → x.copy.view.snapLen ≤ synced f

theorem Swap.Done.mono {synced synced' : Nat → Nat} {f : Nat} {x : Swap} (h : x.Done synced f)
    (hs : ∀ f, synced f ≤ synced' f) : x.Done synced' f :=
  ⟨h.keeps, h.onDisk.trans (hs _), fun hb => (h.before hb).trans (hs _)⟩

namespace State

variable {s s' : State}

/-- What is true of a view. -/
def Frozen (s : State) (v : View) : Prop :=
  v.oldId ∈ s.used ∧ (v.oldId = s.fileId → Seen v s.recs s.fileLen s.index) ∧
    (v.synced = true → v.snapLen ≤ s.synced v.oldId)

/-- What is true of a copy. -/
def Copied (s : State) (c : Copy) : Prop :=
  c.Made ∧ c.id ∈ s.used ∧ c.id ≠ s.fileId ∧ s.fate c.id = none ∧ c.node ≠ s.path ∧ c.node < s.nextNode

/-- What is true of a compaction under way. -/
def Compacting (s : State) : Compaction → Prop
  | .off | .swapped => True
  | .frozen v => s.Frozen v
  | .copied c | .held c => s.Frozen c.view ∧ s.Copied c

theorem Compacting.imp {x : Compaction} (h : s.Compacting x) (hv : ∀ v, s.Frozen v → s'.Frozen v)
    (hc : ∀ c, s.Copied c → s'.Copied c) : s'.Compacting x := by
  cases x with
  | off | swapped => trivial
  | frozen v => exact hv v h
  | copied c | held c => exact ⟨hv c.view h.1, hc c h.2⟩

/-- What is true of the files. -/
structure Filed (s : State) : Prop where
  handle : s.handle = s.path
  id : (s.nodes s.path).id = s.fileId
  len : (s.nodes s.path).len = s.fileLen
  node : s.path < s.nextNode
  given : s.fileId ∈ s.used
  gone : ∀ f x, s.fate f = some x → f ∈ s.used
  now : s.fate s.fileId = none
  sound : Sound s.recs s.fileLen s.stamps s.index
  cached : ∀ id node, s.syncFile = some (id, node) → id ∈ s.used ∧ (id = s.fileId → node = s.path)
  compacting : s.Compacting s.compaction
  swaps : ∀ f x, s.fate f = some (.compacted x) → x.Done s.synced f

/-- How a step leaves what writers wait for: the file has grown, or was replaced. -/
structure Later (s s' : State) : Prop where
  synced : ∀ f, s.synced f ≤ s'.synced f
  fate : ∀ f x, s.fate f = some x → s'.fate f = some x
  file : (s'.fileId = s.fileId ∧ s'.path = s.path ∧ s.fileLen ≤ s'.fileLen ∧ (∀ p ∈ s.recs, p ∈ s'.recs) ∧
      ∀ v, s'.compaction.view? = some v → s.compaction.view? = some v ∨ v.snapLen = s.fileLen) ∨
    s'.fate s.fileId = some .reset ∨
    ∃ x, s'.fate s.fileId = some (.compacted x) ∧ x.old = s.recs ∧ s.compaction.view? = some x.copy.view ∧
      x.copy.view.oldId = s.fileId

theorem le_fsync (s : State) (node f : Nat) : s.synced f ≤ s.fsync node f := by
  rw [fsync]
  split
  · exact Nat.le_max_left _ _
  · exact le_rfl

/-- A step that leaves the files as they are. -/
theorem Later.still (hf : s'.fileId = s.fileId) (hp : s'.path = s.path) (hl : s'.fileLen = s.fileLen)
    (hr : s'.recs = s.recs) (hfate : s'.fate = s.fate) (hs : ∀ f, s.synced f ≤ s'.synced f)
    (hv : ∀ v, s'.compaction.view? = some v → s.compaction.view? = some v ∨ v.snapLen = s.fileLen) : s.Later s' :=
  ⟨hs, fun f x h => by rw [hfate]; exact h, .inl ⟨hf, hp, hl.ge, fun p hp => hr ▸ hp, hv⟩⟩

theorem Filed.synced (h : s.Filed) {synced : Nat → Nat} (hs : ∀ f, s.synced f ≤ synced f) :
    Filed { s with synced } :=
  ⟨h.handle, h.id, h.len, h.node, h.given, h.gone, h.now, h.sound, h.cached,
    h.compacting.imp (fun _ hv => ⟨hv.1, hv.2.1, fun hb => (hv.2.2 hb).trans (hs _)⟩) fun _ hc => hc,
    fun f x hx => (h.swaps f x hx).mono hs⟩

theorem Filed.writers (h : s.Filed) {durable : Durable} {writers : Nat → Writer} :
    Filed { s with durable, writers } :=
  ⟨h.handle, h.id, h.len, h.node, h.given, h.gone, h.now, h.sound, h.cached, h.compacting, h.swaps⟩

theorem recs_setNode_ne {node : Nat} {file : DataFile} (hne : s.path ≠ node) :
    (s.setNode node file s.path) = s.nodes s.path := if_neg hne

theorem Filed.write (h : s.Filed) (w : Nat) (ops : List (String × Bool × Nat)) (syncWrites : Bool) :
    (s.write w ops syncWrites).Filed ∧ s.Later (s.write w ops syncWrites) := by
  have hnode : (s.write w ops syncWrites).nodes s.path =
      { s.nodes s.path with
        recs := s.recs ++ place s.fileLen s.stamps ops
        len := s.fileLen + lengthOf (place s.fileLen s.stamps ops) } := by
    show s.setNode s.handle _ s.path = _
    rw [h.handle, setNode, if_pos rfl]
    rfl
  have hrecs : (s.write w ops syncWrites).recs = s.recs ++ place s.fileLen s.stamps ops := by
    show ((s.write w ops syncWrites).nodes s.path).recs = _
    rw [hnode]
  have hfrozen : ∀ v, s.Frozen v → (s.write w ops syncWrites).Frozen v := by
    rintro v ⟨hu, hseen, hsync⟩
    refine ⟨hu, fun hid => ?_, hsync⟩
    rw [hrecs]
    exact (hseen hid).append h.sound ops
  refine ⟨⟨h.handle, ?_, ?_, h.node, h.given, h.gone, h.now, ?_, h.cached, h.compacting.imp hfrozen fun _ hc => hc, h.swaps⟩,
    fun f => le_rfl, fun f x hx => hx, .inl ⟨rfl, rfl, Nat.le_add_right _ _, fun p hp => ?_, fun v hv => .inl hv⟩⟩
  · show ((s.write w ops syncWrites).nodes s.path).id = _
    rw [hnode]
    exact h.id
  · show ((s.write w ops syncWrites).nodes s.path).len = _
    rw [hnode]
    rfl
  · rw [hrecs]
    exact h.sound.append ops
  · rw [hrecs]
    exact List.mem_append_left _ hp

/-- An index that names less. -/
theorem Filed.fewer (h : s.Filed) {index : Index}
    (hsub : ∀ (k : String) (p : Nat × Rec), index[k]? = some p → s.index[k]? = some p) : Filed { s with index } :=
  ⟨h.handle, h.id, h.len, h.node, h.given, h.gone, h.now, h.sound.fewer hsub, h.cached,
    h.compacting.imp (fun _ hv => ⟨hv.1, fun hid => (hv.2.1 hid).fewer hsub, hv.2.2⟩) fun _ hc => hc, h.swaps⟩

theorem Filed.lead (h : s.Filed) (w : Nat) (mark : Mark) (opens : Bool) :
    (s.lead w mark opens).Filed ∧ s.Later (s.lead w mark opens) := by
  have hopened : (lead.opened s w mark opens).Filed ∧ s.Later (lead.opened s w mark opens) ∨ s.fileId ≠ mark.fileId := by
    by_cases hid : s.fileId = mark.fileId
    · left
      rw [lead.opened]
      split
      · refine ⟨⟨h.handle, h.id, h.len, h.node, h.given, h.gone, h.now, h.sound, fun id node hn => ?_, h.compacting, h.swaps⟩,
          .still rfl rfl rfl rfl rfl (fun _ => le_rfl) fun _ hv => .inl hv⟩
        cases hn
        exact ⟨hid ▸ h.given, fun _ => rfl⟩
      · exact ⟨h.writers, .still rfl rfl rfl rfl rfl (fun _ => le_rfl) fun _ hv => .inl hv⟩
    · exact .inr hid
  rw [State.lead]
  split
  · exact ⟨h.writers, .still rfl rfl rfl rfl rfl (fun _ => le_rfl) fun _ hv => .inl hv⟩
  · rename_i hid
    split
    · split
      · exact ⟨h.writers, .still rfl rfl rfl rfl rfl (fun _ => le_rfl) fun _ hv => .inl hv⟩
      · exact hopened.resolve_right hid
    · exact hopened.resolve_right hid

theorem Filed.reset (h : s.Filed) {id : Nat} (hid : id ∉ s.used) :
    (s.reset id false).Filed ∧ s.Later (s.reset id false) := by
  have hne : id ≠ s.fileId := fun heq => hid (heq ▸ h.given)
  have hnode : (s.reset id false).nodes s.path = ⟨id, [], fileHeaderLen⟩ := by
    show s.setNode s.handle _ s.path = _
    rw [h.handle, setNode, if_pos rfl]
  have hfate : ∀ f, f ≠ s.fileId → (s.reset id false).fate f = s.fate f := fun f hf => if_neg hf
  have hold : (s.reset id false).fate s.fileId = some .reset := if_pos rfl
  have hsynced : ∀ f, s.synced f ≤ (s.reset id false).synced f := 
    fun f => le_fsync { s with nodes := s.setNode s.handle ⟨id, [], fileHeaderLen⟩, used := id :: s.used } s.handle f
  have hused : ∀ f ∈ s.used, f ∈ (s.reset id false).used := fun f hf => List.mem_cons_of_mem _ hf
  have hfrozen : ∀ v, s.Frozen v → (s.reset id false).Frozen v := by
    rintro v ⟨hu, -, hsync⟩
    refine ⟨hused _ hu, fun heq => ?_, fun hb => (hsync hb).trans (hsynced _)⟩
    have heq : v.oldId = id := heq
    exact absurd (heq ▸ hu) hid
  have hcopied : ∀ c, s.Copied c → (s.reset id false).Copied c := by
    rintro c ⟨hmade, hu, hcid, hcf, hnode⟩
    refine ⟨hmade, hused _ hu, fun heq => ?_, (hfate c.id hcid).trans hcf, hnode⟩
    have heq : c.id = id := heq
    exact hid (heq ▸ hu)
  refine ⟨⟨h.handle, ?_, ?_, h.node, List.mem_cons_self, fun f x hx => ?_, ?_, ?_, fun cid node hn => ?_,
    h.compacting.imp hfrozen hcopied, fun f x hx => ?_⟩, hsynced, fun f x hx => ?_, .inr (.inl hold)⟩
  · show ((s.reset id false).nodes s.path).id = id
    rw [hnode]
  · show ((s.reset id false).nodes s.path).len = fileHeaderLen
    rw [hnode]
  · by_cases hf : f = s.fileId
    · exact hused _ (hf ▸ h.given)
    · rw [hfate f hf] at hx
      exact hused _ (h.gone f x hx)
  · show (s.reset id false).fate id = none
    rw [hfate id hne]
    cases hx : s.fate id with
    | none => rfl
    | some x => exact absurd (h.gone id x hx) hid
  · have hrecs : (s.reset id false).recs = [] := by
      show ((s.reset id false).nodes s.path).recs = []
      rw [hnode]
    rw [hrecs]
    refine ⟨nofun, fun k p hk => ?_⟩
    have hk : (∅ : Index)[k]? = some p := hk
    simp at hk
  · obtain ⟨hu, -⟩ := h.cached cid node hn
    refine ⟨hused _ hu, fun heq => ?_⟩
    have heq : cid = id := heq
    exact absurd (heq ▸ hu) hid
  · by_cases hf : f = s.fileId
    · rw [hf, hold] at hx
      cases hx
    · rw [hfate f hf] at hx
      exact (h.swaps f x hx).mono hsynced
  · by_cases hf : f = s.fileId
    · rw [hf, h.now] at hx
      cases hx
    · rw [hfate f hf]
      exact hx

theorem Filed.freeze (h : s.Filed) (expired : List String) (synced : Bool) :
    (s.freeze expired synced).Filed ∧ s.Later (s.freeze expired synced) := by
  have hs : ∀ f, s.synced f ≤ (s.freeze expired synced).synced f := by
    intro f
    show s.synced f ≤ (if synced then s.fsync s.handle else s.synced) f
    split
    · exact le_fsync s _ f
    · exact le_rfl
  have hfew : Filed { s with index := expired.foldl (fun i k => i.erase k) s.index } :=
    h.fewer fun k p hk => getElem?_of_eraseAll hk
  have hall := hfew.synced hs
  refine ⟨⟨hall.handle, hall.id, hall.len, hall.node, hall.given, hall.gone, hall.now, hall.sound, hall.cached, ?_,
    hall.swaps⟩, .still rfl rfl rfl rfl rfl hs fun v hv => ?_⟩
  · refine ⟨h.given, fun _ => hall.sound.freeze _ _, fun hb => ?_⟩
    have hb : synced = true := hb
    show s.fileLen ≤ (if synced then s.fsync s.handle else s.synced) s.fileId
    rw [if_pos hb, State.fsync, h.handle, if_pos h.id.symm, h.len]
    exact Nat.le_max_right _ _
  · obtain rfl := Option.some.inj hv
    exact .inr rfl

theorem Filed.copy (h : s.Filed) {view : View} (hc : s.compaction = .frozen view) {id : Nat} (hid : id ∉ s.used)
    (sizes : String → Option Nat) : (s.copy view id sizes).Filed ∧ s.Later (s.copy view id sizes) := by
  have hview : s.Frozen view := by
    have := h.compacting
    rwa [hc] at this
  have hne : s.path ≠ s.nextNode := h.node.ne
  have hpath : (s.copy view id sizes).nodes s.path = s.nodes s.path := recs_setNode_ne hne
  have hrecs : (s.copy view id sizes).recs = s.recs := congrArg DataFile.recs hpath
  have hused : ∀ f ∈ s.used, f ∈ (s.copy view id sizes).used := fun f hf => List.mem_cons_of_mem _ hf
  refine ⟨⟨h.handle, ?_, ?_, Nat.lt_succ_of_lt h.node, hused _ h.given, fun f x hx => hused _ (h.gone f x hx), h.now, ?_,
    fun cid node hn => ⟨hused _ (h.cached cid node hn).1, (h.cached cid node hn).2⟩, ?_, h.swaps⟩,
    .still rfl rfl rfl hrecs rfl (fun f => le_rfl) fun v hv => .inl ?_⟩
  · exact (congrArg DataFile.id hpath).trans h.id
  · exact (congrArg DataFile.len hpath).trans h.len
  · rw [hrecs]
    exact h.sound
  · refine ⟨⟨hused _ hview.1, fun heq => ?_, hview.2.2⟩, rfl, List.mem_cons_self, fun heq => ?_, ?_, hne.symm,
      Nat.lt_succ_self _⟩
    · rw [hrecs]
      exact hview.2.1 heq
    · have heq : id = s.fileId := heq
      exact hid (heq ▸ h.given)
    · show s.fate id = none
      cases hx : s.fate id with
      | none => rfl
      | some x => exact absurd (h.gone id x hx) hid
  · rw [hc]
    exact hv

theorem Filed.replace (h : s.Filed) {c : Copy} (hid : c.view.oldId = s.fileId) (hv : s.Frozen c.view) (hc : s.Copied c)
    (hcached : s.syncFile = none) (hcomp : s.compaction = .swapped) :
    (s.replace c).Filed ∧ (∀ f, s.synced f ≤ (s.replace c).synced f) ∧
      (∀ f x, s.fate f = some x → (s.replace c).fate f = some x) ∧
      (s.replace c).fate s.fileId =
        some (.compacted ⟨c, s.recs, c.records s.recs, c.pos + (s.fileLen - c.view.snapLen)⟩) := by
  obtain ⟨hmade, hu, hcid, hcf, -, hnext⟩ := hc
  have hseen := hv.2.1 hid
  have hrecs : (s.nodes s.handle).recs = s.recs := by rw [h.handle, recs]
  have hfate : ∀ f, f ≠ s.fileId → (s.replace c).fate f = s.fate f := fun f hf => if_neg hf
  have hold : (s.replace c).fate s.fileId =
      some (.compacted ⟨c, s.recs, c.records s.recs, c.pos + (s.fileLen - c.view.snapLen)⟩) := by
    rw [← hrecs]
    exact if_pos rfl
  have hfile : (s.replace c).nodes c.node = ⟨c.id, c.records s.recs, c.pos + (s.fileLen - c.view.snapLen)⟩ := by
    rw [← hrecs]
    exact if_pos rfl
  have hsynced : ∀ f, s.synced f ≤ (s.replace c).synced f := by
    intro f
    simp only [State.replace]
    split
    · exact Nat.le_max_left _ _
    · exact le_rfl
  have hcached' : (s.replace c).syncFile = none := hcached
  have hcomp' : (s.replace c).compaction = .swapped := hcomp
  refine ⟨⟨rfl, congrArg DataFile.id hfile, congrArg DataFile.len hfile, hnext, hu, fun f x hx => ?_, ?_, ?_,
    fun id node hn => ?_, ?_, fun f x hx => ?_⟩, hsynced, fun f x hx => ?_, hold⟩
  · by_cases hf : f = s.fileId
    · exact hf ▸ h.given
    · rw [hfate f hf] at hx
      exact h.gone f x hx
  · exact (hfate c.id hcid).trans hcf
  · have hnewrecs : (s.replace c).recs = c.records s.recs := congrArg DataFile.recs hfile
    rw [hnewrecs]
    exact h.sound.swap hseen hmade
  · rw [hcached'] at hn
    cases hn
  · rw [hcomp']
    trivial
  · by_cases hf : f = s.fileId
    · subst hf
      rw [hold] at hx
      cases hx
      refine ⟨fun p hp => hseen.keeps hmade hp, ?_, fun hb => ?_⟩
      · simp only [State.replace, if_true]
        exact Nat.le_max_right _ _
      · exact (hid ▸ hv.2.2 hb : c.view.snapLen ≤ s.synced s.fileId).trans (hsynced _)
    · rw [hfate f hf] at hx
      exact (h.swaps f x hx).mono hsynced
  · by_cases hf : f = s.fileId
    · rw [hf, h.now] at hx
      cases hx
    · rw [hfate f hf]
      exact hx

theorem Filed.swap (h : s.Filed) {c : Copy} (hc : s.compaction = .held c) {outcome : Outcome} (ho : outcome ≠ .stranded) :
    (s.swap c outcome).Filed ∧ s.Later (s.swap c outcome) := by
  have hin := h.compacting
  rw [hc] at hin
  have hstill : Filed { s with syncFile := none, compaction := .swapped } :=
    ⟨h.handle, h.id, h.len, h.node, h.given, h.gone, h.now, h.sound, nofun, trivial, h.swaps⟩
  have hlater : s.Later { s with syncFile := none, compaction := .swapped } :=
    .still rfl rfl rfl rfl rfl (fun f => le_rfl) nofun
  by_cases hid : s.fileId = c.view.oldId
  · cases outcome with
    | stranded => exact absurd rfl ho
    | failed =>
        simp only [State.swap, hid, ne_eq, not_true_eq_false, if_false]
        exact hid ▸ ⟨hstill, hlater⟩
    | done =>
        obtain ⟨hf, hsynced, hfate, hold⟩ := hstill.replace hid.symm hin.1 hin.2 rfl rfl
        have heq : s.swap c .done = State.replace { s with syncFile := none, compaction := .swapped } c := by
          simp [State.swap, hid]
        rw [heq]
        exact ⟨hf, hsynced, hfate, .inr (.inr ⟨_, hold, rfl, by rw [hc]; rfl, hid.symm⟩)⟩
  · simp only [State.swap, ne_eq, hid, not_false_eq_true, if_true]
    exact ⟨hstill, hlater⟩

end State

namespace Write

/-- No record of the write is on the other side of the view. -/
def Beside (x : Write) (v : View) : Prop := x.mark.ends ≤ v.snapLen ∨ ∀ p ∈ x.recs, v.snapLen ≤ p.1

/-- The file of the write was replaced. -/
def Over (x : Write) (s : State) : Prop :=
  s.fate x.mark.fileId = some .reset ∨
    ∃ c, s.fate x.mark.fileId = some (.compacted c) ∧ (∀ p ∈ x.recs, p ∈ c.old) ∧ x.Beside c.copy.view

/-- The write is in the file, or its file was replaced. -/
def Owed (x : Write) (s : State) : Prop :=
  (x.mark.fileId = s.fileId ∧ x.mark.ends ≤ s.fileLen ∧ (∀ p ∈ x.recs, p ∈ s.recs) ∧
    ∀ v, s.compaction.view? = some v → v.oldId = s.fileId → x.Beside v) ∨ x.Over s

/-- The write is on disk, or its file was replaced. -/
def Safe (x : Write) (s : State) : Prop := x.mark.ends ≤ s.synced x.mark.fileId ∨ x.Over s

variable {x : Write} {s s' : State}

theorem Over.later (h : x.Over s) (hl : s.Later s') : x.Over s' := by
  rcases h with h | ⟨c, h, hc⟩
  · exact .inl (hl.fate _ _ h)
  · exact .inr ⟨c, hl.fate _ _ h, hc⟩

theorem Over.gone (h : x.Over s) : s.fate x.mark.fileId ≠ none := by
  rcases h with h | ⟨c, h, -⟩
  · simp [h]
  · simp [h]

theorem Safe.later (h : x.Safe s) (hl : s.Later s') : x.Safe s' :=
  h.imp (fun h => h.trans (hl.synced _)) (Over.later · hl)

theorem Owed.later (h : x.Owed s) (hl : s.Later s') : x.Owed s' := by
  rcases h with ⟨hid, hends, hrecs, hview⟩ | h
  · rcases hl.file with ⟨hid', -, hlen, hsub, hviews⟩ | hreset | ⟨c, hc, hold, hv, hfrom⟩
    · refine .inl ⟨hid.trans hid'.symm, hends.trans hlen, fun p hp => hsub p (hrecs p hp), fun v hv hold => ?_⟩
      rcases hviews v hv with hv | hsnap
      · exact hview v hv (hold.trans hid')
      · exact .inl (hsnap ▸ hends)
    · exact .inr (.inl (hid ▸ hreset))
    · refine .inr (.inr ⟨c, hid ▸ hc, fun p hp => ?_, hview _ hv hfrom⟩)
      rw [hold]
      exact hrecs p hp
  · exact .inr (h.later hl)

/-- What is in a file that was replaced is in one that was replaced. -/
theorem Owed.over (h : x.Owed s) (hs : s.Filed) (hg : s.fate x.mark.fileId ≠ none) : x.Over s := by
  rcases h with ⟨hid, -⟩ | h
  · rw [hid] at hg
    exact absurd hs.now hg
  · exact h

end Write

namespace State

variable {s s' : State}

/-- What is true of a writer at each stage, `last` being the mark of its last
write. -/
def Staged (s : State) (last : Option Mark) : Stage → Prop
  | .idle => True
  | .asking m | .leading m => last = some m
  | .flushing m node len => last = some m ∧ m.ends ≤ len ∧
      (s.fate m.fileId ≠ none ∨ m.fileId = s.fileId ∧ node = s.path ∧ len ≤ s.fileLen)
  | .flushed m (some (some len)) => last = some m ∧ m.ends ≤ len ∧ (s.fate m.fileId ≠ none ∨ len ≤ s.synced m.fileId)
  | .flushed m (some none) => last = some m ∧ s.fate m.fileId ≠ none
  | .flushed _ none | .answered _ => True

/-- What is true of a writer. -/
structure Waits (s : State) (w : Writer) : Prop where
  owed : ∀ x ∈ w.putOff, x.Owed s
  order : ∀ m, w.putOff.getLast?.map Write.mark = some m → ∀ x ∈ w.putOff,
    x.mark.fileId = m.fileId ∧ x.mark.ends ≤ m.ends ∨ x.Over s
  stage : s.Staged (w.putOff.getLast?.map Write.mark) w.stage
  safe : w.stage = .answered true → ∀ x ∈ w.putOff, x.Safe s

theorem Later.gone (h : s.Later s') {f : Nat} (hf : s.fate f ≠ none) : s'.fate f ≠ none := by
  obtain ⟨x, hx⟩ := Option.ne_none_iff_exists'.mp hf
  simp [h.fate f x hx]

theorem Staged.later {last : Option Mark} {stage : Stage} (h : s.Staged last stage) (hl : s.Later s') :
    s'.Staged last stage := by
  cases stage with
  | idle | answered => trivial
  | asking m | leading m => exact h
  | flushing m node len =>
      obtain ⟨hm, hle, h⟩ := h
      refine ⟨hm, hle, ?_⟩
      rcases h with h | ⟨hid, hnode, hlen⟩
      · exact .inl (hl.gone h)
      · rcases hl.file with ⟨hid', hpath, hlen', -⟩ | hreset | ⟨c, hc, -⟩
        · exact .inr ⟨hid.trans hid'.symm, hnode.trans hpath.symm, hlen.trans hlen'⟩
        · exact .inl (by simp [hid, hreset])
        · exact .inl (by simp [hid, hc])
  | flushed m result =>
      cases result with
      | none => trivial
      | some result =>
          cases result with
          | none => exact ⟨h.1, hl.gone h.2⟩
          | some len => exact ⟨h.1, h.2.1, h.2.2.imp hl.gone fun hle => hle.trans (hl.synced _)⟩

theorem Waits.later {w : Writer} (h : s.Waits w) (hl : s.Later s') : s'.Waits w :=
  ⟨fun x hx => (h.owed x hx).later hl, fun m hm x hx => (h.order m hm x hx).imp id (Write.Over.later · hl), h.stage.later hl,
    fun hs x hx => (h.safe hs x hx).later hl⟩

/-- What is true of the engine at any time. -/
structure Inv (s : State) : Prop where
  filed : s.Filed
  durable : s.durable.len ≤ s.synced s.durable.fileId ∨ s.fate s.durable.fileId ≠ none
  writers : ∀ w, s.Waits (s.writers w)

theorem Inv.durable_later (h : s.Inv) (hl : s.Later s') (hd : s'.durable.fileId = s.durable.fileId)
    (hlen : s'.durable.len = s.durable.len) :
    s'.durable.len ≤ s'.synced s'.durable.fileId ∨ s'.fate s'.durable.fileId ≠ none := by
  rw [hd, hlen]
  exact h.durable.imp (fun hle => hle.trans (hl.synced _)) hl.gone

/-- A step that leaves the writers and their record as they are. -/
theorem Inv.files (h : s.Inv) (hf : s'.Filed) (hl : s.Later s') (hd : s'.durable.fileId = s.durable.fileId)
    (hlen : s'.durable.len = s.durable.len) (hw : s'.writers = s.writers) : s'.Inv := by
  refine ⟨hf, h.durable_later hl hd hlen, fun w => ?_⟩
  rw [hw]
  exact (h.writers w).later hl

/-- A step of one writer. -/
theorem Inv.moves (h : s.Inv) (hf : s'.Filed) (hl : s.Later s') (w : Nat) (x : Writer)
    (hd : s'.durable.len ≤ s'.synced s'.durable.fileId ∨ s'.fate s'.durable.fileId ≠ none)
    (hw : s'.writers = s.setWriter w x) (hx : s'.Waits x) : s'.Inv := by
  refine ⟨hf, hd, fun v => ?_⟩
  rw [hw, setWriter]
  split
  · exact hx
  · exact (h.writers v).later hl

/-- A step that only takes a writer to its next stage. -/
theorem Waits.goesOn {w : Writer} (h : s.Waits w) (hl : s.Later s') {stage : Stage}
    (hst : s'.Staged (w.putOff.getLast?.map Write.mark) stage)
    (hsafe : stage = .answered true → ∀ x ∈ w.putOff, x.Safe s') : s'.Waits { w with stage } :=
  ⟨fun x hx => (h.owed x hx).later hl, fun m hm x hx => (h.order m hm x hx).imp id (Write.Over.later · hl), hst, hsafe⟩

/-- A writer whose last write is on disk, or in a file that was replaced, can be
answered. -/
theorem Waits.answers {w : Writer} (h : s.Waits w) (hf : s.Filed) {m : Mark}
    (hm : w.putOff.getLast?.map Write.mark = some m) (hs : m.ends ≤ s.synced m.fileId ∨ s.fate m.fileId ≠ none) :
    ∀ x ∈ w.putOff, x.Safe s := by
  intro x hx
  rcases h.order m hm x hx with ⟨hid, hle⟩ | hover
  · rcases hs with hs | hs
    · left
      rw [hid]
      exact hle.trans hs
    · right
      exact (h.owed x hx).over hf (hid ▸ hs)
  · exact .inr hover

theorem Compacting.frozen {x : Compaction} {v : View} (h : s.Compacting x) (hv : x.view? = some v) : s.Frozen v := by
  cases x with
  | off | swapped => cases hv
  | frozen u =>
      cases hv
      exact h
  | copied c | held c =>
      cases hv
      exact h.1

theorem le_of_mem_place {pos stamp : Nat} {ops : List (String × Bool × Nat)} {p : Nat × Rec}
    (h : p ∈ place pos stamp ops) : pos ≤ p.1 := by
  induction ops generalizing pos stamp with
  | nil => cases h
  | cons op ops ih =>
      obtain ⟨key, tombstone, body⟩ := op
      rcases List.mem_cons.mp h with rfl | h
      · exact le_rfl
      · exact (Nat.le_add_right _ _).trans (ih h)

theorem Inv.write (h : s.Inv) {w : Nat} (hidle : (s.writers w).stage = .idle) (ops : List (String × Bool × Nat))
    (syncWrites : Bool) : (s.write w ops syncWrites).Inv := by
  obtain ⟨hf, hl⟩ := h.filed.write w ops syncWrites
  have hold := (h.writers w).later hl
  refine h.moves hf hl w _ (h.durable_later hl rfl rfl) rfl ?_
  cases syncWrites with
  | false => exact ⟨hold.owed, hold.order, hold.stage, hold.safe⟩
  | true =>
      set placed := place s.fileLen s.stamps ops with hplaced
      set x : Write := ⟨⟨s.fileId, s.fileLen + lengthOf placed⟩, placed⟩ with hx
      have hin : ∀ p ∈ placed, p ∈ (s.write w ops true).recs := by
        intro p hp
        show p ∈ ((s.write w ops true).nodes s.path).recs
        simp only [State.write, setNode, h.filed.handle, if_true]
        exact List.mem_append_right _ hp
      have howed : x.Owed (s.write w ops true) := by
        refine .inl ⟨rfl, le_rfl, hin, fun v hv hid => .inr fun p hp => ?_⟩
        have hb := ((h.filed.compacting.frozen hv).2.1 hid).bound
        exact hb.trans (le_of_mem_place hp)
      refine ⟨fun y hy => ?_, fun m hm y hy => ?_, ?_, fun hs => ?_⟩
      · rcases List.mem_append.mp hy with hy | hy
        · exact hold.owed y hy
        · obtain rfl := List.mem_singleton.mp hy
          exact howed
      · obtain rfl : x.mark = m := by simpa using hm
        rcases List.mem_append.mp hy with hy | hy
        · rcases (h.writers w).owed y hy with ⟨hid, hends, -⟩ | hover
          · exact .inl ⟨hid, hends.trans (Nat.le_add_right _ _)⟩
          · exact .inr (hover.later hl)
        · obtain rfl := List.mem_singleton.mp hy
          exact .inl ⟨rfl, le_rfl⟩
      · show Staged _ _ (s.writers w).stage
        rw [hidle]
        trivial
      · have hs : (s.writers w).stage = .answered true := hs
        rw [hidle] at hs
        cases hs

theorem Inv.ask (h : s.Inv) {w : Nat} (hs : s.step (.ask w) = some s') : s'.Inv := by
  simp only [step] at hs
  split at hs
  · rename_i m hst
    have hwait := h.writers w
    have hlast : (s.writers w).putOff.getLast?.map Write.mark = some m := by
      have := hwait.stage
      rwa [hst] at this
    split at hs
    · rename_i hcov
      cases hs
      have hl : s.Later { s with writers := s.setStage w (.answered true) } :=
        .still rfl rfl rfl rfl rfl (fun _ => le_rfl) fun _ hv => .inl hv
      refine h.moves h.filed.writers hl w _ (h.durable_later hl rfl rfl) rfl (hwait.goesOn hl trivial fun _ x hx => ?_)
      refine (hwait.answers h.filed hlast ?_ x hx).later hl
      rw [← hcov.1]
      exact h.durable.imp hcov.2.trans id
    · split at hs
      · cases hs
      · cases hs
        have hl : s.Later
            { s with durable := { s.durable with syncing := true }, writers := s.setStage w (.leading m) } :=
          .still rfl rfl rfl rfl rfl (fun _ => le_rfl) fun _ hv => .inl hv
        exact h.moves h.filed.writers hl w _ (h.durable_later hl rfl rfl) rfl (hwait.goesOn hl hlast nofun)
  · cases hs

theorem Inv.lead (h : s.Inv) {w : Nat} {m : Mark} (hst : (s.writers w).stage = .leading m) (opens : Bool) :
    (s.lead w m opens).Inv := by
  obtain ⟨hf, hl⟩ := h.filed.lead w m opens
  have hwait := h.writers w
  have hlast : (s.writers w).putOff.getLast?.map Write.mark = some m := by
    have := hwait.stage
    rwa [hst] at this
  have hends : s.fileId = m.fileId → s.fate m.fileId ≠ none ∨ m.ends ≤ s.fileLen := by
    intro hid
    obtain ⟨x, hx, hmark⟩ := Option.map_eq_some_iff.mp hlast
    rcases hwait.owed x (List.mem_of_getLast? hx) with ⟨-, hle, -⟩ | hover
    · exact .inr (hmark ▸ hle)
    · exact .inl (hmark ▸ hover.gone)
  -- each outcome only changes the stage of the writer
  have hgo : ∀ stage, (s.lead w m opens).writers = s.setStage w stage → (s.lead w m opens).Staged (some m) stage →
      stage ≠ .answered true → (s.lead w m opens).durable = s.durable → (s.lead w m opens).Inv := by
    intro stage hw hstaged hne hd
    refine h.moves hf hl w _ (h.durable_later hl (by rw [hd]) (by rw [hd])) hw (hwait.goesOn hl (hlast ▸ hstaged) ?_)
    intro heq
    exact absurd heq hne
  have hflush : ∀ node len, s.fileId = m.fileId → node = s.path → len = s.fileLen →
      (s.lead w m opens).fate = s.fate → (s.lead w m opens).fileId = s.fileId → (s.lead w m opens).path = s.path →
      (s.lead w m opens).fileLen = s.fileLen → (s.lead w m opens).Staged (some m) (.flushing m node len) := by
    intro node len hid hnode hlen hfate hid' hpath hlen'
    have hle := (hends hid).resolve_left fun hgone => hgone (hid ▸ h.filed.now)
    exact ⟨rfl, hlen ▸ hle, .inr ⟨hid.symm.trans hid'.symm, hnode.trans hpath.symm, (hlen.trans hlen'.symm).le⟩⟩
  by_cases hid : s.fileId = m.fileId
  · cases hsf : s.syncFile with
    | none =>
        cases opens with
        | true =>
            refine hgo (.flushing m s.path s.fileLen) ?_ (hflush _ _ hid rfl rfl ?_ ?_ ?_ ?_) (by simp) ?_ <;>
              simp [State.lead, hid, hsf, lead.opened]
        | false =>
            refine hgo (.flushed m none) ?_ trivial (by simp) ?_ <;> simp [State.lead, hid, hsf, lead.opened]
    | some p =>
        obtain ⟨cid, node⟩ := p
        by_cases hcid : cid = m.fileId
        · have hnode := (h.filed.cached cid node hsf).2 (hcid.trans hid.symm)
          refine hgo (.flushing m node s.fileLen) ?_ (hflush _ _ hid hnode rfl ?_ ?_ ?_ ?_) (by simp) ?_ <;>
            simp [State.lead, hid, hsf, hcid]
        · cases opens with
          | true =>
              refine hgo (.flushing m s.path s.fileLen) ?_ (hflush _ _ hid rfl rfl ?_ ?_ ?_ ?_) (by simp) ?_ <;>
                simp [State.lead, hid, hsf, hcid, lead.opened]
          | false =>
              refine hgo (.flushed m none) ?_ trivial (by simp) ?_ <;> simp [State.lead, hid, hsf, hcid, lead.opened]
  · refine hgo (.flushed m (some none)) ?_ ⟨rfl, ?_⟩ (by simp) ?_
    · simp [State.lead, hid]
    · obtain ⟨x, hx, hmark⟩ := Option.map_eq_some_iff.mp hlast
      have hgone : s.fate m.fileId ≠ none := by
        rcases hwait.owed x (List.mem_of_getLast? hx) with ⟨hid', -⟩ | hover
        · exact absurd (hmark ▸ hid').symm hid
        · exact hmark ▸ hover.gone
      exact hl.gone hgone
    · simp [State.lead, hid]

theorem Inv.flush (h : s.Inv) {w : Nat} {ok : Bool} (hs : s.step (.flush w ok) = some s') : s'.Inv := by
  simp only [step] at hs
  split at hs
  · rename_i m node len hst
    have hwait := h.writers w
    obtain ⟨hlast, hle, hwhere⟩ : s.Staged ((s.writers w).putOff.getLast?.map Write.mark) (.flushing m node len) := by
      rw [← hst]
      exact hwait.stage
    split at hs
    · cases hs
      have hl : s.Later { s with synced := s.fsync node, writers := s.setStage w (.flushed m (some (some len))) } :=
        .still rfl rfl rfl rfl rfl (le_fsync s node) fun v hv => .inl hv
      refine h.moves (h.filed.synced (le_fsync s node)).writers hl w _ (h.durable_later hl rfl rfl) rfl
        (hwait.goesOn hl ⟨hlast, hle, ?_⟩ nofun)
      rcases hwhere with hgone | ⟨hid, hnode, hlen⟩
      · exact .inl hgone
      · right
        show len ≤ s.fsync node m.fileId
        rw [fsync, hnode, h.filed.id, if_pos hid, h.filed.len]
        exact hlen.trans (Nat.le_max_right _ _)
    · cases hs
      have hl : s.Later { s with writers := s.setStage w (.flushed m none) } :=
        .still rfl rfl rfl rfl rfl (fun _ => le_rfl) fun _ hv => .inl hv
      exact h.moves h.filed.writers hl w _ (h.durable_later hl rfl rfl) rfl (hwait.goesOn hl trivial nofun)
  · cases hs

theorem Inv.settle (h : s.Inv) {w : Nat} {m : Mark} {result : Option (Option Nat)}
    (hst : (s.writers w).stage = .flushed m result) : (s.settle w m result).Inv := by
  have hwait := h.writers w
  have hstage : s.Staged ((s.writers w).putOff.getLast?.map Write.mark) (.flushed m result) := by
    rw [← hst]
    exact hwait.stage
  have hl : s.Later (s.settle w m result) := .still rfl rfl rfl rfl rfl (fun _ => le_rfl) fun _ hv => .inl hv
  refine h.moves h.filed.writers hl w { s.writers w with stage := .answered result.isSome } ?_ rfl
    (hwait.goesOn hl trivial fun heq x hx => ?_)
  · cases result with
    | none => exact h.durable
    | some result =>
        cases result with
        | none => exact h.durable
        | some len =>
            simp only [State.settle]
            split
            · exact hstage.2.2.symm
            · exact h.durable
  · cases result with
    | none => cases heq
    | some result =>
        refine (hwait.answers h.filed (m := m) ?_ ?_ x hx).later hl
        · cases result with
          | none => exact hstage.1
          | some len => exact hstage.1
        · cases result with
          | none => exact .inr hstage.2
          | some len => exact hstage.2.2.symm.imp hstage.2.1.trans id

theorem Inv.step (h : s.Inv) {e : Event} (hw : e.whole = true) (hs : s.step e = some s') : s'.Inv := by
  cases e with
  | write w ops syncWrites =>
      simp only [State.step] at hs
      split at hs
      · rename_i hidle
        split at hs
        · cases hs
        · cases hs
          exact h.write hidle ops syncWrites
      · cases hs
  | wait w =>
      simp only [State.step] at hs
      split at hs
      · rename_i x hidle hlast
        cases hs
        have hl : s.Later { s with writers := s.setStage w (.asking x.mark) } :=
          .still rfl rfl rfl rfl rfl (fun _ => le_rfl) fun _ hv => .inl hv
        refine h.moves h.filed.writers hl w _ (h.durable_later hl rfl rfl) rfl ((h.writers w).goesOn hl ?_ nofun)
        show (s.writers w).putOff.getLast?.map Write.mark = some x.mark
        rw [hlast]
        rfl
      · cases hs
  | ask w => exact h.ask hs
  | lead w opens =>
      simp only [State.step] at hs
      split at hs
      · rename_i m hst
        cases hs
        exact h.lead hst opens
      · cases hs
  | flush w ok => exact h.flush hs
  | settle w =>
      simp only [State.step] at hs
      split at hs
      · rename_i m result hst
        cases hs
        exact h.settle hst
      · cases hs
  | again w =>
      simp only [State.step] at hs
      split at hs
      · cases hs
        have hl : s.Later { s with writers := s.setWriter w ⟨[], .idle⟩ } :=
          .still rfl rfl rfl rfl rfl (fun _ => le_rfl) fun _ hv => .inl hv
        exact h.moves h.filed.writers hl w _ (h.durable_later hl rfl rfl) rfl ⟨nofun, nofun, trivial, nofun⟩
      · cases hs
  | expire key =>
      cases hs
      exact h.files (h.filed.fewer fun k p hk => getElem?_of_erase hk)
        (.still rfl rfl rfl rfl rfl (fun _ => le_rfl) fun _ hv => .inl hv) rfl rfl rfl
  | reset id cut =>
      obtain rfl : cut = false := by simpa [Event.whole] using hw
      simp only [State.step] at hs
      split at hs
      · cases hs
      · rename_i hid
        cases hs
        obtain ⟨hf, hl⟩ := h.filed.reset hid
        exact h.files hf hl rfl rfl rfl
  | freeze expired synced =>
      simp only [State.step] at hs
      split at hs
      · cases hs
        obtain ⟨hf, hl⟩ := h.filed.freeze expired synced
        exact h.files hf hl rfl rfl rfl
      · cases hs
  | copy id sizes =>
      simp only [State.step] at hs
      split at hs
      · rename_i view hc
        split at hs
        · cases hs
        · rename_i hid
          cases hs
          obtain ⟨hf, hl⟩ := h.filed.copy hc hid sizes
          exact h.files hf hl rfl rfl rfl
      · cases hs
  | giveUp =>
      have hoff : s' = { s with compaction := .off } := by
        simp only [State.step] at hs
        split at hs <;> simp_all
      subst hoff
      exact h.files ⟨h.filed.handle, h.filed.id, h.filed.len, h.filed.node, h.filed.given, h.filed.gone, h.filed.now,
        h.filed.sound, h.filed.cached, trivial, h.filed.swaps⟩ (.still rfl rfl rfl rfl rfl (fun f => le_rfl) nofun) rfl rfl rfl
  | hold =>
      simp only [State.step] at hs
      split at hs
      · rename_i c hc
        split at hs
        · cases hs
        · cases hs
          have hcomp := h.filed.compacting
          rw [hc] at hcomp
          refine h.files ⟨h.filed.handle, h.filed.id, h.filed.len, h.filed.node, h.filed.given, h.filed.gone, h.filed.now,
            h.filed.sound, h.filed.cached, hcomp, h.filed.swaps⟩
            (.still rfl rfl rfl rfl rfl (fun f => le_rfl) fun v hv => .inl ?_) rfl rfl rfl
          rw [hc]
          exact hv
      · cases hs
  | swap outcome =>
      simp only [State.step] at hs
      split at hs
      · rename_i c hc
        cases hs
        have hne : outcome ≠ .stranded := by
          rintro rfl
          cases hw
        obtain ⟨hf, hl⟩ := h.filed.swap hc hne
        refine h.files hf hl ?_ ?_ ?_ <;> cases outcome <;> by_cases hid : s.fileId = c.view.oldId <;>
          simp [State.swap, State.replace, hid]
      · cases hs
  | release =>
      simp only [State.step] at hs
      split at hs
      · cases hs
        exact h.files ⟨h.filed.handle, h.filed.id, h.filed.len, h.filed.node, h.filed.given, h.filed.gone, h.filed.now,
          h.filed.sound, h.filed.cached, trivial, h.filed.swaps⟩ (.still rfl rfl rfl rfl rfl (fun f => le_rfl) nofun)
          rfl rfl rfl
      · cases hs

/-- An engine just opened on a data file. -/
structure Start (s : State) : Prop where
  handle : s.handle = s.path
  id : (s.nodes s.path).id = s.fileId
  len : (s.nodes s.path).len = s.fileLen
  node : s.path < s.nextNode
  sound : Sound s.recs s.fileLen s.stamps s.index
  syncFile : s.syncFile = none
  durable : s.durable = ⟨0, 0, false⟩
  compaction : s.compaction = .off
  writers : ∀ w, s.writers w = ⟨[], .idle⟩
  fate : ∀ f, s.fate f = none
  used : s.used = [s.fileId]

theorem Start.inv (h : s.Start) : s.Inv := by
  refine ⟨⟨h.handle, h.id, h.len, h.node, by simp [h.used], fun f x hx => ?_, h.fate _, h.sound, fun id node hn => ?_, ?_,
    fun f x hx => ?_⟩, .inl ?_, fun w => ?_⟩
  · rw [h.fate] at hx
    cases hx
  · rw [h.syncFile] at hn
    cases hn
  · rw [h.compaction]
    trivial
  · rw [h.fate] at hx
    cases hx
  · rw [h.durable]
    exact Nat.zero_le _
  · rw [h.writers]
    exact ⟨nofun, nofun, trivial, nofun⟩

end State

namespace State

/-- An engine on a new data file. -/
def fresh : State where
  nodes := fun _ => ⟨1, [], fileHeaderLen⟩
  path := 0
  handle := 0
  nextNode := 1
  fileId := 1
  fileLen := fileHeaderLen
  index := ∅
  syncFile := none
  durable := ⟨0, 0, false⟩
  compaction := .off
  writers := fun _ => ⟨[], .idle⟩
  synced := fun _ => 0
  fate := fun _ => none
  used := [1]
  stamps := 0

theorem fresh_start : fresh.Start :=
  ⟨rfl, rfl, rfl, by decide, ⟨nofun, fun k p hk => by simp [fresh] at hk⟩, rfl, rfl, rfl, fun _ => rfl, fun _ => rfl, rfl⟩

/-- What a writer does to be answered. -/
def answers (w : Nat) : List Event := [.wait w, .ask w, .lead w true, .settle w]

end State

end KivaDb.GroupCommit
