import Reoftpd.FileTree

/-!
# What the calls on a directory tree change

Every call changes the tree at the one location its path leads to: `mkdir_ok`,
`openFile_ok`, `hardLink_ok`, `removeFile_ok` and `removeDir_ok` name it.  Paths lead to
the same place before and after, as long as directories stay and links stay the same
(`Grows.locate`), and the canonical text of a location leads to it (`locate_locText`)
unless a link lies on the way.
-/
namespace FileTree
open UnixPath

variable {t t' t'' : FileTree} {L M S D : Loc} {p : OsStr} {e : Entry OsStr} {i : Nat}
  {followLast : Bool}

/-! ## One location at a time -/

theorem entry_withNew_self {d : Disk Loc OsStr} (hL : t.Vacant L) (hself) (hne) (he) :
    (t.withNew d e hL hself hne he).entry L = some e :=
  hself

theorem entry_withNew_ne {d : Disk Loc OsStr} (hL : t.Vacant L) (hself) (hne) (he) (h : M ≠ L) :
    (t.withNew d e hL hself hne he).entry M = t.entry M :=
  hne M h

theorem entry_mkdirAt_self (h : t.Vacant L) : (t.mkdirAt L).entry L = some .dir := by
  rw [mkdirAt, dif_pos h]
  exact entry_withNew_self ..

theorem entry_mkdirAt_ne (h : M ≠ L) : (t.mkdirAt L).entry M = t.entry M := by
  unfold mkdirAt
  split
  · exact entry_withNew_ne _ _ _ _ h
  · rfl

theorem entry_createAt_self (h : t.Vacant L) :
    (t.createAt L).entry L = some (.file t.disk.fresh) := by
  rw [createAt, dif_pos h]
  exact entry_withNew_self ..

theorem entry_createAt_ne (h : M ≠ L) : (t.createAt L).entry M = t.entry M := by
  unfold createAt
  split
  · exact entry_withNew_ne _ _ _ _ h
  · rfl

theorem entry_linkAt_self (h : t.Vacant L) (hS : t.entry S = some e) :
    (t.linkAt S L).entry L = some e := by
  unfold linkAt
  split
  · rename_i hS'
    exact absurd (hS.symm.trans hS') (by simp)
  · rename_i e' hS'
    obtain rfl : e = e' := Option.some.inj (hS.symm.trans hS')
    rw [dif_pos h]
    exact entry_withNew_self ..

theorem entry_linkAt_ne (h : M ≠ L) : (t.linkAt S L).entry M = t.entry M := by
  unfold linkAt
  split
  · rfl
  · split
    · exact entry_withNew_ne _ _ _ _ h
    · rfl

theorem entry_eraseAt_self (h : t.Childless L) : (t.eraseAt L).entry L = none := by
  rw [eraseAt, dif_pos h]
  exact Disk.lookup_erase_self

theorem entry_eraseAt_ne (h : M ≠ L) : (t.eraseAt L).entry M = t.entry M := by
  unfold eraseAt
  split
  · exact Disk.lookup_erase_ne h
  · rfl

@[simp] theorem entry_setData (j : Nat) (b : Bytes) : (t.setData j b).entry M = t.entry M := rfl

@[simp] theorem cwd_mkdirAt : (t.mkdirAt L).cwd = t.cwd := by
  unfold mkdirAt
  split <;> rfl

@[simp] theorem cwd_createAt : (t.createAt L).cwd = t.cwd := by
  unfold createAt
  split <;> rfl

@[simp] theorem cwd_linkAt : (t.linkAt S L).cwd = t.cwd := by
  unfold linkAt
  split
  · rfl
  · split <;> rfl

@[simp] theorem cwd_eraseAt : (t.eraseAt L).cwd = t.cwd := by
  unfold eraseAt
  split <;> rfl

@[simp] theorem cwd_setData (j : Nat) (b : Bytes) : (t.setData j b).cwd = t.cwd := rfl

@[simp] theorem fresh_mkdirAt : (t.mkdirAt L).disk.fresh = t.disk.fresh := by
  unfold mkdirAt
  split <;> rfl

@[simp] theorem fresh_linkAt : (t.linkAt S L).disk.fresh = t.disk.fresh := by
  unfold linkAt
  split
  · rfl
  · split <;> rfl

@[simp] theorem fresh_eraseAt : (t.eraseAt L).disk.fresh = t.disk.fresh := by
  unfold eraseAt
  split <;> rfl

@[simp] theorem fresh_setData (j : Nat) (b : Bytes) :
    (t.setData j b).disk.fresh = t.disk.fresh := rfl

theorem fresh_createAt_le : t.disk.fresh ≤ (t.createAt L).disk.fresh := by
  unfold createAt
  split
  · exact Nat.le_succ _
  · exact Nat.le_refl _

/-- Two trees that differ in nothing but their names. -/
structure SameContents (t t' : FileTree) : Prop where
  data : t'.disk.data = t.disk.data
  modified : t'.disk.modified = t.disk.modified
  clock : t'.disk.clock = t.disk.clock
  dirSize : t'.disk.dirSize = t.disk.dirSize

theorem SameContents.symm (h : SameContents t t') : SameContents t' t :=
  ⟨h.data.symm, h.modified.symm, h.clock.symm, h.dirSize.symm⟩

theorem SameContents.trans (h : SameContents t t') (h' : SameContents t' t'') :
    SameContents t t'' :=
  ⟨h'.data.trans h.data, h'.modified.trans h.modified, h'.clock.trans h.clock,
    h'.dirSize.trans h.dirSize⟩

theorem sameContents_mkdirAt : SameContents t (t.mkdirAt L) := by
  unfold mkdirAt
  split <;> exact ⟨rfl, rfl, rfl, rfl⟩

theorem sameContents_linkAt : SameContents t (t.linkAt S L) := by
  unfold linkAt
  split
  · exact ⟨rfl, rfl, rfl, rfl⟩
  · split <;> exact ⟨rfl, rfl, rfl, rfl⟩

theorem sameContents_eraseAt : SameContents t (t.eraseAt L) := by
  unfold eraseAt
  split <;> exact ⟨rfl, rfl, rfl, rfl⟩

@[simp] theorem data_mkdirAt : (t.mkdirAt L).disk.data = t.disk.data := sameContents_mkdirAt.data

@[simp] theorem data_linkAt : (t.linkAt S L).disk.data = t.disk.data := sameContents_linkAt.data

@[simp] theorem data_eraseAt : (t.eraseAt L).disk.data = t.disk.data := sameContents_eraseAt.data

theorem data_createAt_self (h : t.Vacant L) : (t.createAt L).disk.data t.disk.fresh = [] := by
  rw [createAt, dif_pos h]
  exact Disk.data_create_self

theorem data_createAt_ne (h : i ≠ t.disk.fresh) :
    (t.createAt L).disk.data i = t.disk.data i := by
  unfold createAt
  split
  · exact Disk.data_create_ne h
  · rfl

theorem modified_createAt_self (h : t.Vacant L) :
    (t.createAt L).disk.modified t.disk.fresh = t.disk.clock := by
  rw [createAt, dif_pos h]
  exact Disk.modified_create_self

theorem modified_createAt_ne (h : i ≠ t.disk.fresh) :
    (t.createAt L).disk.modified i = t.disk.modified i := by
  unfold createAt
  split
  · exact Disk.modified_create_ne h
  · rfl

theorem clock_createAt : (t.createAt L).disk.clock = t.disk.clock := by
  unfold createAt
  split <;> rfl

theorem dirSize_createAt : (t.createAt L).disk.dirSize = t.disk.dirSize := by
  unfold createAt
  split <;> rfl

@[simp] theorem data_setData_self (b : Bytes) : (t.setData i b).disk.data i = b :=
  Disk.data_setData_self b

theorem data_setData_ne {j : Nat} (b : Bytes) (h : i ≠ j) :
    (t.setData j b).disk.data i = t.disk.data i :=
  Disk.data_setData_ne b h

theorem lt_fresh (h : t.entry L = some (.file i)) : i < t.disk.fresh :=
  t.disk.file_lt_fresh L i h

/-- Nothing lies in what is no directory. -/
theorem childless_of_entry (h : t.entry L = some e) (he : e.isDir = false) : t.Childless L := by
  constructor
  · rintro rfl
    rw [entry, t.root_dir] at h
    obtain rfl := Option.some.inj h
    cases he
  · apply List.eq_nil_iff_forall_not_mem.mpr
    intro s hs
    have hdir := t.parent_dir L s (t.mem_children.mp hs)
    rw [entry, hdir] at h
    obtain rfl := Option.some.inj h
    cases he

/-- What a bound location lies below is a directory. -/
theorem dir_above (hp : M <+: L) (hne : M ≠ L) (h : t.entry L ≠ none) :
    t.entry M = some .dir := by
  induction L using List.reverseRecOn with
  | nil => exact absurd (List.prefix_nil.mp hp) hne
  | append_singleton L a ih =>
      have hL : t.entry L = some .dir := t.parent_dir L a h
      rcases List.prefix_concat_iff.mp hp with rfl | hp
      · exact absurd rfl hne
      · by_cases hML : M = L
        · exact hML ▸ hL
        · exact ih hp hML (by simp [hL])

theorem isName_of_entry (h : t.entry L ≠ none) : ∀ s ∈ L, IsName s :=
  fun s hs => (t.fileNames L h s hs).1

/-! ## Where a path leads -/

/-- The characters of a segment are those of the path. -/
theorem mem_of_mem_segments {s : OsStr} {c : OsChar} (h : s ∈ segments p) (hc : c ∈ s) :
    c ∈ p := by
  have hmem : ∀ q : OsStr, ∀ s ∈ pieces q, ∀ c ∈ s, c ∈ q := by
    intro q
    induction q with
    | nil =>
        intro s hs c hc
        rw [List.mem_singleton.mp hs] at hc
        exact hc
    | cons a q ih =>
        intro s hs c hc
        unfold pieces at hs
        split at hs
        · rcases List.mem_cons.mp hs with rfl | hs
          · cases hc
          · exact List.mem_cons_of_mem _ (ih s hs c hc)
        · split at hs
          · rename_i hq
            exact absurd hq (pieces_ne_nil q)
          · rename_i x xs hq
            rcases List.mem_cons.mp hs with rfl | hs
            · rcases List.mem_cons.mp hc with rfl | hc
              · exact List.mem_cons_self ..
              · exact List.mem_cons_of_mem _ (ih x (hq ▸ List.mem_cons_self ..) c hc)
            · exact List.mem_cons_of_mem _ (ih s (hq ▸ List.mem_cons_of_mem _ hs) c hc)
  exact hmem p s (List.mem_of_mem_filter h) c hc

theorem nul_not_mem_segments {s : OsStr} (h : s ∈ segments p) (hp : nul ∉ p) : nul ∉ s :=
  fun hc => hp (mem_of_mem_segments h hc)

theorem nul_not_mem_steps {s : OsStr} (h : s ∈ steps p) (hp : nul ∉ p) : nul ∉ s := by
  unfold steps at h
  split at h
  · rcases List.mem_append.mp h with h | h
    · exact nul_not_mem_segments h hp
    · rw [List.mem_singleton.mp h]
      decide
  · exact nul_not_mem_segments h hp

theorem isSegment_of_mem_steps {s : OsStr} (h : s ∈ steps p) : IsSegment s := by
  unfold steps at h
  split at h
  · rcases List.mem_append.mp h with h | h
    · exact mem_segments h
    · rw [List.mem_singleton.mp h]
      exact ⟨by decide, by decide⟩
  · exact mem_segments h

theorem locateSteps_ok {l : List OsStr} (h : t.locateSteps followLast p l = .ok L) :
    p ≠ [] ∧ nul ∉ p ∧ ∃ here, t.start p = .ok here ∧ t.entry here = some .dir ∧
      walk t.entry followLast maxSymlinks here l = .ok L := by
  unfold locateSteps at h
  split at h
  · cases h
  · rename_i hp
    split at h
    · cases h
    · rename_i hnul
      split at h
      · rename_i here hstart
        refine ⟨hp, hnul, here, hstart, ?_, h⟩
        unfold start at hstart
        split at hstart
        · obtain rfl := Except.ok.inj hstart
          exact t.root_dir
        · split at hstart
          · rename_i hcwd
            obtain rfl := Except.ok.inj hstart
            exact hcwd
          · cases hstart
      · cases h

theorem locateSteps_eq {l : List OsStr} {here : Loc} (hp : p ≠ []) (hnul : nul ∉ p)
    (hstart : t.start p = .ok here) :
    t.locateSteps followLast p l = walk t.entry followLast maxSymlinks here l := by
  rw [locateSteps, if_neg hp, if_neg hnul, hstart]

/-- **What a path leads to** is there, or is a new name in a directory. -/
theorem vacant_of_locateSteps {l : List OsStr} (hl : ∀ s ∈ l, IsSegment s ∧ (nul ∉ p → nul ∉ s))
    (h : t.locateSteps followLast p l = .ok L) (hn : t.entry L = none) : t.Vacant L := by
  obtain ⟨-, hnul, here, -, hhere, hw⟩ := locateSteps_ok h
  rcases walk_place (V := fun s => nul ∉ s) t.rooted hhere (fun s hs _ => (hl s hs).2 hnul)
    (fun M target hM s hs _ => nul_not_mem_steps hs (t.targets M target hM))
    (fun s hs => (hl s hs).1) hw with hb | ⟨P, s, rfl, hP, hs, hv⟩
  · exact absurd hn hb
  · refine ⟨by simp, hn, by rw [List.dropLast_concat, hP], fun a ha => ?_⟩
    rcases List.mem_append.mp ha with ha | ha
    · exact t.fileNames P (show t.entry P ≠ none by simp [hP]) a ha
    · rw [List.mem_singleton.mp ha]
      exact ⟨hs, hv⟩

theorem vacant_of_locate (h : t.locate followLast p = .ok L) (hn : t.entry L = none) :
    t.Vacant L :=
  vacant_of_locateSteps (fun _ hs => ⟨isSegment_of_mem_steps hs, nul_not_mem_steps hs⟩) h hn

theorem thin_steps (p : OsStr) : Thin (segments p) (steps p) := by
  unfold steps
  split
  · exact thin_concat_dot _
  · exact .refl _

theorem thin_solid (p : OsStr) : Thin (solidSegments p) (segments p) := by
  unfold solidSegments
  split
  · exact thin_filter _
  · cases segments p with
    | nil => exact .nil
    | cons s rest => exact .keep s (thin_filter rest)

/-- A path leads to no link if links are followed. -/
theorem not_link_of_locate (h : t.locate true p = .ok L) (target : OsStr) :
    t.entry L ≠ some (.link target) := by
  obtain ⟨-, -, here, -, hhere, hw⟩ := locateSteps_ok h
  refine walk_induction (Q := fun _ here _ L => t.entry here = some .dir →
      ∀ target, t.entry L ≠ some (.link target)) ?_ ?_ ?_ ?_ ?_ ?_ hw hhere target
  · intro n here hhere target
    simp [hhere]
  · exact fun n here rest L _ ih hhere => ih hhere
  · exact fun n here rest L _ ih hhere => ih (t.rooted.dropLast hhere)
  · exact fun n here s rest L _ _ hd _ ih _ => ih hd
  · exact fun n here s target rest L _ _ _ _ _ ih hhere => ih (t.rooted.linkStart target hhere)
  · exact fun n here s _ _ _ hnl _ => hnl.resolve_left (by simp)

/-- The directories on the way of a path. -/
def pathTrail (t : FileTree) (p : OsStr) : List Loc :=
  trail t.entry maxSymlinks (if isAbsolute p then [] else t.cwd) (steps p)

/-- A path that leads somewhere starts at the root or in the working directory. -/
theorem start_eq {here : Loc} (h : t.start p = .ok here) :
    here = if isAbsolute p then [] else t.cwd := by
  unfold start at h
  split at h
  · rename_i habs
    rw [if_pos habs, Except.ok.inj h]
  · rename_i habs
    split at h
    · rw [if_neg habs, Except.ok.inj h]
    · cases h

/-- The directory a path leads to is the last one on its way. -/
theorem mem_pathTrail (h : t.locate true p = .ok L) (hL : t.entry L = some .dir) :
    L ∈ t.pathTrail p := by
  obtain ⟨-, -, here, hstart, -, hw⟩ := locateSteps_ok h
  rw [pathTrail, ← start_eq hstart]
  exact mem_trail_end hw hL

/-- A path starts where it started while the working directory stays. -/
theorem start_kept {here : Loc} (hcwd : t'.cwd = t.cwd)
    (hdir : t.entry t.cwd = some .dir → t'.entry t.cwd = some .dir) (h : t.start p = .ok here) :
    t'.start p = .ok here := by
  unfold start at h ⊢
  rw [hcwd]
  split at h
  · rename_i habs
    rw [if_pos habs, h]
  · rename_i habs
    split at h
    · rename_i hthere
      rw [if_neg habs, if_pos (hdir hthere), h]
    · cases h

/-- **A path leads where it led** as long as the directories on its way stay and the links
stay the same. -/
theorem locate_stable (hcwd : t'.cwd = t.cwd)
    (hlink : ∀ M target, t'.entry M = some (.link target) ↔ t.entry M = some (.link target))
    (hdir : ∀ D ∈ t.pathTrail p, t.entry D = some .dir → t'.entry D = some .dir)
    (h : t.locate true p = .ok L) : t'.locate true p = .ok L := by
  obtain ⟨hp, hnul, here, hstart, hhere, hw⟩ := locateSteps_ok h
  rw [pathTrail, ← start_eq hstart] at hdir
  have hstart' : t'.start p = .ok here := by
    unfold start at hstart ⊢
    split at hstart
    · rename_i habs
      rw [if_pos habs, hstart]
    · rename_i habs
      split at hstart
      · obtain rfl := Except.ok.inj hstart
        rw [if_neg habs, hcwd, if_pos (hdir _ mem_trail_self hhere)]
      · cases hstart
  rw [locate, locateSteps_eq hp hnul hstart']
  exact walk_stable hlink hw hdir

/-- Where a path leads, its solid segments lead. -/
theorem walk_solid (h : t.locate true p = .ok L) :
    ∃ here, t.start p = .ok here ∧ t.entry here = some .dir ∧
      walk t.entry true maxSymlinks here (solidSegments p) = .ok L := by
  obtain ⟨-, -, here, hstart, hhere, hw⟩ := locateSteps_ok h
  exact ⟨here, hstart, hhere, walk_thin (walk_thin hw (thin_steps p)) (thin_solid p)⟩

theorem find_ok : t.find followLast p = .ok (L, e) ↔
    t.locate followLast p = .ok L ∧ t.entry L = some e := by
  unfold find
  split
  · rename_i h
    simp [h]
  · rename_i M hM
    split
    · rename_i hn
      simp only [hM, reduceCtorEq, Except.ok.injEq, false_iff, not_and]
      rintro rfl
      simp [hn]
    · rename_i e' he
      simp only [hM, Except.ok.injEq, Prod.mk.injEq]
      constructor
      · rintro ⟨rfl, rfl⟩
        exact ⟨rfl, he⟩
      · rintro ⟨rfl, h⟩
        exact ⟨rfl, Option.some.inj (he.symm.trans h)⟩

theorem canonicalize_ok {c : OsStr} (h : t.canonicalize p = .ok c) :
    ∃ L e, t.locate true p = .ok L ∧ t.entry L = some e ∧ c = locText L := by
  unfold canonicalize at h
  split at h
  · rename_i L e hf
    obtain ⟨hl, he⟩ := find_ok.mp hf
    exact ⟨L, e, hl, he, (Except.ok.inj h).symm⟩
  · cases h

theorem canonicalize_eq (hl : t.locate true p = .ok L) (he : t.entry L = some e) :
    t.canonicalize p = .ok (locText L) := by
  rw [canonicalize, find_ok.mpr ⟨hl, he⟩]

theorem isDir_iff : t.isDir p = true ↔ ∃ L, t.locate true p = .ok L ∧ t.entry L = some .dir := by
  unfold isDir
  constructor
  · intro h
    split at h
    · rename_i L hf
      exact ⟨L, find_ok.mp hf⟩
    · cases h
  · rintro ⟨L, h⟩
    rw [find_ok.mpr h]

theorem fileAt_eq_some : t.fileAt p = some i ↔
    ∃ L, t.locate true p = .ok L ∧ t.entry L = some (.file i) := by
  unfold fileAt
  constructor
  · intro h
    split at h
    · rename_i L j hf
      obtain rfl := Option.some.inj h
      exact ⟨L, find_ok.mp hf⟩
    · cases h
  · rintro ⟨L, h⟩
    rw [find_ok.mpr h]

theorem readFile_of_locate (hl : t.locate true p = .ok L) (he : t.entry L = some (.file i)) :
    t.readFile p = .ok (t.disk.data i) := by
  rw [readFile, find_ok.mpr ⟨hl, he⟩]

/-! ## Trees with the same links -/

/-- Two trees with the same links, and the same working directory. -/
structure SameLinks (t t' : FileTree) : Prop where
  cwd : t'.cwd = t.cwd
  link : ∀ M target, t'.entry M = some (.link target) ↔ t.entry M = some (.link target)

/-- `t'` has the directories of `t`, and the same links. -/
structure Grows (t t' : FileTree) : Prop extends SameLinks t t' where
  dir : ∀ M, t.entry M = some .dir → t'.entry M = some .dir

theorem SameLinks.refl (t : FileTree) : SameLinks t t := ⟨rfl, fun _ _ => Iff.rfl⟩

theorem SameLinks.symm (h : SameLinks t t') : SameLinks t' t :=
  ⟨h.cwd.symm, fun M target => (h.link M target).symm⟩

theorem SameLinks.trans (h : SameLinks t t') (h' : SameLinks t' t'') : SameLinks t t'' :=
  ⟨h'.cwd.trans h.cwd, fun M target => (h'.link M target).trans (h.link M target)⟩

theorem Grows.refl (t : FileTree) : Grows t t := ⟨.refl t, fun _ h => h⟩

theorem Grows.trans (h : Grows t t') (h' : Grows t' t'') : Grows t t'' :=
  ⟨h.toSameLinks.trans h'.toSameLinks, fun M hM => h'.dir M (h.dir M hM)⟩

/-- **A path leads where it led** after directories were added. -/
theorem Grows.locateSteps (h : Grows t t') {l : List OsStr}
    (hL : t.locateSteps followLast p l = .ok L) : t'.locateSteps followLast p l = .ok L := by
  obtain ⟨hp, hnul, here, hstart, -, hw⟩ := locateSteps_ok hL
  rw [locateSteps_eq hp hnul (start_kept h.cwd (h.dir _) hstart)]
  exact walk_mono h.link h.dir hw

theorem Grows.locate (h : Grows t t') (hL : t.locate followLast p = .ok L) :
    t'.locate followLast p = .ok L :=
  h.locateSteps hL

/-- A path that leads to something that is there leads to it where there is more. -/
theorem locate_bound (hcwd : t'.cwd = t.cwd)
    (hmore : ∀ M e, t.entry M = some e → t'.entry M = some e)
    (h : t.locate followLast p = .ok L) (hL : t.entry L ≠ none) :
    t'.locate followLast p = .ok L := by
  obtain ⟨hp, hnul, here, hstart, -, hw⟩ := locateSteps_ok h
  rw [locate, locateSteps_eq hp hnul (start_kept hcwd (hmore _ _) hstart)]
  exact walk_bound hmore hw hL

/-- Without following a link at the end, a path leads where it would with, or to that link. -/
theorem locate_unfollowed (h : t.locate true p = .ok L) :
    ∃ M, t.locate false p = .ok M ∧ (M = L ∨ ∃ target, t.entry M = some (.link target)) := by
  obtain ⟨hp, hnul, here, hstart, -, hw⟩ := locateSteps_ok h
  obtain ⟨M, hM, hcases⟩ := walk_unfollowed hw
  exact ⟨M, (locateSteps_eq hp hnul hstart).trans hM, hcases⟩

/-- A path that leads to no link need not be told whether to follow it. -/
theorem locate_follow (h : t.locate false p = .ok L)
    (hL : ∀ target, t.entry L ≠ some (.link target)) : t.locate true p = .ok L := by
  obtain ⟨hp, hnul, here, hstart, -, hw⟩ := locateSteps_ok h
  exact (locateSteps_eq hp hnul hstart).trans (walk_follow hw hL)

theorem Grows.isDir (h : Grows t t') (hp : t.isDir p = true) : t'.isDir p = true := by
  obtain ⟨L, hl, hd⟩ := isDir_iff.mp hp
  exact isDir_iff.mpr ⟨L, h.locate hl, h.dir L hd⟩

/-- One change at `L` that neither removes a directory nor makes or removes a link. -/
theorem grows_of_entry (hcwd : t'.cwd = t.cwd) (hne : ∀ M, M ≠ L → t'.entry M = t.entry M)
    (hself : ∀ e, t.entry L = some e → ∃ i, e = .file i)
    (hself' : ∀ target, t'.entry L ≠ some (.link target)) : Grows t t' := by
  refine ⟨⟨hcwd, fun M target => ?_⟩, fun M hM => ?_⟩
  · by_cases hML : M = L
    · subst hML
      refine ⟨fun h => absurd h (hself' target), fun h => ?_⟩
      obtain ⟨i, hi⟩ := hself _ h
      cases hi
    · rw [hne M hML]
  · by_cases hML : M = L
    · subst hML
      obtain ⟨i, hi⟩ := hself _ hM
      cases hi
    · rw [hne M hML, hM]

theorem grows_mkdirAt (h : t.Vacant L) : Grows t (t.mkdirAt L) :=
  grows_of_entry cwd_mkdirAt (fun _ => entry_mkdirAt_ne) (fun e he => by rw [h.2.1] at he; cases he)
    (fun target => by rw [entry_mkdirAt_self h]; simp)

theorem grows_createAt (h : t.Vacant L) : Grows t (t.createAt L) :=
  grows_of_entry cwd_createAt (fun _ => entry_createAt_ne)
    (fun e he => by rw [h.2.1] at he; cases he)
    (fun target => by rw [entry_createAt_self h]; simp)

theorem grows_linkAt (h : t.Vacant L) (hS : t.entry S = some (.file i)) : Grows t (t.linkAt S L) :=
  grows_of_entry cwd_linkAt (fun _ => entry_linkAt_ne)
    (fun e he => by rw [h.2.1] at he; cases he)
    (fun target => by rw [entry_linkAt_self h hS]; simp)

theorem grows_eraseAt (h : t.entry L = some (.file i)) : Grows t (t.eraseAt L) :=
  grows_of_entry cwd_eraseAt (fun _ => entry_eraseAt_ne)
    (fun e he => ⟨i, Option.some.inj (he.symm.trans h)⟩)
    (fun target => by rw [entry_eraseAt_self (childless_of_entry h rfl)]; simp)

theorem grows_setData (j : Nat) (b : Bytes) : Grows t (t.setData j b) :=
  ⟨⟨rfl, fun _ _ => Iff.rfl⟩, fun _ h => h⟩

/-! ## What each call changes -/

theorem mkdir_ok (h : t.mkdir p = .ok t') :
    ∃ L, t.locateSteps false p (segments p) = .ok L ∧ t.Vacant L ∧ t' = t.mkdirAt L := by
  unfold mkdir at h
  split at h
  · cases h
  · rename_i L hL
    split at h
    · cases h
    · rename_i hn
      refine ⟨L, hL, vacant_of_locateSteps (fun s hs => ?_) hL hn, (Except.ok.inj h).symm⟩
      exact ⟨mem_segments hs, nul_not_mem_segments hs⟩

/-- An open finds a file or makes a new, empty one. -/
theorem openFile_ok (h : t.openFile p = .ok (t', i)) :
    ∃ L, t.locate true p = .ok L ∧
      (t.entry L = some (.file i) ∧ t' = t ∨
        t.Vacant L ∧ t' = t.createAt L ∧ i = t.disk.fresh) := by
  unfold openFile at h
  split at h
  · cases h
  · split at h
    · cases h
    · rename_i L hL
      refine ⟨L, hL, ?_⟩
      split at h
      · rename_i hn
        obtain ⟨rfl, rfl⟩ := Prod.mk.inj (Except.ok.inj h)
        exact Or.inr ⟨vacant_of_locate hL hn, rfl, rfl⟩
      · rename_i j hj
        obtain ⟨rfl, rfl⟩ := Prod.mk.inj (Except.ok.inj h)
        exact Or.inl ⟨hj, rfl⟩
      · cases h
      · cases h

/-- A truncating open empties what an open finds or makes. -/
theorem openTruncate_ok (h : t.openTruncate p = .ok (t', i)) :
    ∃ t₁, t.openFile p = .ok (t₁, i) ∧ t' = t₁.setData i [] := by
  unfold openTruncate at h
  split at h
  · rename_i t₁ j ho
    obtain ⟨rfl, rfl⟩ := Prod.mk.inj (Except.ok.inj h)
    exact ⟨t₁, ho, rfl⟩
  · cases h

/-- A link binds an absent name to what the source is bound to. -/
theorem hardLink_ok {src dst : OsStr} (h : t.hardLink src dst = .ok t') :
    ∃ S D e, t.locate false src = .ok S ∧ t.entry S = some e ∧ e.isDir = false ∧
      t.locate false dst = .ok D ∧ t.Vacant D ∧ t' = t.linkAt S D := by
  unfold hardLink at h
  split at h
  · cases h
  · rename_i S e hS
    split at h
    · cases h
    · rename_i D hD
      split at h
      · cases h
      · rename_i hn
        split at h
        · cases h
        · split at h
          · cases h
          · rename_i hdir
            obtain ⟨hl, he⟩ := find_ok.mp hS
            exact ⟨S, D, e, hl, he, by simpa using hdir, hD, vacant_of_locate hD hn,
              (Except.ok.inj h).symm⟩

/-- A removal takes a name away that no directory has. -/
theorem removeFile_ok (h : t.removeFile p = .ok t') :
    ∃ L e, t.locate false p = .ok L ∧ t.entry L = some e ∧ e.isDir = false ∧
      t' = t.eraseAt L := by
  unfold removeFile at h
  split at h
  · cases h
  · cases h
  · rename_i L e hne hf
    obtain ⟨hl, he⟩ := find_ok.mp hf
    refine ⟨L, e, hl, he, ?_, (Except.ok.inj h).symm⟩
    cases e with
    | dir => exact absurd rfl hne
    | file _ => rfl
    | link _ => rfl

theorem readDir_ok {names : List OsStr} (h : t.readDir p = .ok names) :
    ∃ L, t.locate true p = .ok L ∧ t.entry L = some .dir ∧ names = t.children L := by
  unfold readDir at h
  split at h
  · rename_i L hf
    obtain ⟨hl, he⟩ := find_ok.mp hf
    exact ⟨L, hl, he, (Except.ok.inj h).symm⟩
  · cases h
  · cases h

theorem removeDir_ok (h : t.removeDir p = .ok t') :
    ∃ L, t.locate false p = .ok L ∧ t.entry L = some .dir ∧ t.Childless L ∧ t' = t.eraseAt L := by
  unfold removeDir at h
  split at h
  · cases h
  · rename_i L hf
    obtain ⟨hl, he⟩ := find_ok.mp hf
    split at h
    · cases h
    · rename_i hroot
      split at h
      · rename_i hc
        exact ⟨L, hl, he, ⟨hroot, hc⟩, (Except.ok.inj h).symm⟩
      · cases h
  · cases h

/-! ## Trees after writes -/

/-- A tree after files were made and written to through names. -/
structure Wrote (t s : FileTree) : Prop where
  cwd : s.cwd = t.cwd
  fresh : t.disk.fresh ≤ s.disk.fresh
  entry_or : ∀ M, s.entry M = t.entry M ∨
    t.entry M = none ∧ ∃ i, s.entry M = some (.file i) ∧ t.disk.fresh ≤ i
  once : ∀ M N i, s.entry M = some (.file i) → s.entry N = some (.file i) →
    t.disk.fresh ≤ i → M = N

section Wrote
variable {s : FileTree}

theorem Wrote.refl (t : FileTree) : Wrote t t where
  cwd := rfl
  fresh := le_rfl
  entry_or _ := Or.inl rfl
  once _ _ _ hM _ hi := absurd (lt_fresh hM) (not_lt.mpr hi)

theorem Wrote.setData (h : Wrote t s) (j : Nat) (b : Bytes) : Wrote t (s.setData j b) :=
  ⟨h.cwd, h.fresh, h.entry_or, h.once⟩

theorem Wrote.createAt (h : Wrote t s) (hL : s.Vacant L) : Wrote t (s.createAt L) where
  cwd := cwd_createAt.trans h.cwd
  fresh := h.fresh.trans fresh_createAt_le
  entry_or M := by
    by_cases hML : M = L
    · subst hML
      have hnone : t.entry M = none := by
        rcases h.entry_or M with he | ⟨hn, -⟩
        · rw [← he, hL.2.1]
        · exact hn
      exact Or.inr ⟨hnone, s.disk.fresh, entry_createAt_self hL, h.fresh⟩
    · rw [entry_createAt_ne hML]
      exact h.entry_or M
  once M N i hM hN hi := by
    -- an old inode is below the supply, and the new one is what the supply hands out
    have hold : ∀ K, K ≠ L → (s.createAt L).entry K = some (.file i) → i < s.disk.fresh := by
      intro K hK hentry
      rw [entry_createAt_ne hK] at hentry
      exact lt_fresh hentry
    have hnew : ∀ K, K = L → (s.createAt L).entry K = some (.file i) → i = s.disk.fresh := by
      rintro K rfl hentry
      rw [entry_createAt_self hL] at hentry
      simpa using hentry.symm
    by_cases hML : M = L <;> by_cases hNL : N = L
    · rw [hML, hNL]
    · exact absurd (hnew M hML hM) (hold N hNL hN).ne
    · exact absurd (hnew N hNL hN) (hold M hML hM).ne
    · rw [entry_createAt_ne hML] at hM
      rw [entry_createAt_ne hNL] at hN
      exact h.once M N i hM hN hi

theorem Wrote.openFile (h : Wrote t s) {s' : FileTree} (ho : s.openFile p = .ok (s', i)) :
    Wrote t s' := by
  obtain ⟨L, -, ⟨-, rfl⟩ | ⟨hL, rfl, -⟩⟩ := openFile_ok ho
  · exact h
  · exact h.createAt hL

theorem Wrote.openTruncate (h : Wrote t s) {s' : FileTree} (ho : s.openTruncate p = .ok (s', i)) :
    Wrote t s' := by
  obtain ⟨s₁, hopen, rfl⟩ := openTruncate_ok ho
  exact (h.openFile hopen).setData i []

/-- What is there stays. -/
theorem Wrote.kept (h : Wrote t s) {e : Entry OsStr} (hM : t.entry M = some e) :
    s.entry M = some e := by
  rcases h.entry_or M with he | ⟨hn, -⟩
  · rw [he, hM]
  · rw [hn] at hM
    cases hM

theorem Wrote.sameLinks (h : Wrote t s) : SameLinks t s := by
  refine ⟨h.cwd, fun M target => ?_⟩
  rcases h.entry_or M with he | ⟨hn, i, hi, -⟩
  · rw [he]
  · simp [hn, hi]

/-- A path leads where it led, before as after. -/
theorem Wrote.locate_iff (h : Wrote t s) :
    s.locate followLast p = .ok L ↔ t.locate followLast p = .ok L := by
  have hback : Grows s t := by
    refine ⟨h.sameLinks.symm, fun M hM => ?_⟩
    rcases h.entry_or M with he | ⟨-, i, hi, -⟩
    · rw [← he, hM]
    · rw [hi] at hM
      cases hM
  have hgrows : Grows t s := ⟨h.sameLinks, fun M hM => h.kept hM⟩
  exact ⟨hback.locate, hgrows.locate⟩

theorem Wrote.fileAt (h : Wrote t s) (hp : t.fileAt p = some i) : s.fileAt p = some i := by
  obtain ⟨L, hL, hfile⟩ := fileAt_eq_some.mp hp
  exact fileAt_eq_some.mpr ⟨L, h.locate_iff.mpr hL, h.kept hfile⟩

end Wrote

/-! ## The names in a directory -/

theorem children_nodup (t : FileTree) (L : Loc) : (t.children L).Nodup := by
  refine t.disk.entries.keys_nodup.filterMap fun M M' s hs hs' => ?_
  have hname : ∀ M : Loc, M.getLast? = some s → M.dropLast = L → M = L ++ [s] := by
    intro M hs hL
    rw [← hL]
    exact (List.dropLast_append_getLast? _ hs).symm
  split at hs
  · rename_i a ha
    split at hs
    · rename_i hL
      obtain rfl := Option.some.inj hs
      split at hs'
      · rename_i a' ha'
        split at hs'
        · rename_i hL'
          obtain rfl := Option.some.inj hs'
          exact (hname M ha hL).trans (hname M' ha' hL').symm
        · cases hs'
      · cases hs'
    · cases hs
  · cases hs

theorem nul_not_mem_join {a s : OsStr} (hs : IsName s) :
    nul ∉ join a s ↔ nul ∉ a ∧ nul ∉ s := by
  have hsep : nul ≠ sep := by decide
  rw [join, if_neg (by simp [isAbsolute_name hs])]
  split <;> simp [hsep]

/-- A path that leads somewhere with a name joined to it leads to a directory without. -/
theorem locate_join_ok {a s : OsStr} (ha : a ≠ []) (hs : IsName s)
    (h : t.locate followLast (join a s) = .ok L) :
    ∃ A m, t.locate true a = .ok A ∧ t.entry A = some .dir ∧
      walk t.entry followLast m A [s] = .ok L := by
  obtain ⟨-, hnul, here, hstart, hhere, hw⟩ := locateSteps_ok h
  rw [start, isAbsolute_join (isAbsolute_name hs)] at hstart
  rw [steps, endsWithSep_join_name hs, if_neg (by simp), segments_join (isAbsolute_name hs),
    segments_name hs] at hw
  obtain ⟨A, m, hA, hdir, hlast⟩ := walk_append_ok t.rooted hhere hw (List.cons_ne_nil _ _)
  refine ⟨A, m, ?_, hdir, hlast⟩
  rw [locate, locateSteps_eq ha ((nul_not_mem_join hs).mp hnul).1 hstart, steps]
  split
  · have hon : ∃ k, walk t.entry true maxSymlinks here (segments a ++ [dot]) =
        walk t.entry true k A [dot] := walk_append hA hdir (List.cons_ne_nil _ _)
    obtain ⟨k, hk⟩ := hon
    rw [hk, walk_dot, walk_nil]
  · exact hA

/-- **A name in a directory** is found by joining it to a path of the directory. -/
theorem locate_join {a s : OsStr} {A : Loc} (hA : t.locate true a = .ok A)
    (hdir : t.entry A = some .dir) (he : t.entry (A ++ [s]) = some e)
    (hl : followLast = false ∨ ∀ target, e ≠ .link target) :
    t.locate followLast (join a s) = .ok (A ++ [s]) := by
  have hname : IsFileName s :=
    t.fileNames (A ++ [s]) (show t.entry (A ++ [s]) ≠ none by simp [he]) s (by simp)
  obtain ⟨hs, hsnul⟩ := hname
  obtain ⟨hane, hnul, here, hstart, -, hw⟩ := locateSteps_ok hA
  rw [locate, locateSteps_eq (join_ne_nil hs) ((nul_not_mem_join hs).mpr ⟨hnul, hsnul⟩)
    (show t.start (join a s) = .ok here by
      rw [start, isAbsolute_join (isAbsolute_name hs)]
      exact hstart),
    steps, endsWithSep_join_name hs, if_neg (by simp), segments_join (isAbsolute_name hs),
    segments_name hs]
  have hon : ∃ m, walk t.entry followLast maxSymlinks here (segments a ++ [s]) =
      walk t.entry followLast m A [s] :=
    walk_append (walk_thin hw (thin_steps a)) hdir (List.cons_ne_nil _ _)
  obtain ⟨m, hm⟩ := hon
  rw [hm]
  refine walk_last hs.2.2.1 hs.2.2.2 (hl.imp_right fun hl target => ?_)
  rw [he]
  exact fun h => hl target (Option.some.inj h)

/-! ## `create_dir_all` -/

/-- `t'` is `t` with some directories more. -/
structure AddsDirs (t t' : FileTree) : Prop where
  cwd : t'.cwd = t.cwd
  entry : ∀ M, t'.entry M = t.entry M ∨ t.entry M = none ∧ t'.entry M = some .dir
  data : t'.disk.data = t.disk.data
  fresh : t'.disk.fresh = t.disk.fresh

theorem AddsDirs.refl (t : FileTree) : AddsDirs t t := ⟨rfl, fun _ => Or.inl rfl, rfl, rfl⟩

theorem AddsDirs.trans (h : AddsDirs t t') (h' : AddsDirs t' t'') : AddsDirs t t'' := by
  refine ⟨h'.cwd.trans h.cwd, fun M => ?_, h'.data.trans h.data, h'.fresh.trans h.fresh⟩
  rcases h.entry M with h1 | ⟨h1, h1'⟩
  · rcases h'.entry M with h2 | ⟨h2, h2'⟩
    · exact Or.inl (h2.trans h1)
    · exact Or.inr ⟨h1 ▸ h2, h2'⟩
  · rcases h'.entry M with h2 | ⟨h2, -⟩
    · exact Or.inr ⟨h1, h2.trans h1'⟩
    · rw [h1'] at h2
      cases h2

theorem AddsDirs.grows (h : AddsDirs t t') : Grows t t' := by
  refine ⟨⟨h.cwd, fun M target => ?_⟩, fun M hM => ?_⟩
  · rcases h.entry M with h1 | ⟨h1, h1'⟩
    · rw [h1]
    · rw [h1, h1']
      simp
  · rcases h.entry M with h1 | ⟨h1, -⟩
    · rw [h1, hM]
    · rw [hM] at h1
      cases h1

/-- A file is bound to the same inode, and an inode to the same names. -/
theorem AddsDirs.file_iff (h : AddsDirs t t') :
    t'.entry M = some (.file i) ↔ t.entry M = some (.file i) := by
  rcases h.entry M with h1 | ⟨h1, h1'⟩
  · rw [h1]
  · rw [h1, h1']
    simp

theorem addsDirs_mkdirAt (h : t.Vacant L) : AddsDirs t (t.mkdirAt L) := by
  refine ⟨cwd_mkdirAt, fun M => ?_, data_mkdirAt, fresh_mkdirAt⟩
  by_cases hM : M = L
  · subst hM
    exact Or.inr ⟨h.2.1, entry_mkdirAt_self h⟩
  · exact Or.inl (entry_mkdirAt_ne hM)

theorem tryMkdir_ok {fault : MkdirFault} {again : Bool} (h : t.tryMkdir fault again p = .ok t') :
    t.mkdir p = .ok t' := by
  unfold tryMkdir at h
  split at h
  · cases h
  · exact h

theorem addsDirs_mkdir (h : t.mkdir p = .ok t') : AddsDirs t t' := by
  obtain ⟨L, -, hv, rfl⟩ := mkdir_ok h
  exact addsDirs_mkdirAt hv

/-- **`create_dir_all` makes one directory after the other.** -/
theorem createDirs_ind {J : FileTree → Prop} (fault : MkdirFault) {ps : List OsStr}
    (made : ∀ p ∈ ps, ∀ s s', J s → s.mkdir p = .ok s' → J s') {t : FileTree} (ht : J t) :
    J (createDirs fault t ps).1 := by
  induction ps generalizing t with
  | nil => exact ht
  | cons p above ih =>
      have hmade : ∀ again s s', J s → s.tryMkdir fault again p = .ok s' → J s' :=
        fun again s s' hs hm => made p (List.mem_cons_self ..) s s' hs (tryMkdir_ok hm)
      unfold createDirs
      split
      · exact ht
      · split
        · rename_i hm
          exact hmade _ _ _ ht hm
        · have hup := ih (fun q hq => made q (List.mem_cons_of_mem p hq)) ht
          split
          · rename_i t' _ hc
            rw [hc] at hup
            exact hup
          · rename_i t' hc
            rw [hc] at hup
            split
            · rename_i hm
              exact hmade _ _ _ hup hm
            · split <;> exact hup
        · split <;> exact ht

theorem addsDirs_createDirs (fault : MkdirFault) (t : FileTree) (ps : List OsStr) :
    AddsDirs t (createDirs fault t ps).1 :=
  createDirs_ind fault (fun _ _ _ _ hs hm => hs.trans (addsDirs_mkdir hm)) (.refl t)

/-- **`create_dir_all` only adds directories**, whether it succeeds or not. -/
theorem addsDirs_createDirAll (fault : MkdirFault) (t : FileTree) (p : OsStr) :
    AddsDirs t (t.createDirAll fault p).1 :=
  addsDirs_createDirs fault t _

/-- What is there is not made. -/
theorem mkdir_there (h : t.locate true p = .ok L) (hL : t.entry L ≠ none) :
    t.mkdir p = .error .alreadyExists := by
  obtain ⟨hp, hnul, here, hstart, -, hw⟩ := locateSteps_ok h
  obtain ⟨M, hM, hbound⟩ := walk_there (walk_thin hw (thin_steps p)) hL
  obtain ⟨e, he⟩ := Option.ne_none_iff_exists'.mp hbound
  rw [mkdir, locateSteps_eq hp hnul hstart, hM]
  simp only [entry] at he ⊢
  rw [he]

/-- The directory made last is there. -/
theorem isDir_of_mkdir (h : t.mkdir p = .ok t') : t'.isDir p = true := by
  obtain ⟨L, hl, hv, rfl⟩ := mkdir_ok h
  have hdir : (t.mkdirAt L).entry L = some .dir := entry_mkdirAt_self hv
  obtain ⟨hp, hnul, here, hstart, hhere, hw⟩ := locateSteps_ok ((grows_mkdirAt hv).locateSteps hl)
  have hw' : walk (t.mkdirAt L).entry true maxSymlinks here (segments p) = .ok L :=
    walk_follow hw (by simp [hdir])
  refine isDir_iff.mpr ⟨L, ?_, hdir⟩
  rw [locate, locateSteps_eq hp hnul hstart]
  unfold steps
  split
  · have hon : ∃ m, walk (t.mkdirAt L).entry true maxSymlinks here (segments p ++ [dot]) =
        walk (t.mkdirAt L).entry true m L [dot] := walk_append hw' hdir (by simp)
    obtain ⟨m, hm⟩ := hon
    rw [hm, walk_dot, walk_nil]
  · exact hw'

/-- **`create_dir_all` that succeeds** leaves a directory there. -/
theorem isDir_of_createDirAll {fault : MkdirFault} (hp : p ≠ [])
    (h : (t.createDirAll fault p).2 = .ok ()) : (t.createDirAll fault p).1.isDir p = true := by
  unfold createDirAll ancestors createDirs at h ⊢
  rw [if_neg hp] at h ⊢
  split at h
  · rename_i hm
    exact isDir_of_mkdir (tryMkdir_ok hm)
  · split at h
    · cases h
    · split at h
      · rename_i hm
        exact isDir_of_mkdir (tryMkdir_ok hm)
      · split at h
        · rename_i hd
          rw [if_pos hd]
          exact hd
        · cases h
  · split at h
    · rename_i hd
      rw [if_pos hd]
      exact hd
    · cases h

/-! ## Trees without links below a path -/

/-- What a tree would hold if every name that is not a link were a directory. -/
def asDirs (L : Loc) : Option (Entry OsStr) :=
  match t.entry L with
  | some (.link target) => some (.link target)
  | _ => some .dir

/-- Where a path leads once every directory on it is there. -/
def aim (t : FileTree) (p : OsStr) : Except Errno Loc :=
  walk t.asDirs true maxSymlinks (if isAbsolute p then [] else t.cwd) (solidSegments p)

/-- No link lies at or below where a path leads, once every directory on it is there. -/
def LinkFree (t : FileTree) (p : OsStr) : Prop :=
  ∀ B, t.aim p = .ok B → ∀ L, B <+: L → ∀ target, t.entry L ≠ some (.link target)

/-- A tree without links has none below any path. -/
theorem linkFree_of_no_links (h : ∀ L target, t.entry L ≠ some (.link target)) (p : OsStr) :
    t.LinkFree p :=
  fun _ _ L _ target => h L target

theorem no_links_bare (L : Loc) (target : OsStr) : bare.entry L ≠ some (.link target) := by
  by_cases hL : L = []
  · subst hL
    rw [entry, bare.root_dir]
    simp
  · have hnone : bare.entry L = none :=
      Disk.lookup_bind_ne (d := Disk.blank) (e := .dir) (by rintro i ⟨⟩) hL
    rw [hnone]
    simp

/-- A new name that is no link adds none. -/
theorem no_links_of_entry (h : ∀ L target, t.entry L ≠ some (.link target))
    (hne : ∀ M, M ≠ L → t'.entry M = t.entry M) (hself : ∀ target, t'.entry L ≠ some (.link target))
    (M : Loc) (target : OsStr) : t'.entry M ≠ some (.link target) := by
  by_cases hM : M = L
  · exact hM ▸ hself target
  · exact hne M hM ▸ h M target

theorem asDirs_link {target : OsStr} :
    t.asDirs M = some (.link target) ↔ t.entry M = some (.link target) := by
  unfold asDirs
  split
  · rename_i h
    rw [h]
  · rename_i h
    simp only [reduceCtorEq, Option.some.injEq, false_iff]
    exact h target

theorem SameLinks.asDirs_eq (h : SameLinks t t') : t'.asDirs = t.asDirs := by
  funext M
  unfold asDirs
  cases hM : t.entry M with
  | none =>
      cases hM' : t'.entry M with
      | none => rfl
      | some e =>
          cases e with
          | link target => rw [(h.link M target).mp hM'] at hM; cases hM
          | _ => rfl
  | some e =>
      cases e with
      | link target => rw [(h.link M target).mpr hM]
      | _ =>
          cases hM' : t'.entry M with
          | none => rfl
          | some e' =>
              cases e' with
              | link target => rw [(h.link M target).mp hM'] at hM; cases hM
              | _ => rfl

theorem SameLinks.aim_eq (h : SameLinks t t') (p : OsStr) : t'.aim p = t.aim p := by
  rw [aim, h.asDirs_eq, h.cwd, aim]

/-- A tree stays without links below a path while the links stay the same, whatever
comes and goes otherwise. -/
theorem LinkFree.of_sameLinks (hfree : t.LinkFree p) (h : SameLinks t t') : t'.LinkFree p := by
  intro B hB L hL target hlink
  rw [h.aim_eq] at hB
  exact hfree B hB L hL target ((h.link L target).mp hlink)

theorem aim_of_locate (h : t.locate true p = .ok L) : t.aim p = .ok L := by
  obtain ⟨here, hstart, -, hw⟩ := walk_solid h
  rw [aim, ← start_eq hstart]
  refine walk_mono (fun M target => asDirs_link) (fun M hM => ?_) hw
  rw [asDirs, hM]

/-- Where a path without links below it leads, no link lies. -/
theorem LinkFree.entry_ne (hfree : t.LinkFree p) (h : t.locate true p = .ok L) (hM : L <+: M)
    (target : OsStr) : t.entry M ≠ some (.link target) :=
  hfree L (aim_of_locate h) M hM target

/-! ## The canonical text of a location -/

theorem nul_not_mem_intercalate {l : List OsStr} (h : ∀ s ∈ l, nul ∉ s) : nul ∉ intercalate l := by
  induction l with
  | nil => exact List.not_mem_nil
  | cons s l ih =>
      obtain ⟨hs, hl⟩ := List.forall_mem_cons.mp h
      cases l with
      | nil => exact hs
      | cons a l =>
          show nul ∉ s ++ sep :: intercalate (a :: l)
          simp only [List.mem_append, List.mem_cons, not_or]
          exact ⟨hs, by decide, ih hl⟩

theorem nul_not_mem_locText (h : ∀ s ∈ L, nul ∉ s) : nul ∉ locText L := by
  rw [locText, List.mem_cons, not_or]
  exact ⟨by decide, nul_not_mem_intercalate h⟩

/-- No link lies on the way to a location, the location included. -/
def Straight (t : FileTree) (L : Loc) : Prop :=
  ∀ q, q <+: L → q ≠ [] → ∀ target, t.entry q ≠ some (.link target)

theorem Straight.of_sameLinks (hL : t.Straight L) (h : SameLinks t t') : t'.Straight L :=
  fun q hq hne target hlink => hL q hq hne target ((h.link q target).mp hlink)

/-- No link lies on the way to anything below a path without links. -/
theorem LinkFree.straight (hfree : t.LinkFree p) (h : t.locate true p = .ok L)
    (hbound : t.entry L ≠ none) (r : List OsStr) : t.Straight (L ++ r) := by
  intro q hq _ target hlink
  rcases List.prefix_or_prefix_of_prefix hq (List.prefix_append L r) with hqL | hLq
  · by_cases hne : q = L
    · exact hfree.entry_ne h (hne ▸ List.prefix_rfl) target hlink
    · rw [dir_above hqL hne hbound] at hlink
      cases hlink
  · exact hfree.entry_ne h hLq target hlink

/-- The text of a location is walked by its names. -/
theorem locate_locText_walk (hL : ∀ s ∈ L, IsName s) (hnul : nul ∉ locText L) :
    t.locate followLast (locText L) = walk t.entry followLast maxSymlinks [] L := by
  rw [locate, locateSteps_eq (locText_ne_nil L) hnul
    (show t.start (locText L) = .ok [] by rw [start, if_pos (isAbsolute_locText L)])]
  cases L using List.reverseRecOn with
  | nil =>
      have hsteps : steps (locText []) = [dot] := rfl
      rw [hsteps, walk_dot]
  | append_singleton L a _ =>
      have hend : endsWithSep (locText (L ++ [a])) = false :=
        endsWithSep_locText (by simp) fun s hs => (hL s hs).isSegment
      rw [steps, hend, if_neg (by simp), segments_locText hL]

theorem walk_of_locate (hL : ∀ s ∈ L, IsName s) (h : t.locate followLast (locText L) = .ok M) :
    walk t.entry followLast maxSymlinks [] L = .ok M := by
  rw [← locate_locText_walk hL (locateSteps_ok h).2.1, h]

/-- The text of a location leads nowhere else, when no link lies on the way. -/
theorem Straight.locate (hfree : t.Straight L) (hL : ∀ s ∈ L, IsName s)
    (h : t.locate followLast (locText L) = .ok M) : M = L := by
  have hM : M = [] ++ L := walk_names hL hfree (walk_of_locate hL h)
  exact hM

/-- A name in a directory with no link on the way leads to itself, if a link at the end is
not followed. -/
theorem Straight.locate_name {a : OsStr} (hfree : t.Straight L) (hL : ∀ s ∈ L ++ [a], IsName s)
    (h : t.locate false (locText (L ++ [a])) = .ok M) : M = L ++ [a] := by
  have hM : M = [] ++ (L ++ [a]) := by
    refine walk_names_of hL (fun q hq hne hlast target => ?_) (walk_of_locate hL h)
    rcases List.prefix_concat_iff.mp hq with rfl | hq
    · exact absurd (hlast rfl) (by simp)
    · exact hfree q hq hne target
  exact hM

/-- **The text of a bound location leads to it.** -/
theorem locate_locText (h : t.entry L ≠ none) (hl : ∀ target, t.entry L ≠ some (.link target)) :
    t.locate followLast (locText L) = .ok L := by
  have hnames : ∀ s ∈ L, IsName s := isName_of_entry h
  rw [locate_locText_walk hnames (nul_not_mem_locText fun s hs => (t.fileNames L h s hs).2)]
  have hdown : walk t.entry followLast maxSymlinks [] L = .ok ([] ++ L) :=
    walk_down hnames (fun q hq _ hne => dir_above hq hne h) (Or.inr hl)
  exact hdown

end FileTree
