import Reoftpd.EncryptedRetries
import Reoftpd.MakeDirs
import Reoftpd.ParallelUploads
import Reoftpd.TreeStores

/-!
# Stores on a tree as stores on a disk

The interleavings of stores are studied on a disk of paths.  A directory tree looks like
one to the stores on a set of locations, as long as the directories of the locations are
there and no link lies on the way to them (`Mirrors`): each operation of a store goes the
same way on both (`simulates_tree`).  So what calls do on the tree, one operation at a time,
is what they do on the disk: any number of them at once (`streamRace_mirrors`,
`uploadRace_mirrors`), or one after the other, each cut off anywhere (`attempts_mirrors`,
`retries_mirrors`).  Every tree looks like some disk (`exists_mirror`).
-/

/-- What an entry of a disk without links is on a tree. -/
def Entry.onTree : Entry Empty → Entry OsStr
  | .dir => .dir
  | .file i => .file i
  | .link target => target.elim

namespace FileTree
open UnixPath Reoftpd

/-- A location a store can work at: its directory is there, and no link is on the way. -/
structure Ready (t : FileTree) (L : Loc) : Prop where
  ne_root : L ≠ []
  names : ∀ s ∈ L, IsFileName s
  straight : t.Straight L
  parent : t.entry L.dropLast = some .dir

/-- **The locations of `W` look the same** on a tree and on a disk of paths. -/
structure Mirrors (W : Set Loc) (t : FileTree) (d : Disk OsStr Empty) : Prop where
  ready : ∀ L ∈ W, t.Ready L
  entry : ∀ L ∈ W, t.entry L = (d.lookup (locText L)).map Entry.onTree
  data : t.disk.data = d.data
  fresh : t.disk.fresh = d.fresh
  dirSize : t.disk.dirSize = d.dirSize

section Facts
variable {W : Set Loc} {t t' : FileTree} {d d' : Disk OsStr Empty} {L F S : Loc} {i : Nat}
  {b : Bytes}

theorem Ready.isName (h : t.Ready L) : ∀ s ∈ L, IsName s := fun s hs => (h.names s hs).1

theorem Ready.of_grows (h : t.Ready L) (hg : Grows t t') : t'.Ready L :=
  { h with
    straight := h.straight.of_sameLinks hg.toSameLinks
    parent := hg.dir _ h.parent }

/-- The text of such a location leads to it. -/
theorem Ready.locate (h : t.Ready L) (followLast : Bool) :
    t.locate followLast (locText L) = .ok L := by
  rw [locate_locText_walk h.isName (nul_not_mem_locText fun s hs => (h.names s hs).2)]
  have hdown : walk t.entry followLast maxSymlinks [] L = .ok ([] ++ L) := by
    refine walk_down h.isName (fun q hq _ hqL => ?_)
      (Or.inr (h.straight L List.prefix_rfl h.ne_root))
    obtain ⟨P, a, rfl⟩ := (List.eq_nil_or_concat' L).resolve_left h.ne_root
    have hP : t.entry P = some .dir := by simpa using h.parent
    have hqP : q <+: P := (List.prefix_concat_iff.mp hq).resolve_left hqL
    by_cases hne : q = P
    · exact hne ▸ hP
    · exact dir_above hqP hne (by simp [hP])
  exact hdown

theorem Ready.find (h : t.Ready L) (followLast : Bool) {e : Entry OsStr}
    (he : t.entry L = some e) : t.find followLast (locText L) = .ok (L, e) :=
  find_ok.mpr ⟨h.locate followLast, he⟩

theorem Ready.find_absent (h : t.Ready L) (followLast : Bool) (he : t.entry L = none) :
    t.find followLast (locText L) = .error .notFound := by
  unfold FileTree.find
  rw [h.locate followLast]
  simp only
  rw [he]

theorem Ready.vacant (h : t.Ready L) (he : t.entry L = none) : t.Vacant L :=
  ⟨h.ne_root, he, h.parent, h.names⟩

theorem Ready.endsWithSep (h : t.Ready L) : endsWithSep (locText L) = false :=
  endsWithSep_locText h.ne_root fun s hs => (h.isName s hs).isSegment

/-- What is at a location, on both. -/
theorem Mirrors.cases (h : Mirrors W t d) (hL : L ∈ W) :
    (t.entry L = none ∧ d.lookup (locText L) = none) ∨
      (t.entry L = some .dir ∧ d.lookup (locText L) = some .dir) ∨
      ∃ i, t.entry L = some (.file i) ∧ d.lookup (locText L) = some (.file i) := by
  have he := h.entry L hL
  cases hd : d.lookup (locText L) with
  | none => exact Or.inl ⟨by rw [he, hd]; rfl, rfl⟩
  | some e =>
      cases e with
      | dir => exact Or.inr (Or.inl ⟨by rw [he, hd]; rfl, rfl⟩)
      | file i => exact Or.inr (Or.inr ⟨i, by rw [he, hd]; rfl, rfl⟩)
      | link target => exact target.elim

theorem Mirrors.absent_iff (h : Mirrors W t d) (hL : L ∈ W) :
    t.entry L = none ↔ d.lookup (locText L) = none := by
  rw [h.entry L hL, Option.map_eq_none_iff]

/-! ## The same change on both -/

/-- One location changes, and alike. -/
theorem Mirrors.change (h : Mirrors W t d) (hL : L ∈ W) (hg : Grows t t')
    (hne : ∀ M, M ≠ L → t'.entry M = t.entry M)
    (hne' : ∀ n, n ≠ locText L → d'.lookup n = d.lookup n)
    (hself : t'.entry L = (d'.lookup (locText L)).map Entry.onTree)
    (hdata : t'.disk.data = d'.data) (hfresh : t'.disk.fresh = d'.fresh)
    (hsize : t'.disk.dirSize = d'.dirSize) : Mirrors W t' d' := by
  refine ⟨fun M hM => (h.ready M hM).of_grows hg, fun M hM => ?_, hdata, hfresh, hsize⟩
  by_cases hML : M = L
  · exact hML ▸ hself
  · have htext : locText M ≠ locText L := fun he =>
      hML (locText_injective (h.ready M hM).isName (h.ready L hL).isName he)
    rw [hne M hML, hne' _ htext]
    exact h.entry M hM

theorem Mirrors.setData (h : Mirrors W t d) (i : Nat) (b : Bytes) :
    Mirrors W (t.setData i b) (d.setData i b) where
  ready L hL := (h.ready L hL).of_grows (grows_setData i b)
  entry L hL := h.entry L hL
  data := by
    show Function.update t.disk.data i b = Function.update d.data i b
    rw [h.data]
  fresh := h.fresh
  dirSize := h.dirSize

theorem Mirrors.create (h : Mirrors W t d) (hL : L ∈ W) (he : t.entry L = none) :
    Mirrors W (t.createAt L) (d.create (locText L)) := by
  have hv : t.Vacant L := (h.ready L hL).vacant he
  have hdisk : (t.createAt L).disk = t.disk.create L := by
    rw [createAt, dif_pos hv]
    rfl
  refine h.change hL (grows_createAt hv) (fun _ => entry_createAt_ne)
    (fun _ => Disk.lookup_create_ne) ?_ ?_ ?_ ?_
  · rw [entry_createAt_self hv, Disk.lookup_create_self, h.fresh]
    rfl
  · rw [hdisk]
    show Function.update t.disk.data t.disk.fresh [] = Function.update d.data d.fresh []
    rw [h.data, h.fresh]
  · rw [hdisk, Disk.fresh_create, Disk.fresh_create, h.fresh]
  · rw [hdisk]
    exact h.dirSize

/-- A new file has no bytes to lose. -/
theorem Mirrors.created (h : Mirrors W t d) (hL : L ∈ W) (he : t.entry L = none) :
    Mirrors W ((t.createAt L).setData t.disk.fresh []) (d.create (locText L)) := by
  have hmade : Mirrors W (t.createAt L) (d.create (locText L)) := h.create hL he
  refine { hmade with
    ready := fun M hM => (hmade.ready M hM).of_grows (grows_setData _ _)
    data := ?_ }
  show Function.update (t.createAt L).disk.data t.disk.fresh [] = _
  rw [hmade.data, h.fresh]
  exact Function.update_idem ..

theorem Mirrors.link (h : Mirrors W t d) (hS : t.entry S = some (.file i)) (hF : F ∈ W)
    (he : t.entry F = none) (hlt) :
    Mirrors W (t.linkAt S F) (d.bind (locText F) (.file i) hlt) := by
  have hv : t.Vacant F := (h.ready F hF).vacant he
  refine h.change hF (grows_linkAt hv hS) (fun _ => entry_linkAt_ne)
    (fun _ => Disk.lookup_bind_ne _) ?_ ?_ ?_ ?_
  · rw [entry_linkAt_self hv hS, Disk.lookup_bind_self]
    rfl
  · rw [data_linkAt, Disk.data_bind, h.data]
  · rw [fresh_linkAt, Disk.fresh_bind, h.fresh]
  · rw [sameContents_linkAt.dirSize]
    exact h.dirSize

theorem Mirrors.erase (h : Mirrors W t d) (hL : L ∈ W) (he : t.entry L = some (.file i)) :
    Mirrors W (t.eraseAt L) (d.erase (locText L)) := by
  refine h.change hL (grows_eraseAt he) (fun _ => entry_eraseAt_ne)
    (fun _ => Disk.lookup_erase_ne) ?_ ?_ ?_ ?_
  · rw [entry_eraseAt_self (childless_of_entry he rfl), Disk.lookup_erase_self]
    rfl
  · rw [data_eraseAt, Disk.data_erase, h.data]
  · rw [fresh_eraseAt, Disk.fresh_erase, h.fresh]
  · rw [sameContents_eraseAt.dirSize]
    exact h.dirSize

/-! ## The same operation on both -/

/-- The open finds the same file, or makes a new one on both. -/
theorem Mirrors.openFile (h : Mirrors W t d) (hL : L ∈ W) :
    Agree (fun x y => x.2 = y.2 ∧ Mirrors W x.1 y.1) (t.openFile (locText L))
      (d.openAppend (locText L)) := by
  unfold FileTree.openFile Disk.openAppend
  rw [(h.ready L hL).endsWithSep, (h.ready L hL).locate true]
  rcases h.cases hL with ⟨he, hd⟩ | ⟨he, hd⟩ | ⟨i, he, hd⟩ <;> simp only [he, hd]
  · exact ⟨h.fresh, h.create hL he⟩
  · exact rfl
  · exact ⟨rfl, h⟩

/-- The open that truncates. -/
theorem Mirrors.openTruncate (h : Mirrors W t d) (hL : L ∈ W) :
    Agree (fun x y => x.2 = y.2 ∧ Mirrors W x.1 y.1) (t.openTruncate (locText L))
      (d.openTruncate (locText L)) := by
  unfold FileTree.openTruncate FileTree.openFile Disk.openTruncate
  rw [(h.ready L hL).endsWithSep, (h.ready L hL).locate true]
  rcases h.cases hL with ⟨he, hd⟩ | ⟨he, hd⟩ | ⟨i, he, hd⟩ <;> simp only [he, hd]
  · exact ⟨h.fresh, h.created hL he⟩
  · exact rfl
  · exact ⟨rfl, h.setData i []⟩

theorem Mirrors.tryExists (h : Mirrors W t d) (hL : L ∈ W) :
    t.tryExists (locText L) = .ok (d.lookup (locText L)).isSome := by
  have hr : t.Ready L := h.ready L hL
  unfold FileTree.tryExists
  rcases h.cases hL with ⟨he, hd⟩ | ⟨he, hd⟩ | ⟨i, he, hd⟩
  · rw [hr.find_absent true he, hd]
    rfl
  · rw [hr.find true he, hd]
    rfl
  · rw [hr.find true he, hd]
    rfl

theorem Mirrors.hardLink (h : Mirrors W t d) (hS : S ∈ W) (hF : F ∈ W) :
    Agree (Mirrors W) (t.hardLink (locText S) (locText F))
      (d.hardLink (locText S) (locText F)) := by
  have hrS : t.Ready S := h.ready S hS
  have hrF : t.Ready F := h.ready F hF
  rcases d.hardLink_cases (locText S) (locText F) with ⟨hs, hl⟩ | ⟨e, hs, hcases⟩
  · rw [hl, FileTree.hardLink, hrS.find_absent false ((h.absent_iff hS).mpr hs)]
    exact rfl
  · have he : t.entry S = some e.onTree := by rw [h.entry S hS, hs]; rfl
    have hdir : e.onTree.isDir = e.isDir := by
      cases e with
      | link target => exact target.elim
      | _ => rfl
    rw [FileTree.hardLink, hrS.find false he, hrF.locate false, hrF.endsWithSep]
    simp only [hdir]
    rcases hcases with ⟨hb, hl⟩ | ⟨hn, hxdir, hl⟩ | ⟨hn, hxdir, hlt, hl⟩
    · obtain ⟨x, hx⟩ := Option.ne_none_iff_exists'.mp (mt (h.absent_iff hF).mp hb)
      rw [hl, hx]
      exact rfl
    · rw [hl, (h.absent_iff hF).mpr hn, hxdir]
      exact rfl
    · rw [hl, (h.absent_iff hF).mpr hn, hxdir]
      cases e with
      | dir => cases hxdir
      | file i => exact h.link he hF ((h.absent_iff hF).mpr hn) hlt
      | link target => exact target.elim

theorem Mirrors.discard (h : Mirrors W t d) (hL : L ∈ W) :
    Mirrors W (t.discard (locText L)) (d.discard (locText L)) := by
  have hr : t.Ready L := h.ready L hL
  unfold FileTree.discard FileTree.removeFile Disk.discard Disk.unlink
  rcases h.cases hL with ⟨he, hd⟩ | ⟨he, hd⟩ | ⟨i, he, hd⟩
  · rw [hr.find_absent false he]
    simp only [hd]
    exact h
  · rw [hr.find false he]
    simp only [hd]
    exact h
  · rw [hr.find false he]
    simp only [hd]
    exact h.erase hL he

/-- The length `metadata` says. -/
theorem Mirrors.stagingLen (h : Mirrors W t d) (hS : S ∈ W) (final : OsStr)
    (hstaging : stagingPath final = locText S) :
    (t.metadata (stagingPath final)).map FileStat.len =
      (diskTarget final (stagingPath final)).stagingLen d := by
  have hr : t.Ready S := h.ready S hS
  rw [hstaging]
  simp only [diskTarget]
  unfold FileTree.metadata
  rcases h.cases hS with ⟨he, hd⟩ | ⟨he, hd⟩ | ⟨i, he, hd⟩
  · rw [hr.find_absent true he, hd]
    rfl
  · rw [hr.find true he, hd]
    exact congrArg Except.ok h.dirSize
  · rw [hr.find true he, hd]
    exact congrArg (fun data => Except.ok (data i).length) h.data

/-- The directory of a ready location is there already. -/
theorem Ready.createParent (h : t.Ready L) (final : OsStr)
    (hstaging : stagingPath final = locText L) :
    (treeTarget (fun _ _ => none) final).createParent t = (t, .ok ()) := by
  obtain ⟨P, a, rfl⟩ := (List.eq_nil_or_concat' L).resolve_left h.ne_root
  have hnames := h.isName
  simp only [List.mem_append, List.mem_singleton, or_imp, forall_and, forall_eq] at hnames
  have hP : t.entry P = some .dir := by simpa using h.parent
  have hisDir : t.isDir (locText P) = true :=
    isDir_iff.mpr ⟨P, locate_locText (by simp [hP]) (by simp [hP]), hP⟩
  simp only [treeTarget]
  rw [hstaging, parent_locText hnames.1 hnames.2]
  exact createDirAll_there (locText_ne_nil P) hisDir

/-- **Each operation of a store goes the same way** on a tree and on the disk it looks like. -/
theorem simulates_tree (W : Set Loc) {final : OsStr} (hF : F ∈ W) (hS : S ∈ W)
    (hfinal : final = locText F) (hstaging : stagingPath final = locText S) :
    Simulates (treeTarget (fun _ _ => none) final) (diskTarget final (stagingPath final))
      (Mirrors W) (fun h h' t d => h = h' ∧ Mirrors W t d) where
  tryExists t d hR := by
    subst hfinal
    exact hR.tryExists hF
  stagingLen t d hR := hR.stagingLen hS final hstaging
  createParent t d hR := by
    rw [(hR.ready S hS).createParent final hstaging]
    exact ⟨hR, rfl⟩
  openAppend t d hR := by
    show Agree _ (t.openFile (stagingPath final)) (d.openAppend (stagingPath final))
    rw [hstaging]
    exact hR.openFile hS
  createFile t d hR := by
    show Agree _ (t.openTruncate (stagingPath final)) (d.openTruncate (stagingPath final))
    rw [hstaging]
    exact hR.openTruncate hS
  append h h' t d b := by
    rintro ⟨rfl, hR⟩
    refine ⟨rfl, ?_⟩
    show Mirrors W (t.setData h (t.disk.data h ++ b)) (d.setData h (d.data h ++ b))
    rw [hR.data]
    exact hR.setData h _
  writeAt h h' t d off b := by
    rintro ⟨rfl, hR⟩
    refine ⟨rfl, ?_⟩
    show Mirrors W (t.setData h (Disk.overwrite (t.disk.data h) off b))
      (d.setData h (Disk.overwrite (d.data h) off b))
    rw [hR.data]
    exact hR.setData h _
  written h h' t d hJ := hJ.2
  hardLink t d hR := by
    show Agree _ (t.hardLink (stagingPath final) final) (d.hardLink (stagingPath final) final)
    rw [hstaging, hfinal]
    exact hR.hardLink hS hF
  removeStaging t d hR := by
    show Mirrors W (t.discard (stagingPath final)) (d.discard (stagingPath final))
    rw [hstaging]
    exact hR.discard hS

/-- The same bytes are read on two trees where they are on the disks these look like. -/
theorem Mirrors.readFile_congr (h : Mirrors W t d) (h' : Mirrors W t' d') (hL : L ∈ W)
    (hbound : d.lookup (locText L) = none ↔ d'.lookup (locText L) = none)
    (hread : d.read (locText L) = d'.read (locText L)) :
    t.readFile (locText L) = t'.readFile (locText L) := by
  have hr : t.Ready L := h.ready L hL
  have hr' : t'.Ready L := h'.ready L hL
  unfold Disk.read Disk.ino at hread
  unfold FileTree.readFile
  rcases h.cases hL with ⟨he, hd⟩ | ⟨he, hd⟩ | ⟨i, he, hd⟩ <;>
    rcases h'.cases hL with ⟨he', hd'⟩ | ⟨he', hd'⟩ | ⟨j, he', hd'⟩ <;>
    simp only [hd, hd', reduceCtorEq, true_iff, iff_true, Option.map_none, Option.map_some,
      Option.some.injEq] at hbound hread
  · rw [hr.find_absent true he, hr'.find_absent true he']
  · rw [hr.find true he, hr'.find true he']
  · rw [hr.find true he, hr'.find true he']
    exact congrArg Except.ok (by rw [h.data, h'.data, hread])

/-! ## The disk a tree looks like -/

/-- What is there and no link is an entry of a disk. -/
theorem exists_onTree {x : Entry OsStr} (h : ∀ target, x ≠ .link target) :
    ∃ e : Entry Empty, x = e.onTree ∧ ∀ i, e = .file i → x = .file i := by
  cases x with
  | dir => exact ⟨.dir, rfl, by rintro i ⟨⟩⟩
  | file i => exact ⟨.file i, rfl, by rintro j ⟨⟩; rfl⟩
  | link target => exact absurd rfl (h target)

/-- A disk that shows some of the names of a tree, and nothing else. -/
theorem exists_disk (t : FileTree) (Ls : List Loc) (hbound : ∀ L ∈ Ls, t.entry L ≠ none)
    (hlinks : ∀ L ∈ Ls, ∀ target, t.entry L ≠ some (.link target)) :
    ∃ d : Disk OsStr Empty,
      (d.data = t.disk.data ∧ d.fresh = t.disk.fresh ∧ d.dirSize = t.disk.dirSize) ∧
      (∀ L ∈ Ls, t.entry L = (d.lookup (locText L)).map Entry.onTree) ∧
      ∀ n, (∀ L ∈ Ls, n ≠ locText L) → d.lookup n = none := by
  induction Ls with
  | nil =>
      exact ⟨⟨∅, t.disk.data, t.disk.modified, t.disk.clock, t.disk.dirSize, t.disk.fresh,
        fun _ _ h => by simp at h⟩, ⟨rfl, rfl, rfl⟩, by simp, fun _ _ => rfl⟩
  | cons L Ls ih =>
      obtain ⟨hL, hLs⟩ := List.forall_mem_cons.mp hbound
      obtain ⟨hlink, hlinks⟩ := List.forall_mem_cons.mp hlinks
      obtain ⟨d, ⟨hdata, hfresh, hsize⟩, hshown, hrest⟩ := ih hLs hlinks
      obtain ⟨x, hx⟩ := Option.ne_none_iff_exists'.mp hL
      obtain ⟨e, rfl, hfile⟩ := exists_onTree fun target h => hlink target (h ▸ hx)
      have hlt : ∀ i, e = .file i → i < d.fresh := fun i hi => by
        rw [hfresh]
        exact lt_fresh ((hfile i hi) ▸ hx)
      refine ⟨d.bind (locText L) e hlt, ⟨hdata, hfresh, hsize⟩, fun M hM => ?_, fun n hn => ?_⟩
      · by_cases hML : M = L
        · rw [hML, hx, Disk.lookup_bind_self]
          rfl
        · have hMs : M ∈ Ls := (List.mem_cons.mp hM).resolve_left hML
          have htext : locText M ≠ locText L := fun h =>
            hML (locText_injective (isName_of_entry (hLs M hMs)) (isName_of_entry hL) h)
          rw [Disk.lookup_bind_ne _ htext]
          exact hshown M hMs
      · rw [Disk.lookup_bind_ne _ (hn L (List.mem_cons_self ..))]
        exact hrest n fun M hM => hn M (List.mem_cons_of_mem _ hM)

open Classical in
/-- **Every tree looks like some disk** to the stores on locations that are ready. -/
theorem exists_mirror (hready : ∀ L ∈ W, t.Ready L) : ∃ d, Mirrors W t d := by
  have hmem : ∀ L, L ∈ t.disk.entries.keys.filter (fun L => decide (L ∈ W)) ↔
      t.entry L ≠ none ∧ L ∈ W := by
    intro L
    rw [List.mem_filter, t.mem_keys, decide_eq_true_iff]
  obtain ⟨d, ⟨hdata, hfresh, hsize⟩, hshown, hrest⟩ := exists_disk t
    (t.disk.entries.keys.filter fun L => decide (L ∈ W)) (fun L hL => ((hmem L).mp hL).1)
    fun L hL => (hready L ((hmem L).mp hL).2).straight L List.prefix_rfl
      (hready L ((hmem L).mp hL).2).ne_root
  refine ⟨d, hready, fun L hL => ?_, hdata.symm, hfresh.symm, hsize.symm⟩
  by_cases hfree : t.entry L = none
  · rw [hfree, hrest _ fun M hM htext => ?_]
    · rfl
    · obtain ⟨hbound, -⟩ := (hmem M).mp hM
      rw [locText_injective (hready L hL).isName (isName_of_entry hbound) htext] at hfree
      exact hbound hfree
  · exact hshown L ((hmem L).mpr ⟨hfree, hL⟩)

end Facts

end FileTree

/-! ## Calls that take turns -/

namespace Reoftpd
open Interleaving Runs UnixPath FileTree

/-- Any number of calls have come equally far, on a tree and on a disk that it looks like. -/
structure JointMirrors {ι P : Type} (W : Set Loc) (c : Joint ι FileTree P)
    (c' : Joint ι (Disk OsStr Empty) P) : Prop where
  shared : Mirrors W c.shared c'.shared
  loc : c.loc = c'.loc

section Runs
variable {ι : Type} {W : Set Loc} {t : FileTree} {d : Disk OsStr Empty} {final : OsStr} {F S : Loc}

/-- The same file is open, and the states are alike. -/
abbrev SameHandle (W : Set Loc) (h h' : Nat) (t : FileTree) (d : Disk OsStr Empty) : Prop :=
  h = h' ∧ Mirrors W t d

theorem storeAlike_iff {p p' : StorePc Nat} :
    StoreAlike (Mirrors W) (SameHandle W) t d p p' ↔ p = p' ∧ Mirrors W t d := by
  constructor
  · intro h
    cases h with
    | copy x x' rest n hJ =>
        obtain ⟨rfl, hR⟩ := hJ
        exact ⟨rfl, hR⟩
    | _ => exact ⟨rfl, ‹_›⟩
  · rintro ⟨rfl, hR⟩
    cases p with
    | start => exact .start hR
    | stat => exact .stat hR
    | createParent => exact .createParent hR
    | openStaging => exact .openStaging hR
    | copy h rest n => exact .copy h h rest n ⟨rfl, hR⟩
    | flush n => exact .flush n hR
    | link n => exact .link n hR
    | remove r => exact .remove r hR
    | done r => exact .done r hR

theorem encryptAlike_iff {p p' : EncryptPc Nat} :
    EncryptAlike (Mirrors W) (SameHandle W) t d p p' ↔ p = p' ∧ Mirrors W t d := by
  constructor
  · intro h
    cases h with
    | write x x' off k rest hJ =>
        obtain ⟨rfl, hR⟩ := hJ
        exact ⟨rfl, hR⟩
    | _ => exact ⟨rfl, ‹_›⟩
  · rintro ⟨rfl, hR⟩
    cases p with
    | start => exact .start hR
    | createParent => exact .createParent hR
    | create => exact .create hR
    | write h off k rest => exact .write h h off k rest ⟨rfl, hR⟩
    | link n => exact .link n hR
    | remove r => exact .remove r hR
    | done r => exact .done r hR

/-- The two names of a store are among the locations of `W`. -/
def StoresIn (W : Set Loc) (final : OsStr) : Prop :=
  ∃ F ∈ W, ∃ S ∈ W, final = locText F ∧ stagingPath final = locText S

theorem StoresIn.simulates (h : StoresIn W final) :
    Simulates (treeTarget (fun _ _ => none) final) (diskTarget final (stagingPath final))
      (Mirrors W) (SameHandle W) := by
  obtain ⟨F, hF, S, hS, hfinal, hstaging⟩ := h
  exact simulates_tree W hF hS hfinal hstaging

/-- **A step of `store_stream`** on the tree is the step on the disk. -/
theorem StoresIn.storeStep (h : StoresIn W final) (startPos : Nat) (input : Input)
    (hR : Mirrors W t d) (p : StorePc Nat) (f : Option Errno) :
    (storeStep (treeTarget (fun _ _ => none) final) startPos input t p f).2 =
        (storeStep (diskTarget final (stagingPath final)) startPos input d p f).2 ∧
      Mirrors W (storeStep (treeTarget (fun _ _ => none) final) startPos input t p f).1
        (storeStep (diskTarget final (stagingPath final)) startPos input d p f).1 :=
  storeAlike_iff.mp (h.simulates.storeStep startPos input (storeAlike_iff.mpr ⟨rfl, hR⟩) f)

/-- **A step of `store_encrypted`** on the tree is the step on the disk. -/
theorem StoresIn.encryptedStep (h : StoresIn W final) (out : Encrypted) (hR : Mirrors W t d)
    (p : EncryptPc Nat) (f : Option Errno) :
    (encryptedStep (treeTarget (fun _ _ => none) final) out t p f).2 =
        (encryptedStep (diskTarget final (stagingPath final)) out d p f).2 ∧
      Mirrors W (encryptedStep (treeTarget (fun _ _ => none) final) out t p f).1
        (encryptedStep (diskTarget final (stagingPath final)) out d p f).1 :=
  encryptAlike_iff.mp (h.simulates.encryptedStep out (encryptAlike_iff.mpr ⟨rfl, hR⟩) f)

variable [DecidableEq ι] {P A : Type}

/-- A step of one call keeps them alike, if the calls take their steps alike. -/
theorem JointMirrors.step {proc : ι → FileTree → P → A → FileTree × P}
    {proc' : ι → Disk OsStr Empty → P → A → Disk OsStr Empty × P} {c : Joint ι FileTree P}
    {c' : Joint ι (Disk OsStr Empty) P}
    (hproc : ∀ i t d p a, Mirrors W t d →
      (proc i t p a).2 = (proc' i d p a).2 ∧ Mirrors W (proc i t p a).1 (proc' i d p a).1)
    (h : JointMirrors W c c') (e : ι × A) :
    JointMirrors W (Interleaving.step proc c e) (Interleaving.step proc' c' e) := by
  obtain ⟨hpc, hshared⟩ := hproc e.1 c.shared c'.shared (c.loc e.1) e.2 h.shared
  have hloc := h.loc
  refine ⟨?_, ?_⟩
  · show Mirrors W _ (proc' e.1 c'.shared (c'.loc e.1) e.2).1
    rw [← hloc]
    exact hshared
  · show Function.update c.loc e.1 _ = Function.update c'.loc e.1 _
    rw [← hloc, hpc]

/-- So does a turn. -/
theorem JointMirrors.turn {proc : ι → FileTree × P → FileTree × P}
    {proc' : ι → Disk OsStr Empty × P → Disk OsStr Empty × P} {c : Joint ι FileTree P}
    {c' : Joint ι (Disk OsStr Empty) P}
    (hproc : ∀ i t d p, Mirrors W t d →
      (proc i (t, p)).2 = (proc' i (d, p)).2 ∧ Mirrors W (proc i (t, p)).1 (proc' i (d, p)).1)
    (h : JointMirrors W c c') (i : ι) :
    JointMirrors W (Interleaving.turn proc c i) (Interleaving.turn proc' c' i) := by
  obtain ⟨hpc, hshared⟩ := hproc i c.shared c'.shared (c.loc i) h.shared
  have hloc := h.loc
  refine ⟨?_, ?_⟩
  · show Mirrors W _ (proc' i (c'.shared, c'.loc i)).1
    rw [← hloc]
    exact hshared
  · show Function.update c.loc i _ = Function.update c'.loc i _
    rw [← hloc, hpc]

/-- **A race on a tree is the race on the disk it looks like**: whatever the calls, the order
of their steps and the failures, all calls are in the same places, and every name is bound
alike. -/
theorem streamRace_mirrors (hstores : StoresIn W final) (hR : Mirrors W t d)
    (calls : ι → StoreCall) (es : List (ι × Option Errno)) :
    JointMirrors W
      (run (streamRaceStep (fun _ => treeTarget (fun _ _ => none) final) calls)
        ⟨t, fun _ => .start⟩ es)
      (run (raceStep calls final) ⟨d, fun _ => .start⟩ es) := by
  have hstep : ∀ c c' e, JointMirrors W c c' →
      JointMirrors W (streamRaceStep (fun _ => treeTarget (fun _ _ => none) final) calls c e)
        (raceStep calls final c' e) := fun _ _ e h =>
    h.step (fun i _ _ p a hR =>
      hstores.storeStep (calls i).startPos (calls i).input hR p a) e
  exact run_related hstep ⟨hR, rfl⟩ es

/-- So is a race of encrypted uploads. -/
theorem uploadRace_mirrors {age : Age} (hstores : StoresIn W final) (hR : Mirrors W t d)
    (calls : ι → EncryptCall age) (es : List (ι × Option Errno)) :
    JointMirrors W
      (run (uploadRaceStep (fun _ => treeTarget (fun _ _ => none) final) calls)
        ⟨t, fun _ => .start⟩ es)
      (run (encryptedRaceStep calls final) ⟨d, fun _ => .start⟩ es) := by
  have hstep : ∀ c c' e, JointMirrors W c c' →
      JointMirrors W (uploadRaceStep (fun _ => treeTarget (fun _ _ => none) final) calls c e)
        (encryptedRaceStep calls final c' e) := fun _ _ e h =>
    h.step (fun i _ _ p a hR => hstores.encryptedStep (calls i).out hR p a) e
  exact run_related hstep ⟨hR, rfl⟩ es

end Runs

/-! ## Attempts one after the other -/

section Attempts
variable {W : Set Loc} {t : FileTree} {d : Disk OsStr Empty} {final : OsStr} {age : Age}

/-- One event of a series of attempts on a tree, with the current call and its place. -/
def treeAttempt (final : OsStr) (x : FileTree × StoreCall × StorePc Nat) :
    AttemptEvent → FileTree × StoreCall × StorePc Nat
  | .begin call => (x.1, call, .start)
  | .step fault =>
      let r := storeStep (treeTarget (fun _ _ => none) final) x.2.1.startPos x.2.1.input x.1 x.2.2
        (fault.map Subtype.val)
      (r.1, x.2.1, r.2)

/-- The same of encrypted uploads. -/
def treeRetry (final : OsStr) (x : FileTree × EncryptCall age × EncryptPc Nat) :
    RetryEvent age → FileTree × EncryptCall age × EncryptPc Nat
  | .begin call => (x.1, call, .start)
  | .step fault =>
      let r := encryptedStep (treeTarget (fun _ _ => none) final) x.2.1.out x.1 x.2.2 fault
      (r.1, x.2.1, r.2)

/-- The attempts on a tree have come as far as those on a disk that it looks like. -/
def AttemptMirrors (W : Set Loc) (x : FileTree × StoreCall × StorePc Nat) (w : Attempts Empty) :
    Prop :=
  Mirrors W x.1 w.disk ∧ x.2 = (w.call, w.pc)

/-- So have those of encrypted uploads. -/
def RetryMirrors (W : Set Loc) (x : FileTree × EncryptCall age × EncryptPc Nat)
    (w : Retries age Empty) : Prop :=
  Mirrors W x.1 w.disk ∧ x.2 = (w.call, w.pc)

/-- **Attempts on a tree are those on the disk it looks like**, wherever they fail or are cut
off. -/
theorem attempts_mirrors (hstores : StoresIn W final) (hR : Mirrors W t d) (call : StoreCall)
    (es : List AttemptEvent) :
    AttemptMirrors W (run (treeAttempt final) (t, call, .start) es)
      (run (Attempts.step final) (Attempts.init d call) es) := by
  refine run_related (R := AttemptMirrors W) (fun x w e h => ?_) ⟨hR, rfl⟩ es
  obtain ⟨s, call, p⟩ := x
  obtain ⟨hR, hx⟩ := h
  obtain ⟨rfl, rfl⟩ := Prod.mk.inj hx
  cases e with
  | begin call => exact ⟨hR, rfl⟩
  | step fault =>
      obtain ⟨hpc, hR'⟩ :=
        hstores.storeStep w.call.startPos w.call.input hR w.pc (fault.map Subtype.val)
      exact ⟨hR', Prod.ext rfl hpc⟩

/-- So are those of encrypted uploads. -/
theorem retries_mirrors (hstores : StoresIn W final) (hR : Mirrors W t d) (call : EncryptCall age)
    (es : List (RetryEvent age)) :
    RetryMirrors W (run (treeRetry final) (t, call, .start) es)
      (run (Retries.step final) (Retries.init d call) es) := by
  refine run_related (R := RetryMirrors W) (fun x w e h => ?_) ⟨hR, rfl⟩ es
  obtain ⟨s, call, p⟩ := x
  obtain ⟨hR, hx⟩ := h
  obtain ⟨rfl, rfl⟩ := Prod.mk.inj hx
  cases e with
  | begin call => exact ⟨hR, rfl⟩
  | step fault =>
      obtain ⟨hpc, hR'⟩ := hstores.encryptedStep w.call.out hR w.pc fault
      exact ⟨hR', Prod.ext rfl hpc⟩

end Attempts

end Reoftpd
