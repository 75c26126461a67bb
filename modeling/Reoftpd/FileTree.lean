import Reoftpd.Walk

/-!
# Directory trees

A file system as a program sees it through its calls: a disk whose names are the
locations of a tree, resolved from the text of a path by walking it.  The invariants of
a tree are fields, so every operation keeps them: the root is a directory, whatever is
bound lies in a directory, and every name is one that a directory entry can have.

Permissions, times of access and the times of directories are left out; so are failures
of the device, which the programs over a tree take as oracles.  `canonicalize` and the
calls that only look fail for no reason but what the tree holds.
-/

/-- The character no path may hold. -/
def nul : OsChar := .chr (Char.ofNat 0)

/-- A name a directory entry can have. -/
def IsFileName (s : OsStr) : Prop := UnixPath.IsName s ∧ nul ∉ s

instance (s : OsStr) : Decidable (IsFileName s) := inferInstanceAs (Decidable (_ ∧ _))

/-- A directory tree, and the working directory paths are relative to. -/
structure FileTree where
  disk : Disk Loc OsStr
  cwd : Loc
  root_dir : disk.lookup [] = some .dir
  parent_dir : ∀ M a, disk.lookup (M ++ [a]) ≠ none → disk.lookup M = some .dir
  fileNames : ∀ L, disk.lookup L ≠ none → ∀ s ∈ L, IsFileName s
  targets : ∀ L target, disk.lookup L = some (.link target) → nul ∉ target

/-- What `metadata` says of an entry. -/
structure FileStat where
  isDir : Bool
  isFile : Bool
  isSymlink : Bool
  len : Nat
  modified : Nat
  deriving DecidableEq

namespace FileTree
open UnixPath

/-- A tree that is nothing but its root. -/
def bare : FileTree where
  disk := Disk.blank.bind [] .dir (by rintro i ⟨⟩)
  cwd := []
  root_dir := Disk.lookup_bind_self _
  parent_dir M a h := by
    rw [Disk.lookup_bind_ne _ (by simp)] at h
    exact absurd rfl h
  fileNames L h := by
    by_cases hL : L = []
    · subst hL
      exact fun s hs => absurd hs List.not_mem_nil
    · rw [Disk.lookup_bind_ne _ hL] at h
      exact absurd rfl h
  targets L target h := by
    by_cases hL : L = []
    · subst hL
      rw [Disk.lookup_bind_self] at h
      cases h
    · rw [Disk.lookup_bind_ne _ hL] at h
      cases h

variable (t : FileTree)

/-- What is bound at a location. -/
def entry (L : Loc) : Option (Entry OsStr) := t.disk.lookup L

/-! ## Resolving paths -/

/-- The most links a walk follows. -/
def maxSymlinks : Nat := 40

/-- Where the walk of a path begins; a removed working directory is nowhere. -/
def start (p : OsStr) : Except Errno Loc :=
  if isAbsolute p then .ok []
  else if t.entry t.cwd = some .dir then .ok t.cwd
  else .error .notFound

/-- Where the segments `l` of the path `p` lead.  The location need not be bound. -/
def locateSteps (followLast : Bool) (p : OsStr) (l : List OsStr) : Except Errno Loc :=
  if p = [] then .error .notFound
  else if nul ∈ p then .error .nulByte
  else
    match t.start p with
    | .ok here => walk t.entry followLast maxSymlinks here l
    | .error e => .error e

/-- Where a path leads. -/
def locate (followLast : Bool) (p : OsStr) : Except Errno Loc :=
  t.locateSteps followLast p (steps p)

/-- What a path names, and where it is. -/
def find (followLast : Bool) (p : OsStr) : Except Errno (Loc × Entry OsStr) :=
  match t.locate followLast p with
  | .error e => .error e
  | .ok L =>
      match t.entry L with
      | none => .error .notFound
      | some e => .ok (L, e)

/-- `realpath`. -/
def canonicalize (p : OsStr) : Except Errno OsStr :=
  match t.find true p with
  | .ok (L, _) => .ok (locText L)
  | .error e => .error e

/-! ## Looking -/

/-- The stat of an entry. -/
def statOf : Entry OsStr → FileStat
  | .dir => ⟨true, false, false, t.disk.dirSize, 0⟩
  | .file i => ⟨false, true, false, (t.disk.data i).length, t.disk.modified i⟩
  | .link target => ⟨false, false, true, target.length, 0⟩

/-- `metadata`: links are followed. -/
def metadata (p : OsStr) : Except Errno FileStat :=
  match t.find true p with
  | .ok (_, e) => .ok (t.statOf e)
  | .error e => .error e

/-- `symlink_metadata`: a link at the end is not followed. -/
def symlinkMetadata (p : OsStr) : Except Errno FileStat :=
  match t.find false p with
  | .ok (_, e) => .ok (t.statOf e)
  | .error e => .error e

/-- `try_exists`: only an absence counts as one. -/
def tryExists (p : OsStr) : Except Errno Bool :=
  match t.find true p with
  | .ok _ => .ok true
  | .error .notFound => .ok false
  | .error e => .error e

/-- `is_dir`. -/
def isDir (p : OsStr) : Bool :=
  match t.find true p with
  | .ok (_, .dir) => true
  | _ => false

/-- The inode a path names, if it names a file. -/
def fileAt (p : OsStr) : Option Nat :=
  match t.find true p with
  | .ok (_, .file i) => some i
  | _ => none

/-- The bytes of the file a path names. -/
def readFile (p : OsStr) : Except Errno Bytes :=
  match t.find true p with
  | .ok (_, .file i) => .ok (t.disk.data i)
  | .ok (_, .dir) => .error .isADirectory
  | .ok (_, .link _) => .error .filesystemLoop
  | .error e => .error e

/-- The names bound in a directory. -/
def children (L : Loc) : List OsStr :=
  t.disk.entries.keys.filterMap fun M =>
    match M.getLast? with
    | some s => if M.dropLast = L then some s else none
    | none => none

/-- `read_dir`, in the order the entries are stored. -/
def readDir (p : OsStr) : Except Errno (List OsStr) :=
  match t.find true p with
  | .ok (L, .dir) => .ok (t.children L)
  | .ok _ => .error .notADirectory
  | .error e => .error e

/-! ## Changing the tree at a location -/

/-- A location a new name can be bound at: an absent name in a directory. -/
def Vacant (L : Loc) : Prop :=
  L ≠ [] ∧ t.entry L = none ∧ t.entry L.dropLast = some .dir ∧ ∀ s ∈ L, IsFileName s

instance (L : Loc) : Decidable (t.Vacant L) := inferInstanceAs (Decidable (_ ∧ _ ∧ _ ∧ _))

/-- A location whose name can be removed: nothing lies in it. -/
def Childless (L : Loc) : Prop := L ≠ [] ∧ t.children L = []

instance (L : Loc) : Decidable (t.Childless L) := inferInstanceAs (Decidable (_ ∧ _))

theorem rooted : Rooted t.entry := ⟨t.root_dir, t.parent_dir⟩

theorem mem_keys {M : Loc} : M ∈ t.disk.entries.keys ↔ t.entry M ≠ none := by
  rw [entry, Disk.lookup, ← AList.mem_keys, ← AList.lookup_isSome, Option.isSome_iff_ne_none]

theorem mem_children {L : Loc} {s : OsStr} : s ∈ t.children L ↔ t.entry (L ++ [s]) ≠ none := by
  simp only [children, List.mem_filterMap, mem_keys]
  constructor
  · rintro ⟨M, hM, h⟩
    split at h
    · rename_i a ha
      split at h
      · rename_i hL
        obtain rfl := Option.some.inj h
        rw [← hL, List.dropLast_append_getLast? _ ha]
        exact hM
      · cases h
    · cases h
  · intro h
    exact ⟨L ++ [s], h, by simp⟩

/-- The tree with a disk that differs by one new name. -/
def withNew (d : Disk Loc OsStr) {L : Loc} (e : Entry OsStr) (hL : t.Vacant L)
    (hself : d.lookup L = some e) (hne : ∀ M, M ≠ L → d.lookup M = t.disk.lookup M)
    (he : ∀ target, e = .link target → nul ∉ target) : FileTree where
  disk := d
  cwd := t.cwd
  root_dir := (hne [] hL.1.symm).trans t.root_dir
  parent_dir M a h := by
    have hM : t.disk.lookup M = some .dir := by
      by_cases hMa : M ++ [a] = L
      · rw [← hMa, Vacant, List.dropLast_concat] at hL
        exact hL.2.2.1
      · exact t.parent_dir M a (hne _ hMa ▸ h)
    have hML : M ≠ L := by
      rintro rfl
      exact absurd (hL.2.1.symm.trans hM) (by simp)
    rw [hne M hML, hM]
  fileNames M h := by
    by_cases hM : M = L
    · exact hM ▸ hL.2.2.2
    · exact t.fileNames M (hne M hM ▸ h)
  targets M target h := by
    by_cases hM : M = L
    · subst hM
      exact he target (Option.some.inj (hself.symm.trans h))
    · exact t.targets M target (hne M hM ▸ h)

/-- Bind a vacant location to a new directory. -/
def mkdirAt (L : Loc) : FileTree :=
  if h : t.Vacant L then
    t.withNew (t.disk.bind L .dir (by rintro i ⟨⟩)) .dir h (Disk.lookup_bind_self _)
      (fun _ => Disk.lookup_bind_ne _) (by rintro target ⟨⟩)
  else t

/-- Bind a vacant location to a new empty file, on the inode `t.disk.fresh`. -/
def createAt (L : Loc) : FileTree :=
  if h : t.Vacant L then
    t.withNew (t.disk.create L) (.file t.disk.fresh) h Disk.lookup_create_self
      (fun _ => Disk.lookup_create_ne) (by rintro target ⟨⟩)
  else t

/-- Bind a vacant location to what another one is bound to. -/
def linkAt (S L : Loc) : FileTree :=
  match hS : t.disk.lookup S with
  | none => t
  | some e =>
      if h : t.Vacant L then
        t.withNew (t.disk.bind L e fun i hi => t.disk.file_lt_fresh S i (hi ▸ hS)) e h
          (Disk.lookup_bind_self _) (fun _ => Disk.lookup_bind_ne _)
          (fun target he => t.targets S target (he ▸ hS))
      else t

/-- Bind a vacant location to a new symbolic link. -/
def symlinkAt (L : Loc) (target : OsStr) : FileTree :=
  if h : t.Vacant L ∧ nul ∉ target then
    t.withNew (t.disk.bind L (.link target) (by rintro i ⟨⟩)) (.link target) h.1
      (Disk.lookup_bind_self _) (fun _ => Disk.lookup_bind_ne _) (by rintro _ ⟨⟩; exact h.2)
  else t

/-- Remove a childless name. -/
def eraseAt (L : Loc) : FileTree :=
  if h : t.Childless L then
    { t with
      disk := t.disk.erase L
      root_dir := (Disk.lookup_erase_ne h.1.symm).trans t.root_dir
      parent_dir := by
        intro M a hMa
        have hne : M ++ [a] ≠ L := by
          rintro rfl
          exact hMa Disk.lookup_erase_self
        rw [Disk.lookup_erase_ne hne] at hMa
        have hML : M ≠ L := by
          rintro rfl
          have hmem := t.mem_children.mpr hMa
          rw [h.2] at hmem
          cases hmem
        rw [Disk.lookup_erase_ne hML]
        exact t.parent_dir M a hMa
      fileNames := by
        intro M hM
        have hne : M ≠ L := by
          rintro rfl
          exact hM Disk.lookup_erase_self
        exact t.fileNames M (Disk.lookup_erase_ne hne ▸ hM)
      targets := by
        intro M target hM
        have hne : M ≠ L := by
          rintro rfl
          rw [Disk.lookup_erase_self] at hM
          cases hM
        exact t.targets M target (Disk.lookup_erase_ne hne ▸ hM) }
  else t

/-- Replace the bytes of an inode. -/
def setData (i : Nat) (b : Bytes) : FileTree := { t with disk := t.disk.setData i b }

/-- The same tree at another time. -/
def atTime (now : Nat) : FileTree := { t with disk := { t.disk with clock := now } }

/-- One write through an append handle. -/
def append (i : Nat) (b : Bytes) : FileTree := t.setData i (t.disk.data i ++ b)

/-- One write through a handle that keeps its own offset. -/
def writeAt (i off : Nat) (b : Bytes) : FileTree :=
  t.setData i (Disk.overwrite (t.disk.data i) off b)

/-! ## Calls on paths -/

/-- `mkdir`: a separator at the end of the path asks for nothing more. -/
def mkdir (p : OsStr) : Except Errno FileTree :=
  match t.locateSteps false p (segments p) with
  | .error e => .error e
  | .ok L =>
      match t.entry L with
      | some _ => .error .alreadyExists
      | none => .ok (t.mkdirAt L)

/-- The open that both kinds of writers make: what is there, or a new file. -/
def openFile (p : OsStr) : Except Errno (FileTree × Nat) :=
  if endsWithSep p then .error .isADirectory
  else
    match t.locate true p with
    | .error e => .error e
    | .ok L =>
        match t.entry L with
        | none => .ok (t.createAt L, t.disk.fresh)
        | some (.file i) => .ok (t, i)
        | some .dir => .error .isADirectory
        | some (.link _) => .error .filesystemLoop

/-- `open(p, O_APPEND | O_CREAT)`. -/
def openAppend (p : OsStr) : Except Errno (FileTree × Nat) := t.openFile p

/-- `open(p, O_WRONLY | O_CREAT | O_TRUNC)`. -/
def openTruncate (p : OsStr) : Except Errno (FileTree × Nat) :=
  match t.openFile p with
  | .ok (t', i) => .ok (t'.setData i [], i)
  | .error e => .error e

/-- `link(src, dst)`: a link at the end of either path is not followed. -/
def hardLink (src dst : OsStr) : Except Errno FileTree :=
  match t.find false src with
  | .error e => .error e
  | .ok (S, e) =>
      match t.locate false dst with
      | .error e => .error e
      | .ok D =>
          match t.entry D with
          | some _ => .error .alreadyExists
          | none =>
              if endsWithSep dst then .error .notFound
              else if e.isDir then .error (.other 1)
              else .ok (t.linkAt S D)

/-- `unlink`. -/
def removeFile (p : OsStr) : Except Errno FileTree :=
  match t.find false p with
  | .error e => .error e
  | .ok (_, .dir) => .error .isADirectory
  | .ok (L, _) => .ok (t.eraseAt L)

/-- `unlink` whose result nobody looks at. -/
def discard (p : OsStr) : FileTree :=
  match t.removeFile p with
  | .ok t' => t'
  | .error _ => t

/-- `rmdir`: only an empty directory goes. -/
def removeDir (p : OsStr) : Except Errno FileTree :=
  match t.find false p with
  | .error e => .error e
  | .ok (L, .dir) =>
      if L = [] then .error (.other 16)
      else if t.children L = [] then .ok (t.eraseAt L)
      else .error .directoryNotEmpty
  | .ok _ => .error .notADirectory

/-- Where a `mkdir` of `create_dir_all` fails by itself: at a path, on the first
attempt or on the one after its parents were made. -/
abbrev MkdirFault := Bool → OsStr → Option Errno

/-- `mkdir`, unless it fails by itself. -/
def tryMkdir (fault : MkdirFault) (again : Bool) (p : OsStr) : Except Errno FileTree :=
  match fault again p with
  | some e => .error e
  | none => t.mkdir p

/-- `create_dir_all` on a path and the rest of its ancestors. -/
def createDirs (fault : MkdirFault) : FileTree → List OsStr → FileTree × Except Errno Unit
  | t, [] => (t, .error .custom)
  | t, p :: above =>
      if p = [] then (t, .ok ())
      else
        match t.tryMkdir fault false p with
        | .ok t' => (t', .ok ())
        | .error .notFound =>
            match createDirs fault t above with
            | (t', .error e) => (t', .error e)
            | (t', .ok ()) =>
                match t'.tryMkdir fault true p with
                | .ok t'' => (t'', .ok ())
                | .error e => if t'.isDir p then (t', .ok ()) else (t', .error e)
        | .error e => if t.isDir p then (t, .ok ()) else (t, .error e)

/-- `create_dir_all`. -/
def createDirAll (fault : MkdirFault) (p : OsStr) : FileTree × Except Errno Unit :=
  createDirs fault t (ancestors p)

end FileTree
