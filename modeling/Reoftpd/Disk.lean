import Mathlib.Data.List.AList

/-!
# Names bound to inodes

A disk as a file system implements it: directory entries bind names to inodes,
and the bytes and the modification time of a file belong to its inode.  Two names
may be bound to one inode (hard links), a handle opened through a name keeps its
inode when the name is removed, and a new file gets an inode number never used
before.

The names `N` are arbitrary.  Over whole paths they are locations of a directory
tree; over a handful of names they are the names that matter to one program.  The
targets `T` of symbolic links are arbitrary too: resolving them is not the disk's
business, and `Disk N Empty` has none.
-/

/-- The error kinds a file operation fails with.  `nulByte` is the refusal of a path
with a NUL in it, and `custom` an error the program makes itself; neither has a code of
the operating system. -/
inductive Errno where
  | notFound
  | notADirectory
  | isADirectory
  | alreadyExists
  | directoryNotEmpty
  | filesystemLoop
  | other (code : Nat)
  | nulByte
  | custom
  deriving DecidableEq, Repr

/-- The contents of a file. -/
abbrev Bytes := List UInt8

/-- What a name is bound to. -/
inductive Entry (T : Type) where
  | dir
  | file (ino : Nat)
  | link (target : T)
  deriving DecidableEq

/-- Whether an entry is a directory. -/
def Entry.isDir {T : Type} : Entry T → Bool
  | .dir => true
  | _ => false

/-- A disk.  `fresh` is above every inode number in use (`file_lt_fresh`), `clock`
is the time a write stamps, and `dirSize` is the length reported for a directory. -/
structure Disk (N T : Type) [DecidableEq N] where
  entries : AList (fun _ : N => Entry T)
  data : Nat → Bytes
  modified : Nat → Nat
  clock : Nat
  dirSize : Nat
  fresh : Nat
  file_lt_fresh : ∀ n i, entries.lookup n = some (.file i) → i < fresh

namespace Disk
variable {N T : Type} [DecidableEq N]

/-- A disk with no names. -/
def blank : Disk N T :=
  ⟨∅, fun _ => [], fun _ => 0, 0, 4096, 0, fun _ _ h => by simp at h⟩

/-- What the name `n` is bound to. -/
def lookup (d : Disk N T) (n : N) : Option (Entry T) := d.entries.lookup n

/-- The inode the name `n` is bound to, if it names a file. -/
def ino (d : Disk N T) (n : N) : Option Nat :=
  match d.lookup n with
  | some (.file i) => some i
  | _ => none

/-- The bytes at the name `n`, if it names a file. -/
def read (d : Disk N T) (n : N) : Option Bytes := (d.ino n).map d.data

theorem ino_eq_some {d : Disk N T} {n : N} {i : Nat} :
    d.ino n = some i ↔ d.lookup n = some (.file i) := by
  unfold ino
  split
  · rename_i j h
    simp [h]
  · rename_i h
    simp only [reduceCtorEq, false_iff]
    exact h i

theorem ino_of_lookup {d : Disk N T} {n : N} {i : Nat} (h : d.lookup n = some (.file i)) :
    d.ino n = some i :=
  ino_eq_some.mpr h

theorem ino_congr {d d' : Disk N T} {n : N} (h : d'.lookup n = d.lookup n) :
    d'.ino n = d.ino n := by
  unfold ino
  rw [h]

theorem ino_lt_fresh {d : Disk N T} {n : N} {i : Nat} (h : d.ino n = some i) : i < d.fresh :=
  d.file_lt_fresh n i (ino_eq_some.mp h)

theorem read_eq_some {d : Disk N T} {n : N} {b : Bytes} :
    d.read n = some b ↔ ∃ i, d.ino n = some i ∧ d.data i = b := by
  simp [read, Option.map_eq_some_iff]

/-! ## Operations -/

/-- Replace the bytes of an inode; its modification time becomes the clock. -/
def setData (d : Disk N T) (i : Nat) (b : Bytes) : Disk N T :=
  { d with
    data := Function.update d.data i b
    modified := Function.update d.modified i d.clock }

/-- Bind `n` to an entry whose inode, if it is a file, is in use. -/
def bind (d : Disk N T) (n : N) (e : Entry T) (he : ∀ i, e = .file i → i < d.fresh) : Disk N T :=
  { d with
    entries := d.entries.insert n e
    file_lt_fresh := by
      intro m i hm
      by_cases h : m = n
      · subst h
        rw [AList.lookup_insert] at hm
        exact he i (Option.some.inj hm)
      · rw [AList.lookup_insert_ne h] at hm
        exact d.file_lt_fresh m i hm }

/-- Remove the name `n`. -/
def erase (d : Disk N T) (n : N) : Disk N T :=
  { d with
    entries := d.entries.erase n
    file_lt_fresh := by
      intro m i hm
      by_cases h : m = n
      · subst h
        rw [AList.lookup_erase] at hm
        cases hm
      · rw [AList.lookup_erase_ne h] at hm
        exact d.file_lt_fresh m i hm }

/-- Bind `n` to a new empty file, whose inode number is `d.fresh`. -/
def create (d : Disk N T) (n : N) : Disk N T :=
  bind
    { d with
      data := Function.update d.data d.fresh []
      modified := Function.update d.modified d.fresh d.clock
      fresh := d.fresh + 1
      file_lt_fresh := fun m i hm => Nat.lt_succ_of_lt (d.file_lt_fresh m i hm) }
    n (.file d.fresh) (by rintro i ⟨⟩; exact Nat.lt_succ_self _)

/-- `open(n, O_APPEND | O_CREAT)`: the inode the handle is on.  A link here is one
that name resolution has already refused to follow. -/
def openAppend (d : Disk N T) (n : N) : Except Errno (Disk N T × Nat) :=
  match d.lookup n with
  | none => .ok (d.create n, d.fresh)
  | some (.file i) => .ok (d, i)
  | some .dir => .error .isADirectory
  | some (.link _) => .error .filesystemLoop

/-- `open(n, O_WRONLY | O_CREAT | O_TRUNC)`: an existing file loses its bytes, and
every other name of its inode with it. -/
def openTruncate (d : Disk N T) (n : N) : Except Errno (Disk N T × Nat) :=
  match d.lookup n with
  | none => .ok (d.create n, d.fresh)
  | some (.file i) => .ok (d.setData i [], i)
  | some .dir => .error .isADirectory
  | some (.link _) => .error .filesystemLoop

/-- One write through an append handle. -/
def append (d : Disk N T) (i : Nat) (b : Bytes) : Disk N T := d.setData i (d.data i ++ b)

/-- `old` with `b` written at offset `off`; a gap reads as zeros. -/
def overwrite (old : Bytes) (off : Nat) (b : Bytes) : Bytes :=
  if b = [] then old
  else old.take off ++ List.replicate (off - old.length) 0 ++ b ++ old.drop (off + b.length)

@[simp] theorem overwrite_nil (old : Bytes) (off : Nat) : overwrite old off [] = old := rfl

/-- A write at the end of the file appends. -/
theorem overwrite_length (old b : Bytes) : overwrite old old.length b = old ++ b := by
  unfold overwrite
  split
  · rename_i h
    rw [h, List.append_nil]
  · simp

/-- One write through a handle that keeps its own offset. -/
def writeAt (d : Disk N T) (i off : Nat) (b : Bytes) : Disk N T :=
  d.setData i (overwrite (d.data i) off b)

/-- `link(src, dst)`: a second name for what `src` is bound to; never replaces `dst`. -/
def hardLink (d : Disk N T) (src dst : N) : Except Errno (Disk N T) :=
  match hs : d.lookup src with
  | none => .error .notFound
  | some e =>
      match d.lookup dst with
      | some _ => .error .alreadyExists
      | none =>
          if e.isDir then .error (.other 1)
          else .ok (d.bind dst e (fun i hi => d.file_lt_fresh src i (hi ▸ hs)))

/-- `unlink(n)`: directories are refused. -/
def unlink (d : Disk N T) (n : N) : Except Errno (Disk N T) :=
  match d.lookup n with
  | none => .error .notFound
  | some .dir => .error .isADirectory
  | some _ => .ok (d.erase n)

/-- `unlink(n)` whose result nobody looks at. -/
def discard (d : Disk N T) (n : N) : Disk N T :=
  match d.unlink n with
  | .ok d' => d'
  | .error _ => d

/-- Bind `n` to a new directory. -/
def mkdir (d : Disk N T) (n : N) : Except Errno (Disk N T) :=
  match d.lookup n with
  | none => .ok (d.bind n .dir (by rintro i ⟨⟩))
  | some _ => .error .alreadyExists

/-! ## What each operation changes -/

section Facts
variable {d d' : Disk N T} {n m : N} {i : Nat} {e : Entry T}

@[simp] theorem lookup_setData (j : Nat) (b : Bytes) : (d.setData j b).lookup n = d.lookup n := rfl

@[simp] theorem ino_setData (j : Nat) (b : Bytes) : (d.setData j b).ino n = d.ino n := rfl

@[simp] theorem fresh_setData (j : Nat) (b : Bytes) : (d.setData j b).fresh = d.fresh := rfl

@[simp] theorem data_setData_self (b : Bytes) : (d.setData i b).data i = b :=
  Function.update_self ..

theorem data_setData_ne {j : Nat} (b : Bytes) (h : i ≠ j) : (d.setData j b).data i = d.data i :=
  Function.update_of_ne h ..

theorem modified_setData_self (b : Bytes) : (d.setData i b).modified i = d.clock :=
  Function.update_self ..

theorem modified_setData_ne {j : Nat} (b : Bytes) (h : i ≠ j) :
    (d.setData j b).modified i = d.modified i :=
  Function.update_of_ne h ..

@[simp] theorem lookup_bind_self (he) : (d.bind n e he).lookup n = some e :=
  AList.lookup_insert ..

theorem lookup_bind_ne (he) (h : m ≠ n) : (d.bind n e he).lookup m = d.lookup m :=
  AList.lookup_insert_ne h

@[simp] theorem data_bind (he) : (d.bind n e he).data = d.data := rfl

@[simp] theorem fresh_bind (he) : (d.bind n e he).fresh = d.fresh := rfl

@[simp] theorem lookup_erase_self : (d.erase n).lookup n = none := AList.lookup_erase ..

theorem lookup_erase_ne (h : m ≠ n) : (d.erase n).lookup m = d.lookup m :=
  AList.lookup_erase_ne h

@[simp] theorem data_erase : (d.erase n).data = d.data := rfl

@[simp] theorem fresh_erase : (d.erase n).fresh = d.fresh := rfl

@[simp] theorem lookup_create_self : (d.create n).lookup n = some (.file d.fresh) :=
  lookup_bind_self ..

theorem lookup_create_ne (h : m ≠ n) : (d.create n).lookup m = d.lookup m :=
  lookup_bind_ne _ h

@[simp] theorem data_create_self : (d.create n).data d.fresh = [] :=
  Function.update_self ..

theorem data_create_ne (h : i ≠ d.fresh) : (d.create n).data i = d.data i :=
  Function.update_of_ne h ..

theorem modified_create_self : (d.create n).modified d.fresh = d.clock :=
  Function.update_self ..

theorem modified_create_ne (h : i ≠ d.fresh) : (d.create n).modified i = d.modified i :=
  Function.update_of_ne h ..

@[simp] theorem fresh_create : (d.create n).fresh = d.fresh + 1 := rfl

/-- A name removed or bound elsewhere is bound as before at every other name. -/
theorem ino_erase_ne (h : m ≠ n) : (d.erase n).ino m = d.ino m := ino_congr (lookup_erase_ne h)

theorem ino_create_ne (h : m ≠ n) : (d.create n).ino m = d.ino m := ino_congr (lookup_create_ne h)

/-- An append open either finds a file or makes a new, empty one. -/
theorem openAppend_ok (h : d.openAppend n = .ok (d', i)) :
    d.lookup n = some (.file i) ∧ d' = d ∨
      d.lookup n = none ∧ d' = d.create n ∧ i = d.fresh := by
  unfold openAppend at h
  split at h
  · rename_i hn
    cases h
    exact Or.inr ⟨hn, rfl, rfl⟩
  · rename_i j hn
    cases h
    exact Or.inl ⟨hn, rfl⟩
  · cases h
  · cases h

/-- A truncating open either empties a file or makes a new, empty one. -/
theorem openTruncate_ok (h : d.openTruncate n = .ok (d', i)) :
    d.lookup n = some (.file i) ∧ d' = d.setData i [] ∨
      d.lookup n = none ∧ d' = d.create n ∧ i = d.fresh := by
  unfold openTruncate at h
  split at h
  · rename_i hn
    cases h
    exact Or.inr ⟨hn, rfl, rfl⟩
  · rename_i j hn
    cases h
    exact Or.inl ⟨hn, rfl⟩
  · cases h
  · cases h

/-- A link that succeeds binds an absent name to what the source is bound to, and
changes nothing else. -/
theorem hardLink_ok {src dst : N} (h : d.hardLink src dst = .ok d') :
    ∃ e he, d.lookup src = some e ∧ d.lookup dst = none ∧ e.isDir = false ∧
      d' = d.bind dst e he := by
  unfold hardLink at h
  split at h
  · cases h
  · rename_i e hs
    split at h
    · cases h
    · rename_i hd
      split at h
      · cases h
      · rename_i hdir
        cases h
        exact ⟨e, _, hs, hd, by simpa using hdir, rfl⟩

theorem hardLink_notFound {src dst : N} (hs : d.lookup src = none) :
    d.hardLink src dst = .error .notFound := by
  unfold hardLink
  split
  · rfl
  · rename_i hs'
    rw [hs] at hs'
    cases hs'

/-- Linking a file to an absent name succeeds. -/
theorem hardLink_file {src dst : N} (hs : d.lookup src = some (.file i))
    (hd : d.lookup dst = none) : ∃ d', d.hardLink src dst = .ok d' := by
  unfold hardLink
  split
  · rename_i hs'
    rw [hs] at hs'
    cases hs'
  · rename_i e hs'
    obtain rfl : Entry.file i = e := Option.some.inj (hs.symm.trans hs')
    rw [hd]
    exact ⟨_, rfl⟩

theorem unlink_ok (h : d.unlink n = .ok d') :
    d' = d.erase n ∧ ∃ e, d.lookup n = some e ∧ e.isDir = false := by
  unfold unlink at h
  split at h
  · cases h
  · cases h
  · rename_i e hdir hn
    cases h
    refine ⟨rfl, e, hn, ?_⟩
    cases e with
    | dir => exact absurd rfl hdir
    | file _ => rfl
    | link _ => rfl

theorem discard_cases (d : Disk N T) (n : N) : d.discard n = d ∨ d.discard n = d.erase n := by
  unfold discard
  cases h : d.unlink n with
  | ok d' => exact Or.inr (unlink_ok h).1
  | error e => exact Or.inl rfl

/-- A name bound to a file is gone after the removal. -/
theorem discard_file (h : d.lookup n = some (.file i)) : d.discard n = d.erase n := by
  simp [discard, unlink, h]

/-- The removal of an absent name changes nothing. -/
theorem discard_absent (h : d.lookup n = none) : d.discard n = d := by
  simp [discard, unlink, h]

/-- A removed name leaves the bytes at every other name. -/
theorem read_discard_ne (h : m ≠ n) : (d.discard n).read m = d.read m := by
  rcases d.discard_cases n with hd | hd <;> rw [hd]
  rw [read, read, ino_erase_ne h, data_erase]

theorem mkdir_ok (h : d.mkdir n = .ok d') :
    d.lookup n = none ∧ ∃ he, d' = d.bind n .dir he := by
  unfold mkdir at h
  split at h
  · rename_i hn
    cases h
    exact ⟨hn, _, rfl⟩
  · cases h

end Facts

end Disk
