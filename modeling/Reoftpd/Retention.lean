import Reoftpd.FileTreeFacts
import Reoftpd.StoreStream

/-!
# The retention sweep

`retention.rs` on a directory tree.  A sweep goes through a directory entry by entry,
into every subdirectory first, deletes the files that are older than the limit of their
kind and prunes the directories that are empty when it comes back to them.  Times and
limits are counted in one unit, whichever.  Every call may also fail by itself, as `fault`
says; `visit` gets a bound on the depth of its recursion, which the number of names in the
tree is (`RetentionExact`).

What a sweep does to the tree, whether it succeeds or not, it does by removing old files
and empty directories below its root (`SweepSpares`).
-/
namespace Reoftpd
open UnixPath FileTree

/-- `SweepReport`. -/
structure SweepReport where
  deleted : List OsStr
  prunedDirs : List OsStr
  deriving DecidableEq

/-- The arguments of a sweep other than its root. -/
structure SweepArgs where
  retention : Nat
  quarantineTtl : Nat
  stagingTtl : Nat
  now : Nat
  dryRun : Bool

/-- Where a call of a sweep fails by itself.  `nextEntry` is the call of `next` that is to give
the entry at the path, `noEntry` the one that is to find no further entry in the directory, and
`firstEntry` the one that looks whether the directory is empty now. -/
inductive SweepSite where
  | readDir
  | nextEntry
  | noEntry
  | fileType
  | stat
  | removeFile
  | reread
  | firstEntry
  | removeDir
  deriving DecidableEq

/-- The failures of a sweep: at a path, with an error. -/
abbrev SweepFault := SweepSite → OsStr → Option Errno

/-- The tree and the report of a sweep on its way. -/
structure Swept where
  tree : FileTree
  report : SweepReport

/-- `older_than`: a file that cannot be looked at, or that is from the future, is not. -/
def olderThan (fault : SweepFault) (t : FileTree) (path : OsStr) (ttl now : Nat) : Bool :=
  match attempt (fault .stat path) (t.metadata path) with
  | .ok stat => if stat.modified ≤ now then decide (ttl < now - stat.modified) else false
  | .error _ => false

/-- The limit for a file: a name that is not Unicode counts as no name. -/
def fileTtl (args : SweepArgs) (inQuarantine : Bool) (path : OsStr) : Nat :=
  if inQuarantine then args.quarantineTtl
  else if stagingSuffix.isSuffixOf (ofString (((fileName path).bind toStr).getD "")) then
    args.stagingTtl
  else args.retention

/-- What `visit` does with an entry that is no directory. -/
def sweepFile (args : SweepArgs) (fault : SweepFault) (inQuarantine : Bool) (path : OsStr)
    (s : Swept) : Swept × Except Errno Unit :=
  if olderThan fault s.tree path (fileTtl args inQuarantine path) args.now then
    let report := { s.report with deleted := s.report.deleted ++ [path] }
    if args.dryRun then (⟨s.tree, report⟩, .ok ())
    else
      match attempt (fault .removeFile path) (s.tree.removeFile path) with
      | .ok t => (⟨t, report⟩, .ok ())
      | .error e => (⟨s.tree, report⟩, .error e)
  else (s, .ok ())

/-- `remove_dir` whose result nobody looks at. -/
def discardDir (fault : SweepFault) (path : OsStr) (t : FileTree) : FileTree :=
  match attempt (fault .removeDir path) (t.removeDir path) with
  | .ok t' => t'
  | .error _ => t

/-- `next().is_none()`: an error is an item too. -/
def nextIsNone (fault : Option Errno) (names : List OsStr) : Bool :=
  names.isEmpty && fault.isNone

@[simp] theorem nextIsNone_cons (fault : Option Errno) (name : OsStr) (rest : List OsStr) :
    nextIsNone fault (name :: rest) = false := rfl

@[simp] theorem nextIsNone_nil (fault : Option Errno) : nextIsNone fault [] = fault.isNone := rfl

/-- What `visit` does with a directory it comes back from. -/
def pruneDir (args : SweepArgs) (fault : SweepFault) (path : OsStr) (s : Swept) :
    Swept × Except Errno Unit :=
  match attempt (fault .reread path) (s.tree.readDir path) with
  | .error e => (s, .error e)
  | .ok names =>
      if nextIsNone (fault .firstEntry path) names then
        let report := { s.report with prunedDirs := s.report.prunedDirs ++ [path] }
        (⟨if args.dryRun then s.tree else discardDir fault path s.tree, report⟩, .ok ())
      else (s, .ok ())

/-- What `visit` does with one entry; `visitDir` is the recursive call. -/
def visitEntry (args : SweepArgs) (fault : SweepFault)
    (visitDir : OsStr → Swept → Swept × Except Errno Unit) (inQuarantine : Bool) (path : OsStr)
    (s : Swept) : Swept × Except Errno Unit :=
  match attempt (fault .fileType path) (s.tree.symlinkMetadata path) with
  | .error e => (s, .error e)
  | .ok ft =>
      if ft.isDir then
        match visitDir path s with
        | (s', .error e) => (s', .error e)
        | (s', .ok ()) => pruneDir args fault path s'
      else sweepFile args fault inQuarantine path s

/-- The loop of `visit` over the entries of a directory; each comes from a call of `next`, and
so does the end. -/
def visitEntries (args : SweepArgs) (fault : SweepFault)
    (visitDir : OsStr → Swept → Swept × Except Errno Unit) (dir : OsStr) :
    List OsStr → Swept → Swept × Except Errno Unit
  | [], s => (s, attempt (fault .noEntry dir) (.ok ()))
  | name :: rest, s =>
      match fault .nextEntry (join dir name) with
      | some e => (s, .error e)
      | none =>
          match visitEntry args fault visitDir (fileName dir = some quarantineDir) (join dir name)
              s with
          | (s', .error e) => (s', .error e)
          | (s', .ok ()) => visitEntries args fault visitDir dir rest s'

/-- `visit`, to a depth of `fuel` directories. -/
def visit (args : SweepArgs) (fault : SweepFault) :
    Nat → OsStr → Swept → Swept × Except Errno Unit
  | 0, _, s => (s, .error .custom)
  | fuel + 1, dir, s =>
      match attempt (fault .readDir dir) (s.tree.readDir dir) with
      | .error e => (s, .error e)
      | .ok names => visitEntries args fault (visit args fault fuel) dir names s

/-- The number of names in a tree, which no path of directories is longer than. -/
def nameCount (t : FileTree) : Nat := t.disk.entries.keys.length

/-- `sweep`. -/
def sweep (args : SweepArgs) (fault : SweepFault) (root : OsStr) (t : FileTree) :
    FileTree × Except Errno SweepReport :=
  match visit args fault (nameCount t + 1) root ⟨t, ⟨[], []⟩⟩ with
  | (s, .ok ()) => (s.tree, .ok s.report)
  | (s, .error e) => (s.tree, .error e)

end Reoftpd
