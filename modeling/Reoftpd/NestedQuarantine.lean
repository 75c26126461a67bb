import Reoftpd.RetentionExact
import Reoftpd.StoredClips

/-!
# Quarantine below the first level

A sweep takes a file for a quarantined one when the directory that it lies in directly is
named `.quarantine`; every level of the recursion asks that again of its own directory, and
nothing is handed down.  An uploader may make directories in `.quarantine` and store files
in them, which the sweep then keeps as long as footage (`nested_file_kept`).

**The area is clean on its own limit exactly when** every file below a `.quarantine`
directory that is too old for quarantine lies directly in one, or is too old for the limit
of the files outside as well (`quarantine_clean_iff`).  That a sweep is exact carries this.
-/
namespace Reoftpd
open UnixPath FileTree

/-- The names `d` lead to a directory named `.quarantine`; the root may be called so by
its path, or by its place. -/
def QuarantineNamed (root : OsStr) (R d : Loc) : Prop :=
  dirName root d = some quarantineDir ∨ (R ++ d).getLast? = some quarantineDir

/-- The names `m` lead to something below a directory named `.quarantine`, however deep. -/
def BelowQuarantine (root : OsStr) (R m : Loc) : Prop :=
  ∃ d, d <+: m ∧ d ≠ m ∧ QuarantineNamed root R d

/-- No file that is older than the quarantine limit is below a `.quarantine` directory. -/
def QuarantineClean (args : SweepArgs) (root : OsStr) (R : Loc) (t : FileTree) : Prop :=
  ∀ m i, t.entry (R ++ m) = some (.file i) → BelowQuarantine root R m →
    ¬ args.quarantineTtl < args.now - t.disk.modified i

/-- The limit of a file that does not lie directly in a `.quarantine` directory. -/
def outsideLimit (args : SweepArgs) (m : Loc) : Nat :=
  if stagingSuffix.isSuffixOf (m.getLastD []) ∧ ∀ c ∈ m.getLastD [], c.char?.isSome then
    args.stagingTtl
  else args.retention

section Clean
variable {args : SweepArgs} {t : FileTree} {root : OsStr} {R m : Loc} {age : Nat}

/-- A file that is too old for quarantine goes if it lies directly in it, or is too old for
the limit outside. -/
theorem over_limit_iff (hold : args.quarantineTtl < age) :
    limit args root m < age ↔
      dirName root m.dropLast = some quarantineDir ∨ outsideLimit args m < age := by
  by_cases hq : dirName root m.dropLast = some quarantineDir
  · rw [limit, if_pos hq]
    exact iff_of_true hold (Or.inl hq)
  · have hlimit : limit args root m = outsideLimit args m := by
      rw [limit, if_neg hq, outsideLimit]
    rw [hlimit]
    exact ⟨Or.inr, fun h => h.resolve_left hq⟩

/-- **The quarantine area is clean after a sweep**, at every depth, exactly when each file
below a `.quarantine` directory that is older than the quarantine limit lies directly in
such a directory, or is older than its limit outside too.  The tree has no links at or
below the root, and the sweep succeeds. -/
theorem quarantine_clean_iff {report : SweepReport} (hp : SweepPlace t root R)
    (hwet : args.dryRun = false)
    (hok : (sweep args noSweepFault root t).2 = .ok report) :
    QuarantineClean args root R (sweep args noSweepFault root t).1 ↔
      ∀ m i, t.entry (R ++ m) = some (.file i) → BelowQuarantine root R m →
        args.quarantineTtl < args.now - t.disk.modified i →
        dirName root m.dropLast = some quarantineDir ∨
          outsideLimit args m < args.now - t.disk.modified i := by
  have hexact : SweptExactly args root R t (sweep args noSweepFault root t).1 report :=
    ((sweep_exact hp hwet).2 report hok).1
  constructor
  · intro hclean m i hi hbelow hold
    -- a file that stays would not be clean
    by_contra hyoung
    have hstays : (sweep args noSweepFault root t).1.entry (R ++ m) = some (.file i) :=
      (hexact.file m i).mpr ⟨hi, fun hlimit => hyoung ((over_limit_iff hold).mp hlimit)⟩
    have hfresh := hclean m i hstays hbelow
    rw [hexact.modified] at hfresh
    exact hfresh hold
  · intro h m i hi hbelow hold
    rw [hexact.modified] at hold
    obtain ⟨hthere, hyoung⟩ := (hexact.file m i).mp hi
    exact hyoung ((over_limit_iff hold).mpr (h m i hthere hbelow hold))

end Clean

/-! ## A file two levels down -/

/-- The camera of the home `/c` makes a directory in its quarantine area, and stores a file
there. -/
def nestedYard : FileTree :=
  Runs.run (afterRequest .plain) oneHome
    [⟨cameraC, .mkd (ofString "/.quarantine/d") fun _ _ => none⟩, putC "/.quarantine/d/x" 0 [1]]

theorem nestedYard_place : SweepPlace nestedYard (ofString "/c") [ofString "c"] where
  leads := by decide +kernel
  dir := by decide +kernel
  noLinks m target := by
    have hsame : SameLinks oneHome nestedYard :=
      sameLinks_run fun req _ => jailFree_oneHome req.user
    exact fun hl => no_links_oneHome _ _ ((hsame.link _ target).mp hl)

/-- The limits 40, 2 and 1, at 30. -/
def sweepAt30 : SweepArgs := { sweepAt50 with now := 30 }

/-- When the file is as old as footage may get, the sweep takes it, and the area is
clean. -/
theorem quarantine_clean_nestedYard : QuarantineClean sweepAt50 (ofString "/c") [ofString "c"]
    (sweep sweepAt50 noSweepFault (ofString "/c") nestedYard).1 := by
  have hok : (sweep sweepAt50 noSweepFault (ofString "/c") nestedYard).2 =
      .ok ⟨[ofString "/c/.quarantine/d/x"],
        [ofString "/c/.quarantine/d", ofString "/c/.quarantine"]⟩ := by
    decide +kernel
  refine (quarantine_clean_iff nestedYard_place rfl hok).mpr fun m i hi _ _ => Or.inr ?_
  have hall : ∀ M ∈ nestedYard.disk.entries.keys,
      nestedYard.entry M = some .dir ∨ nestedYard.entry M = some (.file 0) := by
    decide +kernel
  have hfirst : nestedYard.entry ([ofString "c"] ++ m) = some (.file 0) :=
    (hall _ (nestedYard.mem_keys.mpr (by rw [hi]; simp))).resolve_left (by rw [hi]; simp)
  obtain rfl := Entry.file.inj (Option.some.inj (hi.symm.trans hfirst))
  have hage : sweepAt50.now - nestedYard.disk.modified 0 = 50 := by decide +kernel
  rw [hage]
  unfold outsideLimit
  split <;> decide

/-- **A file below a directory in quarantine is kept**, though it is older than the limit of
the area. -/
theorem nested_file_kept :
    SweepPlace nestedYard (ofString "/c") [ofString "c"] ∧ sweepAt30.dryRun = false ∧
      (sweep sweepAt30 noSweepFault (ofString "/c") nestedYard).2 = .ok ⟨[], []⟩ ∧
      ¬ QuarantineClean sweepAt30 (ofString "/c") [ofString "c"]
        (sweep sweepAt30 noSweepFault (ofString "/c") nestedYard).1 := by
  refine ⟨nestedYard_place, rfl, by decide +kernel, fun hclean => ?_⟩
  have hkept : (sweep sweepAt30 noSweepFault (ofString "/c") nestedYard).1.entry
      ([ofString "c"] ++ [quarantineDir, ofString "d", ofString "x"]) = some (.file 0) := by
    decide +kernel
  refine hclean _ 0 hkept ⟨[quarantineDir], ⟨[ofString "d", ofString "x"], rfl⟩, by simp,
    Or.inl rfl⟩ ?_
  decide +kernel

end Reoftpd
