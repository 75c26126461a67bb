import Reoftpd.PathText

/-!
# Offsets, staging names and probe names

The pure part of the append-only rule (`append.rs`): where a store may begin, the
name it stages under, and which names are a camera's connection probes.
-/
namespace Reoftpd
open UnixPath

/-- `STAGING_SUFFIX`. -/
def stagingSuffix : OsStr := ofString ".reoftpd-partial"

/-- `QUARANTINE_DIR`. -/
def quarantineDir : OsStr := ofString ".quarantine"

/-- How a start offset relates to the bytes already staged. -/
inductive OffsetVerdict where
  | ok
  | overlap
  | gap
  deriving DecidableEq, Repr

/-- A store may only begin exactly at the current end of the staging file. -/
def classifyOffset (startPos existingSize : Nat) : OffsetVerdict :=
  match compare startPos existingSize with
  | .eq => .ok
  | .lt => .overlap
  | .gt => .gap

/-- Hidden staging path for an in-progress upload of `finalPath`: the suffix is
pushed onto the text of the path. -/
def stagingPath (finalPath : OsStr) : OsStr := finalPath ++ stagingSuffix

/-- A probe is named exactly `test`, `test.<ext>` or `testftp*`, up to ASCII case. -/
def isReolinkTestFile (name : String) : Bool :=
  let lower := name.toList.map Char.toLower
  lower == "test".toList || "test.".toList.isPrefixOf lower || "testftp".toList.isPrefixOf lower

theorem classifyOffset_ok_iff {startPos size : Nat} :
    classifyOffset startPos size = .ok ↔ startPos = size := by
  unfold classifyOffset
  rcases h : compare startPos size with _ | _ | _
  · simp [Nat.ne_of_lt (Nat.compare_eq_lt.mp h)]
  · simp [Nat.compare_eq_eq.mp h]
  · simp [Nat.ne_of_gt (Nat.compare_eq_gt.mp h)]

/-- A staging path is never the path it stages. -/
theorem stagingPath_ne (p : OsStr) : stagingPath p ≠ p := by
  intro h
  have hlen := congrArg List.length h
  simp [stagingPath, stagingSuffix, ofString] at hlen

example : isReolinkTestFile "TestFtp.dat" = true := by decide

example : isReolinkTestFile "testament.mp4" = false := by decide

end Reoftpd
