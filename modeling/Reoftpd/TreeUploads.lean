import Reoftpd.StoredClips
import Reoftpd.TreeMirrors

/-!
# Uploads of different names, in parallel, on a tree

Uploads of pairwise different names on a directory tree, one file operation at a time, in
any order.  As long as the directory of every name is there and no link lies on the way to
one, **each ends as if it were alone on the tree** (`parallel_uploads_tree`), as it does on
a disk (`parallel_uploads`).

A directory that is not there yet is another matter: the `create_dir_all` of one call can
make a directory where another was going to put its file.
-/
namespace Reoftpd
open Interleaving Runs UnixPath FileTree

section Tree
variable {ι : Type} {P : ι → Loc} {a : ι → OsStr} {t : FileTree} {i : ι} {schedule : List ι}
  {calls : ι → StoreCall} {streamFaults : ι → StoreSite → Option Errno} {outs : ι → Encrypted}
  {encryptFaults : ι → EncryptSite → Option Errno}

/-- Where call `i` puts the name `a i` in the directory `P i`. -/
def finalLoc (P : ι → Loc) (a : ι → OsStr) (i : ι) : Loc := P i ++ [a i]

/-- Where it stages it. -/
def stagingLoc (P : ι → Loc) (a : ι → OsStr) (i : ι) : Loc := P i ++ [a i ++ stagingSuffix]

/-- **Every call has names of its own**, in directories that are there. -/
structure UploadsApart (P : ι → Loc) (a : ι → OsStr) (t : FileTree) : Prop where
  final : ∀ i, t.Ready (finalLoc P a i)
  staging : ∀ i, t.Ready (stagingLoc P a i)
  apart : NamesApart (finalLoc P a) (stagingLoc P a) t.disk

/-- The names of all calls. -/
def uploadLocs (P : ι → Loc) (a : ι → OsStr) : Set Loc :=
  {L | ∃ i, L ∈ ownNames (finalLoc P a i) (stagingLoc P a i)}

theorem stagingPath_finalLoc (P : ι → Loc) (a : ι → OsStr) (i : ι) :
    stagingPath (locText (finalLoc P a i)) = locText (stagingLoc P a i) :=
  stagingPath_locText

theorem storesIn_uploadLocs (P : ι → Loc) (a : ι → OsStr) (i : ι) :
    StoresIn (uploadLocs P a) (locText (finalLoc P a i)) :=
  ⟨_, ⟨i, final_mem ..⟩, _, ⟨i, staging_mem ..⟩, rfl, stagingPath_finalLoc P a i⟩

theorem UploadsApart.ready (h : UploadsApart P a t) : ∀ L ∈ uploadLocs P a, t.Ready L := by
  rintro L ⟨i, rfl | rfl⟩
  · exact h.final i
  · exact h.staging i

/-- The paths are apart on the disk the tree looks like. -/
theorem UploadsApart.onDisk (h : UploadsApart P a t) {d : Disk OsStr Empty}
    (hd : Mirrors (uploadLocs P a) t d) :
    NamesApart (fun i => locText (finalLoc P a i))
      (fun i => stagingPath (locText (finalLoc P a i))) d := by
  -- an own path of a call is the text of an own location
  have hloc : ∀ i n, n ∈ ownNames (locText (finalLoc P a i))
      (stagingPath (locText (finalLoc P a i))) →
      ∃ L ∈ ownNames (finalLoc P a i) (stagingLoc P a i), n = locText L := by
    rintro i n (rfl | rfl)
    · exact ⟨_, final_mem .., rfl⟩
    · exact ⟨_, staging_mem .., stagingPath_finalLoc P a i⟩
  have hfile : ∀ i L, L ∈ ownNames (finalLoc P a i) (stagingLoc P a i) → ∀ k,
      d.lookup (locText L) = some (.file k) → t.disk.lookup L = some (.file k) := by
    intro i L hL k hk
    have he := hd.entry L ⟨i, hL⟩
    rw [hk] at he
    exact he
  refine ⟨fun i j hij n hn hn' => ?_, fun i j hij n hn m hm k hk hk' => ?_⟩
  · obtain ⟨L, hL, rfl⟩ := hloc i n hn
    obtain ⟨M, hM, htext⟩ := hloc j _ hn'
    have hLM : L = M :=
      locText_injective (h.ready L ⟨i, hL⟩).isName (h.ready M ⟨j, hM⟩).isName htext
    exact h.apart.names i j hij L hL (hLM ▸ hM)
  · obtain ⟨L, hL, rfl⟩ := hloc i n hn
    obtain ⟨M, hM, rfl⟩ := hloc j m hm
    exact h.apart.files i j hij L hL M hM k (hfile i L hL k hk) (hfile j M hM k hk')

/-- A turn of a `store_stream` call on the tree. -/
def treeStreamTurn (P : ι → Loc) (a : ι → OsStr) (calls : ι → StoreCall)
    (faults : ι → StoreSite → Option Errno) (i : ι) :
    FileTree × StorePc Nat → FileTree × StorePc Nat :=
  soloStep (treeTarget (fun _ _ => none) (locText (finalLoc P a i))) (faults i) (calls i).startPos
    (calls i).input

/-- A turn of a `store_encrypted` call on the tree. -/
def treeEncryptTurn (P : ι → Loc) (a : ι → OsStr) (outs : ι → Encrypted)
    (faults : ι → EncryptSite → Option Errno) (i : ι) :
    FileTree × EncryptPc Nat → FileTree × EncryptPc Nat :=
  soloEncryptedStep (treeTarget (fun _ _ => none) (locText (finalLoc P a i))) (faults i) (outs i)

/-- A call has ended as the whole call ends alone on the tree: with the same result, and the
same to be read by its two names. -/
structure EndsAlone (final : OsStr) (returned : Option StoreResult) (t : FileTree)
    (alone : FileTree × StoreResult) : Prop where
  result : returned = some alone.2
  atFinal : t.readFile final = alone.1.readFile final
  atStaging : t.readFile (stagingPath final) = alone.1.readFile (stagingPath final)

/-- What ends alike on the disks ends alike on the trees. -/
theorem endsAlone_of_disk {returned : Option StoreResult} {s : FileTree} {e : Disk OsStr Empty}
    {alone : FileTree × StoreResult} {alone' : Disk OsStr Empty × StoreResult}
    (hs : Mirrors (uploadLocs P a) s e) (halone : Mirrors (uploadLocs P a) alone.1 alone'.1)
    (hresult : alone.2 = alone'.2)
    (h : EndsAs (locText (finalLoc P a i)) (stagingPath (locText (finalLoc P a i))) returned e
      alone') : EndsAlone (locText (finalLoc P a i)) returned s alone := by
  obtain ⟨hret, hbound, hbytes⟩ := h
  refine ⟨hresult ▸ hret, ?_, ?_⟩
  · exact hs.readFile_congr halone ⟨i, final_mem ..⟩ (hbound _ (final_mem ..))
      (hbytes _ (final_mem ..))
  · have hstaged := hbound _ (staging_mem ..)
    have hread := hbytes _ (staging_mem ..)
    rw [stagingPath_finalLoc] at hstaged hread ⊢
    exact hs.readFile_congr halone ⟨i, staging_mem ..⟩ hstaged hread

variable [DecidableEq ι]

/-- The `store_stream` calls on the tree after the turns of a schedule. -/
def afterTreeStreams (P : ι → Loc) (a : ι → OsStr) (calls : ι → StoreCall)
    (faults : ι → StoreSite → Option Errno) (t : FileTree) (schedule : List ι) :
    Joint ι FileTree (StorePc Nat) :=
  run (turn (treeStreamTurn P a calls faults)) ⟨t, fun _ => .start⟩ schedule

/-- The `store_encrypted` calls on the tree after the turns of a schedule. -/
def afterTreeEncryptions (P : ι → Loc) (a : ι → OsStr) (outs : ι → Encrypted)
    (faults : ι → EncryptSite → Option Errno) (t : FileTree) (schedule : List ι) :
    Joint ι FileTree (EncryptPc Nat) :=
  run (turn (treeEncryptTurn P a outs faults)) ⟨t, fun _ => .start⟩ schedule

theorem treeStreams_end (h : UploadsApart P a t)
    (hturns : (calls i).input.length + 8 ≤ schedule.count i) :
    EndsAlone (locText (finalLoc P a i))
      ((afterTreeStreams P a calls streamFaults t schedule).loc i).returned
      (afterTreeStreams P a calls streamFaults t schedule).shared
      (storeStream (treeTarget (fun _ _ => none) (locText (finalLoc P a i))) (streamFaults i)
        (calls i).startPos (calls i).input t) := by
  obtain ⟨d, hd⟩ := exists_mirror h.ready
  have hstep : ∀ c c' j, JointMirrors (uploadLocs P a) c c' →
      JointMirrors (uploadLocs P a) (turn (treeStreamTurn P a calls streamFaults) c j)
        (turn (streamTurn (fun i => locText (finalLoc P a i))
          (fun i => stagingPath (locText (finalLoc P a i))) calls streamFaults) c' j) :=
    fun _ _ j hc => hc.turn (fun k _ _ p hR =>
      (storesIn_uploadLocs P a k).storeStep (calls k).startPos (calls k).input hR p _) j
  have hrun : JointMirrors (uploadLocs P a) (afterTreeStreams P a calls streamFaults t schedule)
      (afterStreams (fun i => locText (finalLoc P a i))
        (fun i => stagingPath (locText (finalLoc P a i))) calls streamFaults d schedule) :=
    run_related hstep ⟨hd, rfl⟩ schedule
  have hsim := (storesIn_uploadLocs P a i).simulates
  rw [hrun.loc]
  refine endsAlone_of_disk hrun.shared ?_ ?_ (streams_end (h.onDisk hd) hturns)
  · exact (hsim.storeStream hd).1
  · exact (hsim.storeStream hd).2

theorem treeEncryptions_end (h : UploadsApart P a t)
    (hturns : (outs i).chunks.length + 6 ≤ schedule.count i) :
    EndsAlone (locText (finalLoc P a i))
      ((afterTreeEncryptions P a outs encryptFaults t schedule).loc i).returned
      (afterTreeEncryptions P a outs encryptFaults t schedule).shared
      (storeEncrypted (treeTarget (fun _ _ => none) (locText (finalLoc P a i)))
        (encryptFaults i) (outs i) t) := by
  obtain ⟨d, hd⟩ := exists_mirror h.ready
  have hstep : ∀ c c' j, JointMirrors (uploadLocs P a) c c' →
      JointMirrors (uploadLocs P a) (turn (treeEncryptTurn P a outs encryptFaults) c j)
        (turn (encryptTurn (fun i => locText (finalLoc P a i))
          (fun i => stagingPath (locText (finalLoc P a i))) outs encryptFaults) c' j) :=
    fun _ _ j hc => hc.turn (fun k _ _ p hR =>
      (storesIn_uploadLocs P a k).encryptedStep (outs k) hR p _) j
  have hrun : JointMirrors (uploadLocs P a)
      (afterTreeEncryptions P a outs encryptFaults t schedule)
      (afterEncryptions (fun i => locText (finalLoc P a i))
        (fun i => stagingPath (locText (finalLoc P a i))) outs encryptFaults d schedule) :=
    run_related hstep ⟨hd, rfl⟩ schedule
  have hsim := (storesIn_uploadLocs P a i).simulates
  rw [hrun.loc]
  refine endsAlone_of_disk hrun.shared ?_ ?_ (encryptions_end (h.onDisk hd) hturns)
  · exact (hsim.storeEncrypted hd).1
  · exact (hsim.storeEncrypted hd).2

/-- **Uploads of different names do not disturb each other on a tree.**  Whatever the
schedule and whatever fails, a call that has had as many turns as it takes alone ends as it
ends alone. -/
theorem parallel_uploads_tree (h : UploadsApart P a t) (calls : ι → StoreCall)
    (streamFaults : ι → StoreSite → Option Errno) (outs : ι → Encrypted)
    (encryptFaults : ι → EncryptSite → Option Errno) (schedule : List ι) (i : ι) :
    ((calls i).input.length + 8 ≤ schedule.count i →
      EndsAlone (locText (finalLoc P a i))
        ((afterTreeStreams P a calls streamFaults t schedule).loc i).returned
        (afterTreeStreams P a calls streamFaults t schedule).shared
        (storeStream (treeTarget (fun _ _ => none) (locText (finalLoc P a i))) (streamFaults i)
          (calls i).startPos (calls i).input t)) ∧
    ((outs i).chunks.length + 6 ≤ schedule.count i →
      EndsAlone (locText (finalLoc P a i))
        ((afterTreeEncryptions P a outs encryptFaults t schedule).loc i).returned
        (afterTreeEncryptions P a outs encryptFaults t schedule).shared
        (storeEncrypted (treeTarget (fun _ _ => none) (locText (finalLoc P a i)))
          (encryptFaults i) (outs i) t)) :=
  ⟨treeStreams_end h, treeEncryptions_end h⟩

end Tree

/-- Two uploads of a byte each into `/c` take turns. -/
theorem two_uploads_into_home :
    let P : Bool → Loc := fun _ => [ofString "c"]
    let a : Bool → OsStr := fun b => if b then ofString "x" else ofString "y"
    let calls : Bool → StoreCall := fun b => ⟨0, [.ok [if b then 1 else 2]]⟩
    let turns := (List.replicate 9 [true, false]).flatten
    UploadsApart P a oneHome ∧
      EndsAlone (locText (finalLoc P a true))
        ((afterTreeStreams P a calls (fun _ _ => none) oneHome turns).loc true).returned
        (afterTreeStreams P a calls (fun _ _ => none) oneHome turns).shared
        (storeStream (treeTarget (fun _ _ => none) (locText (finalLoc P a true))) (fun _ => none)
          0 [.ok [1]] oneHome) := by
  intro P a calls turns
  have hhome : oneHome.entry [ofString "c"] = some .dir := by decide +kernel
  have hready : ∀ s, IsFileName s → oneHome.Ready [ofString "c", s] := fun s hs =>
    ⟨by simp, by simpa using ⟨by decide, hs⟩, fun q _ _ => no_links_oneHome q, hhome⟩
  have hfree : ∀ b, ∀ L ∈ ownNames (finalLoc P a b) (stagingLoc P a b),
      oneHome.disk.lookup L = none := by
    rintro (_ | _) L (rfl | rfl) <;> decide +kernel
  have hapart : UploadsApart P a oneHome := by
    refine ⟨?_, ?_, fun i j hij n hn => ?_, fun i j _ n hn m _ k hk => ?_⟩
    · rintro (_ | _)
      · exact hready (ofString "y") (by decide)
      · exact hready (ofString "x") (by decide)
    · rintro (_ | _)
      · exact hready (ofString "y" ++ stagingSuffix) (by decide)
      · exact hready (ofString "x" ++ stagingSuffix) (by decide)
    · cases i <;> cases j <;> first
        | exact absurd rfl hij
        | (rcases hn with rfl | rfl <;> simp [ownNames, finalLoc, stagingLoc, P, a] <;> decide)
    · rw [hfree i n hn] at hk
      cases hk
  exact ⟨hapart, (parallel_uploads_tree hapart calls (fun _ _ => none) (fun _ => ⟨[], .ok 0⟩)
    (fun _ _ => none) turns true).1 (by decide)⟩

/-- A store of `/c/x/y` makes the directory `/c/x`, and a store of `/c/x` that would have
succeeded is refused. -/
theorem missing_directory_disturbs :
    let store := fun (path : String) =>
      storeStream (treeTarget (fun _ _ => none) (ofString path)) (fun _ => none) 0 [.ok [1]]
    (store "/c/x" oneHome).2 = .ok 1 ∧
      (store "/c/x" (store "/c/x/y" oneHome).1).2 = .error .finalized := by
  decide +kernel

end Reoftpd
