import Mathlib.Data.List.TakeWhile
import Reoftpd.RetentionExact

/-!
# What is said of a deletion

A sweep collects what it deletes in a report, which its caller gets when the sweep comes to
its end.  A call that fails on the way ends it with an error instead, and the report goes
with it: **the files that are gone by then are named nowhere**
(`unreported_deletion`).

Every deletion is reported exactly when no call that ends the sweep fails after the first
removal (`deletions_reported_iff`).  The calls that a sweep gets to when none fails, in their
order, are its itinerary (`itinerary`); a sweep follows it up to the first call that fails
(`visit_follows`).  The tree, its links included, and the failures are arbitrary.
-/
namespace Reoftpd
open UnixPath FileTree

/-! ## What is printed -/

/-- What the `cleanup` command prints of what the sweep returned: an error has no report. -/
def cleanupOutput : Except Errno SweepReport → List String
  | .error _ => []
  | .ok report =>
      ("deleted " ++ toString report.deleted.length ++ " file(s):") ::
        report.deleted.map (fun p => "  " ++ toStringLossy p) ++
      ("pruned " ++ toString report.prunedDirs.length ++ " empty director(ies):") ::
        report.prunedDirs.map (fun p => "  " ++ toStringLossy p)

/-- Every file that the sweep removed is in the report under a path that leads to it, and
the path is printed. -/
def DeletionsReported (args : SweepArgs) (fault : SweepFault) (root : OsStr) (t : FileTree) :
    Prop :=
  ∀ L e, t.entry L = some e → e.isDir = false → (sweep args fault root t).1.entry L = none →
    ∃ report p, (sweep args fault root t).2 = .ok report ∧ p ∈ report.deleted ∧
      t.locate false p = .ok L ∧
      "  " ++ toStringLossy p ∈ cleanupOutput (sweep args fault root t).2

/-! ## The itinerary of a sweep -/

/-- A call whose failure ends a sweep; `impossible` if it cannot succeed where the sweep gets
to it. -/
structure SweepCall where
  site : SweepSite
  path : OsStr
  impossible : Bool
  deriving DecidableEq

/-- The call fails. -/
def SweepCall.fails (fault : SweepFault) (c : SweepCall) : Bool :=
  c.impossible || (fault c.site c.path).isSome

/-- The calls at an entry that is no directory, and the tree after them. -/
def fileItinerary (args : SweepArgs) (fault : SweepFault) (inQuarantine : Bool) (path : OsStr)
    (t : FileTree) : List SweepCall × FileTree :=
  if olderThan fault t path (fileTtl args inQuarantine path) args.now then
    match t.removeFile path with
    | .ok t' => ([⟨.removeFile, path, false⟩], t')
    | .error _ => ([⟨.removeFile, path, true⟩], t)
  else ([], t)

/-- The call at a directory that the sweep comes back to.  Whether the directory is empty then is
asked by a call whose failure ends nothing. -/
def pruneItinerary (fault : SweepFault) (path : OsStr) (t : FileTree) :
    List SweepCall × FileTree :=
  match t.readDir path with
  | .error _ => ([⟨.reread, path, true⟩], t)
  | .ok names =>
      ([⟨.reread, path, false⟩],
        if nextIsNone (fault .firstEntry path) names then discardDir fault path t else t)

/-- The calls at one entry; `dirItinerary` is those in a directory. -/
def entryItinerary (args : SweepArgs) (fault : SweepFault)
    (dirItinerary : OsStr → FileTree → List SweepCall × FileTree) (inQuarantine : Bool)
    (path : OsStr) (t : FileTree) : List SweepCall × FileTree :=
  match t.symlinkMetadata path with
  | .error _ => ([⟨.fileType, path, true⟩], t)
  | .ok ft =>
      if ft.isDir then
        let inside := dirItinerary path t
        let after := pruneItinerary fault path inside.2
        (⟨.fileType, path, false⟩ :: inside.1 ++ after.1, after.2)
      else
        let file := fileItinerary args fault inQuarantine path t
        (⟨.fileType, path, false⟩ :: file.1, file.2)

/-- The calls at the entries of a directory: those that deliver an entry, those at it, and the
one that finds no further entry. -/
def entriesItinerary (args : SweepArgs) (fault : SweepFault)
    (dirItinerary : OsStr → FileTree → List SweepCall × FileTree) (dir : OsStr) :
    List OsStr → FileTree → List SweepCall × FileTree
  | [], t => ([⟨.noEntry, dir, false⟩], t)
  | name :: rest, t =>
      let first := entryItinerary args fault dirItinerary (fileName dir = some quarantineDir)
        (join dir name) t
      let others := entriesItinerary args fault dirItinerary dir rest first.2
      (⟨.nextEntry, join dir name, false⟩ :: (first.1 ++ others.1), others.2)

/-- The calls in a directory, to a depth of `fuel` directories. -/
def dirItinerary (args : SweepArgs) (fault : SweepFault) :
    Nat → OsStr → FileTree → List SweepCall × FileTree
  | 0, dir, t => ([⟨.readDir, dir, true⟩], t)
  | fuel + 1, dir, t =>
      match t.readDir dir with
      | .error _ => ([⟨.readDir, dir, true⟩], t)
      | .ok names =>
          let entries := entriesItinerary args fault (dirItinerary args fault fuel) dir names t
          (⟨.readDir, dir, false⟩ :: entries.1, entries.2)

/-- **The itinerary of a sweep**: the calls whose failure would end it, in the order in which
it gets to them as long as none fails. -/
def itinerary (args : SweepArgs) (fault : SweepFault) (root : OsStr) (t : FileTree) :
    List SweepCall :=
  (dirItinerary args fault (nameCount t + 1) root t).1

/-- The calls before the first that fails. -/
def reached (fault : SweepFault) (calls : List SweepCall) : List SweepCall :=
  calls.takeWhile fun c => !c.fails fault

/-- The paths that are removed. -/
def removals (calls : List SweepCall) : List OsStr :=
  (calls.filter fun c => c.site = .removeFile).map SweepCall.path

/-! ## What has gone -/

/-- The tree `s` is `t` without the files and links that the paths `ps` lead to, and without
some directories. -/
structure Took (t s : FileTree) (ps : List OsStr) : Prop where
  cwd : s.cwd = t.cwd
  entry_or : ∀ L, s.entry L = t.entry L ∨ s.entry L = none
  gone_iff : ∀ L e, t.entry L = some e → e.isDir = false →
    (s.entry L = none ↔ ∃ p ∈ ps, t.locate false p = .ok L)
  files : ∀ p ∈ ps, ∃ L e, t.locate false p = .ok L ∧ t.entry L = some e ∧ e.isDir = false

section Took
variable {t s s' : FileTree} {ps : List OsStr} {p : OsStr} {fault : SweepFault}

theorem Took.refl (t : FileTree) : Took t t [] where
  cwd := rfl
  entry_or _ := Or.inl rfl
  gone_iff L e he _ := by simp [he]
  files p hp := absurd hp List.not_mem_nil

/-- What is still there was there. -/
theorem Took.kept (h : Took t s ps) {L : Loc} {e : Entry OsStr} (he : s.entry L = some e) :
    t.entry L = some e := by
  rcases h.entry_or L with hL | hL
  · rw [← hL, he]
  · rw [hL] at he
    cases he

/-- Where a path leads to something that is still there, it led from the start. -/
theorem Took.locate (h : Took t s ps) {L : Loc} {e : Entry OsStr} {followLast : Bool}
    (hL : s.locate followLast p = .ok L) (he : s.entry L = some e) :
    t.locate followLast p = .ok L :=
  locate_bound h.cwd.symm (fun _ _ => h.kept) hL (by simp [he])

/-- A file is removed. -/
theorem Took.removeFile (h : Took t s ps) (hr : s.removeFile p = .ok s') :
    Took t s' (ps ++ [p]) := by
  obtain ⟨L, e, hL, he, hfile, rfl⟩ := removeFile_ok hr
  have hpL : t.locate false p = .ok L := h.locate hL he
  have hself : (s.eraseAt L).entry L = none := entry_eraseAt_self (childless_of_entry he hfile)
  refine ⟨cwd_eraseAt.trans h.cwd, fun M => ?_, fun M x hx hxfile => ?_, fun q hq => ?_⟩
  · by_cases hML : M = L
    · exact Or.inr (hML ▸ hself)
    · rw [entry_eraseAt_ne hML]
      exact h.entry_or M
  · by_cases hML : M = L
    · subst hML
      exact iff_of_true hself ⟨p, by simp, hpL⟩
    · rw [entry_eraseAt_ne hML, h.gone_iff M x hx hxfile]
      constructor
      · exact fun ⟨q, hq, hqM⟩ => ⟨q, List.mem_append_left _ hq, hqM⟩
      · rintro ⟨q, hq, hqM⟩
        rcases List.mem_append.mp hq with hq | hq
        · exact ⟨q, hq, hqM⟩
        · obtain rfl := List.mem_singleton.mp hq
          exact absurd (Except.ok.inj (hqM.symm.trans hpL)) hML
  · rcases List.mem_append.mp hq with hq | hq
    · exact h.files q hq
    · obtain rfl := List.mem_singleton.mp hq
      exact ⟨L, e, hpL, h.kept he, hfile⟩

/-- A directory goes, or does not. -/
theorem Took.discardDir (h : Took t s ps) : Took t (discardDir fault p s) ps := by
  unfold Reoftpd.discardDir
  split
  · rename_i s' hr
    obtain ⟨L, hL, hdir, hc, rfl⟩ := removeDir_ok (attempt_ok hr).2
    refine ⟨cwd_eraseAt.trans h.cwd, fun M => ?_, fun M x hx hxfile => ?_, h.files⟩
    · by_cases hML : M = L
      · subst hML
        exact Or.inr (entry_eraseAt_self hc)
      · rw [entry_eraseAt_ne hML]
        exact h.entry_or M
    · have hML : M ≠ L := by
        rintro rfl
        rw [h.kept hdir] at hx
        obtain rfl := Option.some.inj hx
        cases hxfile
      rw [entry_eraseAt_ne hML]
      exact h.gone_iff M x hx hxfile
  · exact h

end Took

/-! ## A sweep follows its itinerary -/

/-- What a sweep on its way, which has taken `ps`, does where the itinerary `w` is ahead: all
of it, or what comes before the first call that fails. -/
inductive Follows (fault : SweepFault) (t : FileTree) (ps : List OsStr)
    (w : List SweepCall × FileTree) : Swept × Except Errno Unit → Prop
  | all {s : Swept} (fine : ∀ c ∈ w.1, c.fails fault = false) (tree : s.tree = w.2)
      (deleted : s.report.deleted = ps ++ removals w.1)
      (took : Took t s.tree (ps ++ removals w.1)) :
      Follows fault t ps w (s, .ok ())
  | upTo {s : Swept} {e : Errno} (fails : ∃ c ∈ w.1, c.fails fault = true)
      (took : Took t s.tree (ps ++ removals (reached fault w.1))) :
      Follows fault t ps w (s, .error e)

section Follows
variable {t : FileTree} {s : Swept} {ps : List OsStr} {fault : SweepFault} {args : SweepArgs}
  {path dir : OsStr} {inQuarantine : Bool} {calls rest : List SweepCall}

@[simp] theorem removals_append (calls rest : List SweepCall) :
    removals (calls ++ rest) = removals calls ++ removals rest := by
  simp [removals]

theorem removals_cons_ne {c : SweepCall} (h : c.site ≠ .removeFile) :
    removals (c :: calls) = removals calls := by
  simp [removals, h]

theorem reached_append (h : ∀ c ∈ calls, c.fails fault = false) :
    reached fault (calls ++ rest) = calls ++ reached fault rest :=
  List.takeWhile_append_of_pos fun c hc => by rw [h c hc]; rfl

theorem reached_append_fails (h : ∃ c ∈ calls, c.fails fault = true) :
    reached fault (calls ++ rest) = reached fault calls := by
  induction calls with
  | nil =>
      obtain ⟨c, hc, -⟩ := h
      cases hc
  | cons d calls ih =>
      by_cases hd : d.fails fault = true
      · simp [reached, hd]
      · obtain ⟨c, hc, hfails⟩ := h
        have hin : c ∈ calls := by
          rcases List.mem_cons.mp hc with rfl | hc
          · exact absurd hfails hd
          · exact hc
        have hrest := ih ⟨c, hin, hfails⟩
        simp only [reached] at hrest
        simp [reached, hd, hrest]

/-- The first call fails: the sweep ends where it is. -/
theorem Follows.stop {w : List SweepCall × FileTree} {c : SweepCall} {e : Errno}
    (h : Took t s.tree ps) (hw : w.1 = c :: rest) (hc : c.fails fault = true) :
    Follows fault t ps w (s, .error e) := by
  refine .upTo ⟨c, by simp [hw], hc⟩ ?_
  have hnone : reached fault w.1 = [] := by simp [reached, hw, hc]
  rw [hnone]
  simpa [removals] using h

/-- Nothing is ahead. -/
theorem Follows.nothing (h : Took t s.tree ps) (hdel : s.report.deleted = ps) :
    Follows fault t ps ([], s.tree) (s, .ok ()) :=
  .all (by simp) rfl (by simpa [removals] using hdel) (by simpa [removals] using h)

/-- A call that takes no file does not fail, and the sweep goes on. -/
theorem Follows.cons {r : Swept × Except Errno Unit} {w : List SweepCall × FileTree}
    {c : SweepCall} (hsite : c.site ≠ .removeFile) (hc : c.fails fault = false)
    (h : Follows fault t ps w r) : Follows fault t ps (c :: w.1, w.2) r := by
  cases h with
  | all fine tree deleted took =>
      refine .all (List.forall_mem_cons.mpr ⟨hc, fine⟩) tree ?_ ?_
      · rw [removals_cons_ne hsite, deleted]
      · rw [removals_cons_ne hsite]
        exact took
  | upTo fails took =>
      obtain ⟨d, hd, hfails⟩ := fails
      refine .upTo ⟨d, List.mem_cons_of_mem _ hd, hfails⟩ ?_
      have hreached : reached fault (c :: w.1) = c :: reached fault w.1 := by
        simp [reached, hc]
      rw [hreached, removals_cons_ne hsite]
      exact took

/-- A sweep that stops stops, whatever would be ahead then. -/
theorem Follows.error_append {w : List SweepCall × FileTree} {e : Errno}
    (h : Follows fault t ps w (s, .error e)) (t' : FileTree) :
    Follows fault t ps (w.1 ++ rest, t') (s, .error e) := by
  cases h with
  | upTo fails took =>
      obtain ⟨c, hc, hfails⟩ := fails
      refine .upTo ⟨c, List.mem_append_left _ hc, hfails⟩ ?_
      rw [reached_append_fails ⟨c, hc, hfails⟩]
      exact took

/-- One that does not goes on from where it is. -/
theorem Follows.append {w w' : List SweepCall × FileTree} {r : Swept × Except Errno Unit}
    (h : Follows fault t ps w (s, .ok ()))
    (h' : Follows fault t (ps ++ removals w.1) w' r) :
    Follows fault t ps (w.1 ++ w'.1, w'.2) r := by
  cases h with
  | all fine tree deleted took =>
      cases h' with
      | all fine' tree' deleted' took' =>
          refine .all (List.forall_mem_append.mpr ⟨fine, fine'⟩) tree' ?_ ?_
          · rw [deleted', removals_append, List.append_assoc]
          · rw [removals_append, ← List.append_assoc]
            exact took'
      | upTo fails' took' =>
          obtain ⟨c, hc, hfails⟩ := fails'
          refine .upTo ⟨c, List.mem_append_right _ hc, hfails⟩ ?_
          rw [reached_append fine, removals_append, ← List.append_assoc]
          exact took'

/-! ### The steps of a sweep -/

/-- **An entry that is no directory.** -/
theorem sweepFile_follows (hwet : args.dryRun = false) (h : Took t s.tree ps)
    (hdel : s.report.deleted = ps) :
    Follows fault t ps (fileItinerary args fault inQuarantine path s.tree)
      (sweepFile args fault inQuarantine path s) := by
  unfold fileItinerary sweepFile
  split
  · rw [hwet, if_neg (by simp)]
    cases hf : fault .removeFile path with
    | some e =>
        rw [attempt_some]
        split
        · exact .stop h rfl (by simp [SweepCall.fails, hf])
        · exact .stop h rfl (by simp [SweepCall.fails])
    | none =>
        rw [attempt_none]
        cases hr : s.tree.removeFile path with
        | error e => exact .stop h rfl (by simp [SweepCall.fails])
        | ok t' =>
            refine .all (by simp [SweepCall.fails, hf]) rfl ?_ ?_
            · simp [hdel, removals]
            · simpa [removals] using h.removeFile hr
  · exact .nothing h hdel

/-- **A directory that the sweep comes back to.** -/
theorem pruneDir_follows (hwet : args.dryRun = false) (h : Took t s.tree ps)
    (hdel : s.report.deleted = ps) :
    Follows fault t ps (pruneItinerary fault path s.tree) (pruneDir args fault path s) := by
  unfold pruneItinerary pruneDir
  cases hf : fault .reread path with
  | some e =>
      rw [attempt_some]
      split
      · exact .stop h rfl (by simp [SweepCall.fails])
      · exact .stop h rfl (by simp [SweepCall.fails, hf])
  | none =>
      have hfine : (⟨.reread, path, false⟩ : SweepCall).fails fault = false := by
        simp [SweepCall.fails, hf]
      rw [attempt_none]
      cases hr : s.tree.readDir path with
      | error e => exact .stop h rfl (by simp [SweepCall.fails])
      | ok names =>
          simp only [hwet, Bool.false_eq_true, if_false]
          split
          · have hgone : Took t (discardDir fault path s.tree) ps := h.discardDir
            refine .all (by simpa using hfine) rfl ?_ ?_
            · simpa [removals] using hdel
            · simpa [removals] using hgone
          · exact (Follows.nothing h hdel).cons (by simp) hfine

/-- **An entry**, if `visitDir` follows `inside`. -/
theorem visitEntry_follows (hwet : args.dryRun = false)
    {visitDir : OsStr → Swept → Swept × Except Errno Unit}
    {inside : OsStr → FileTree → List SweepCall × FileTree}
    (hvisit : ∀ ps (s : Swept), Took t s.tree ps → s.report.deleted = ps →
      Follows fault t ps (inside path s.tree) (visitDir path s))
    (h : Took t s.tree ps) (hdel : s.report.deleted = ps) :
    Follows fault t ps (entryItinerary args fault inside inQuarantine path s.tree)
      (visitEntry args fault visitDir inQuarantine path s) := by
  unfold entryItinerary visitEntry
  cases hf : fault .fileType path with
  | some e =>
      rw [attempt_some]
      split
      · exact .stop h rfl (by simp [SweepCall.fails])
      · split
        · exact .stop h rfl (by simp [SweepCall.fails, hf])
        · exact .stop h rfl (by simp [SweepCall.fails, hf])
  | none =>
      have hfine : (⟨.fileType, path, false⟩ : SweepCall).fails fault = false := by
        simp [SweepCall.fails, hf]
      rw [attempt_none]
      cases hft : s.tree.symlinkMetadata path with
      | error e => exact .stop h rfl (by simp [SweepCall.fails])
      | ok ft =>
          simp only
          split
          · have hin := hvisit ps s h hdel
            rcases hv : visitDir path s with ⟨s', e | ⟨⟩⟩
            · rw [hv] at hin
              exact (hin.error_append _).cons (by simp) hfine
            · rw [hv] at hin
              refine Follows.cons (by simp) hfine (hin.append ?_)
              cases hin with
              | all fine tree deleted took =>
                  rw [← tree]
                  exact pruneDir_follows hwet took deleted
          · exact (sweepFile_follows hwet h hdel).cons (by simp) hfine

/-- **The entries of a directory**, one after the other. -/
theorem visitEntries_follows (hwet : args.dryRun = false)
    {visitDir : OsStr → Swept → Swept × Except Errno Unit}
    {inside : OsStr → FileTree → List SweepCall × FileTree}
    (hvisit : ∀ path ps (s : Swept), Took t s.tree ps → s.report.deleted = ps →
      Follows fault t ps (inside path s.tree) (visitDir path s))
    (names : List OsStr) (h : Took t s.tree ps) (hdel : s.report.deleted = ps) :
    Follows fault t ps (entriesItinerary args fault inside dir names s.tree)
      (visitEntries args fault visitDir dir names s) := by
  induction names generalizing ps s with
  | nil =>
      unfold visitEntries entriesItinerary
      cases hf : fault .noEntry dir with
      | some e => exact .stop h rfl (by simp [SweepCall.fails, hf])
      | none => exact (Follows.nothing h hdel).cons (by simp) (by simp [SweepCall.fails, hf])
  | cons name names ih =>
      have hentry : Follows fault t ps
          (entryItinerary args fault inside (fileName dir = some quarantineDir) (join dir name)
            s.tree)
          (visitEntry args fault visitDir (fileName dir = some quarantineDir) (join dir name) s) :=
        visitEntry_follows hwet (hvisit (join dir name)) h hdel
      unfold visitEntries entriesItinerary
      cases hf : fault .nextEntry (join dir name) with
      | some e => exact .stop h rfl (by simp [SweepCall.fails, hf])
      | none =>
          have hfine : (⟨.nextEntry, join dir name, false⟩ : SweepCall).fails fault = false := by
            simp [SweepCall.fails, hf]
          rcases hv : visitEntry args fault visitDir (fileName dir = some quarantineDir)
            (join dir name) s with ⟨s', e | ⟨⟩⟩
          · rw [hv] at hentry
            exact (hentry.error_append _).cons (by simp) hfine
          · rw [hv] at hentry
            refine Follows.cons (by simp) hfine (hentry.append ?_)
            cases hentry with
            | all fine tree deleted took =>
                rw [← tree]
                exact ih took deleted

/-- **A directory**, and everything below it. -/
theorem visit_follows (hwet : args.dryRun = false) (fuel : Nat) (h : Took t s.tree ps)
    (hdel : s.report.deleted = ps) :
    Follows fault t ps (dirItinerary args fault fuel dir s.tree) (visit args fault fuel dir s) := by
  induction fuel generalizing dir ps s with
  | zero => exact .stop h rfl (by simp [SweepCall.fails])
  | succ fuel ih =>
      unfold dirItinerary visit
      cases hf : fault .readDir dir with
      | some e =>
          rw [attempt_some]
          split
          · exact .stop h rfl (by simp [SweepCall.fails])
          · exact .stop h rfl (by simp [SweepCall.fails, hf])
      | none =>
          rw [attempt_none]
          cases hr : s.tree.readDir dir with
          | error e => exact .stop h rfl (by simp [SweepCall.fails])
          | ok names =>
              exact (visitEntries_follows hwet (fun _ _ _ => ih) names h hdel).cons (by simp)
                (by simp [SweepCall.fails, hf])

/-- **Every deletion is reported** exactly when, if a call on the itinerary of the sweep
fails, no file is removed before the first that does. -/
theorem deletions_reported_iff (args : SweepArgs) (fault : SweepFault) (root : OsStr)
    (t : FileTree) (hwet : args.dryRun = false) :
    DeletionsReported args fault root t ↔
      ((∃ c ∈ itinerary args fault root t, c.fails fault = true) →
        removals (reached fault (itinerary args fault root t)) = []) := by
  have hfollows : Follows fault t [] (dirItinerary args fault (nameCount t + 1) root t)
      (visit args fault (nameCount t + 1) root ⟨t, ⟨[], []⟩⟩) :=
    visit_follows (s := ⟨t, ⟨[], []⟩⟩) hwet _ (.refl t) rfl
  unfold DeletionsReported sweep itinerary
  generalize dirItinerary args fault (nameCount t + 1) root t = w at hfollows ⊢
  rcases hv : visit args fault (nameCount t + 1) root ⟨t, ⟨[], []⟩⟩ with ⟨s, e | ⟨⟩⟩
  · rw [hv] at hfollows
    cases hfollows with
    | upTo fails took =>
        rw [List.nil_append] at took
        constructor
        · intro hreported _
          -- a file that was removed would be in a report that is not there
          refine List.eq_nil_iff_forall_not_mem.mpr fun p hp => ?_
          obtain ⟨L, x, hL, hx, hfile⟩ := took.files p hp
          have hgone : s.tree.entry L = none := (took.gone_iff L x hx hfile).mpr ⟨p, hp, hL⟩
          obtain ⟨report, -, hok, -⟩ := hreported L x hx hfile hgone
          cases hok
        · intro hnone L x hx hfile hgone
          obtain ⟨p, hp, -⟩ := (took.gone_iff L x hx hfile).mp hgone
          rw [hnone fails] at hp
          cases hp
  · rw [hv] at hfollows
    cases hfollows with
    | all fine tree deleted took =>
        rw [← deleted] at took
        refine iff_of_true (fun L x hx hfile hgone => ?_) ?_
        · obtain ⟨p, hp, hL⟩ := (took.gone_iff L x hx hfile).mp hgone
          refine ⟨s.report, p, rfl, hp, hL, ?_⟩
          simp only [cleanupOutput]
          exact List.mem_append_left _ (List.mem_cons_of_mem _ (List.mem_map_of_mem hp))
        · rintro ⟨c, hc, hfails⟩
          rw [fine c hc] at hfails
          cases hfails

end Follows

/-! ## Two old clips -/

/-- An archive with two clips. -/
def clipPair : FileTree :=
  ((FileTree.bare.mkdirAt [ofString "c"]).createAt [ofString "c", ofString "a"]).createAt
    [ofString "c", ofString "b"]

/-- The clip `/c/a` cannot be removed. -/
def stuckClip : SweepFault := fun site path =>
  if site = .removeFile ∧ path = ofString "/c/a" then some (.other 13) else none

/-- Where no call fails, both clips are reported. -/
theorem deletions_reported_clipPair :
    DeletionsReported sweepAt50 noSweepFault (ofString "/c") clipPair := by
  have hfine : ∀ c ∈ itinerary sweepAt50 noSweepFault (ofString "/c") clipPair,
      c.fails noSweepFault = false := by
    decide +kernel
  refine (deletions_reported_iff sweepAt50 noSweepFault _ clipPair rfl).mpr ?_
  rintro ⟨c, hc, hfails⟩
  rw [hfine c hc] at hfails
  cases hfails

/-- **The other clip is gone, and nobody is told.** -/
theorem unreported_deletion :
    sweepAt50.dryRun = false ∧ clipPair.entry [ofString "c", ofString "b"] = some (.file 1) ∧
      (sweep sweepAt50 stuckClip (ofString "/c") clipPair).1.entry [ofString "c", ofString "b"] =
        none ∧
      (sweep sweepAt50 stuckClip (ofString "/c") clipPair).2 = .error (.other 13) ∧
      ¬ DeletionsReported sweepAt50 stuckClip (ofString "/c") clipPair := by
  have hclip : clipPair.entry [ofString "c", ofString "b"] = some (.file 1) := by decide +kernel
  have hgone : (sweep sweepAt50 stuckClip (ofString "/c") clipPair).1.entry
      [ofString "c", ofString "b"] = none := by decide +kernel
  have herror : (sweep sweepAt50 stuckClip (ofString "/c") clipPair).2 = .error (.other 13) := by
    decide +kernel
  refine ⟨rfl, hclip, hgone, herror, fun hreported => ?_⟩
  obtain ⟨report, -, hok, -⟩ := hreported _ _ hclip rfl hgone
  rw [herror] at hok
  cases hok

end Reoftpd
